import Jaeos.Boot

/-!
# The process tree refines a forest

`Family` is a forest of processes, as the parent of each process and the ordered
list of its children. `TreeRun` relates the store to the forest after any
sequence of calls from freshly allocated PCBs, and `tree_refines_forest` is the
refinement.
-/

namespace Jaeos

open LinkedRing Forest

variable {n : ℕ}

/-! ## The abstract forest -/

/-- A forest of processes. -/
structure Family (n : ℕ) where
  /-- the parent of a process -/
  parent : Fin n → Option (Fin n)
  /-- its children, newest first -/
  kids : Fin n → List (Fin n)
  /-- the two agree -/
  forest : IsForest parent kids
  /-- no process is its own ancestor -/
  acyclic : Acyclic parent

/-- A call on the process tree. -/
inductive TreeCall (n : ℕ) where
  /-- `insertChild` -/
  | insertChild (prnt p : Fin n)
  /-- `removeChild` -/
  | removeChild (prnt : Fin n)
  /-- `outChild` -/
  | outChild (p : Fin n)

/-- The call, made by the code. -/
def TreeCall.exec : TreeCall n → StoreM n (Option (Fin n))
  | .insertChild prnt p => do Jaeos.insertChild prnt p; return none
  | .removeChild prnt => Jaeos.removeChild prnt
  | .outChild p => Jaeos.outChild p

namespace Family

/-- No process has a parent. -/
def init : Family n where
  parent _ := none
  kids _ := []
  forest := ⟨by simp, by simp⟩
  acyclic := ⟨fun _ => 0, by simp⟩

/-- `insertChild` is given a process without parent that is neither the new parent nor one of its
ancestors. -/
def Legal (f : Family n) : TreeCall n → Prop
  | .insertChild prnt p => f.parent p = none ∧ ¬ Above f.parent p prnt
  | _ => True

/-- A root becomes the newest child. -/
def adopt (f : Family n) (q p : Fin n) (hp : f.parent p = none) (hpq : ¬ Above f.parent p q) :
    Family n where
  parent := Function.update f.parent p (some q)
  kids := pushKid f.kids q p
  forest := f.forest.adopt hp
  acyclic := f.acyclic.graft hp hpq

/-- A child becomes a root. -/
def orphan (f : Family n) (q p : Fin n) (hp : f.parent p = some q) : Family n where
  parent := Function.update f.parent p none
  kids := eraseKid f.kids q p
  forest := f.forest.orphan hp
  acyclic := f.acyclic.orphan p

/-- What a call returns. -/
def result (f : Family n) : TreeCall n → Option (Fin n)
  | .insertChild _ _ => none
  | .removeChild prnt => (f.kids prnt).head?
  | .outChild p => if (f.parent p).isSome then some p else none

/-- A process loses its parent, if it has one. -/
def part (f : Family n) (p : Fin n) : Family n :=
  match hp : f.parent p with
  | none => f
  | some q => f.orphan q p hp

/-- What a call does to the forest. -/
def next (f : Family n) : (c : TreeCall n) → f.Legal c → Family n
  | .insertChild prnt p, h => f.adopt prnt p h.1 h.2
  | .removeChild prnt, _ =>
    match f.kids prnt with
    | [] => f
    | p :: _ => f.part p
  | .outChild p, _ => f.part p

/-- The calls that find nothing to do. -/
def Idle (f : Family n) : TreeCall n → Prop
  | .insertChild _ _ => False
  | c => f.result c = none

end Family

/-! ## The code -/

/-- The tree links of the store hold the forest. -/
abbrev Family.Rep (st : Store n) (f : Family n) : Prop := TreeRep st f.parent f.kids

/-- The tree links, as a reader of the store sees them. -/
structure Store.TreeWellFormed (st : Store n) : Prop where
  /-- a process is in the list of its parent and in no other -/
  mem : ∀ p q, q ∈ st.children p ↔ st.pPrnt q = some p
  /-- the newest child is the first one -/
  newest : ∀ p, st.pChild p = (st.children p).head?
  /-- the sibling links are inverse to each other, and null at both ends -/
  siblings : ∀ p, IsLine st.sibLinks (st.children p)
  /-- a process without parent has no siblings -/
  root : ∀ q, st.pPrnt q = none → st.pPrevSib q = none ∧ st.pNextSib q = none
  /-- no process is its own ancestor -/
  acyclic : ∀ p, ¬ Relation.TransGen (fun p q => st.pPrnt q = some p) p p

/-- The reader of the store sees the forest. -/
structure Family.Seen (st : Store n) (f : Family n) : Prop extends st.TreeWellFormed where
  /-- the parents -/
  parent : st.pPrnt = f.parent
  /-- the children -/
  children : ∀ p, st.children p = f.kids p

variable {st st' : Store n} {f : Family n}

namespace Family

/-- What the store holds is what its reader sees. -/
theorem Rep.seen (hf : f.Rep st) : f.Seen st := by
  have hkids := hf.children_eq
  refine ⟨⟨fun p q => ?_, fun p => ?_, fun p => ?_, fun q hq => ?_, fun p => ?_⟩, hf.prnt, hkids⟩
  · rw [hkids, hf.prnt]
    exact f.forest.mem p q
  · rw [hkids]
    exact hf.child p
  · rw [hkids]
    exact hf.line p
  · rw [hf.prnt] at hq
    exact hf.root q hq
  · rw [hf.prnt]
    exact f.acyclic.irrefl

/-- `part` of a child. -/
theorem part_of_parent {p q : Fin n} (hp : f.parent p = some q) :
    (f.part p).parent = Function.update f.parent p none ∧
      (f.part p).kids = eraseKid f.kids q p := by
  rw [part]
  split
  · rename_i hnone
    rw [hp] at hnone
    cases hnone
  · rename_i q' hq'
    obtain rfl := Option.some.inj (hp.symm.trans hq')
    exact ⟨rfl, rfl⟩

/-- One call: it returns what the forest says, does what the forest does, and changes nothing but
tree links. -/
theorem Rep.exec (hf : f.Rep st) (c : TreeCall n) (hc : f.Legal c) :
    ∃ t, c.exec.run st = some (f.result c, st.withTree t) ∧ (f.next c hc).Rep (st.withTree t) ∧
      (f.Idle c → st.withTree t = st) := by
  have hsame : st.withTree ⟨st.pPrnt, st.pChild, st.pNextSib, st.pPrevSib⟩ = st := rfl
  cases c with
  | insertChild prnt p =>
    obtain ⟨t, hrun, ht⟩ := insertChild_run (q := prnt) hf hc.1
    refine ⟨t, ?_, ht, fun h => h.elim⟩
    simp [TreeCall.exec, hrun, result]
  | removeChild prnt =>
    cases hk : f.kids prnt with
    | nil =>
      refine ⟨⟨st.pPrnt, st.pChild, st.pNextSib, st.pPrevSib⟩, ?_, ?_, fun _ => hsame⟩
      · rw [hsame, result, hk]
        exact removeChild_nil hf hk
      · rw [hsame, next, hk]
        exact hf
    | cons p l =>
      have hp : f.parent p = some prnt := (f.forest.mem prnt p).mp (by simp [hk])
      obtain ⟨t, hrun, ht⟩ := removeChild_cons hf hk
      obtain ⟨hparent, hkids⟩ := part_of_parent hp
      refine ⟨t, ?_, ?_, fun h => ?_⟩
      · rw [result, hk]
        exact hrun
      · rw [next, hk, Rep, hparent, hkids]
        exact ht
      · simp [Idle, result, hk] at h
  | outChild p =>
    cases hp : f.parent p with
    | none =>
      refine ⟨⟨st.pPrnt, st.pChild, st.pNextSib, st.pPrevSib⟩, ?_, ?_, fun _ => hsame⟩
      · rw [hsame, result, hp]
        exact outChild_root hf hp
      · rw [hsame, next, part]
        split
        · exact hf
        · rename_i hsome
          rw [hp] at hsome
          cases hsome
    | some q =>
      obtain ⟨t, hrun, ht⟩ := outChild_child hf hp
      obtain ⟨hparent, hkids⟩ := part_of_parent hp
      refine ⟨t, ?_, ?_, fun h => ?_⟩
      · rw [result, hp]
        exact hrun
      · rw [next, Rep, hparent, hkids]
        exact ht
      · simp [Idle, result, hp] at h

end Family

/-! ## Runs from freshly allocated PCBs -/

/-- `initPcbs`, and PCBs that are then allocated. -/
def allocated : ℕ → StoreM n Unit
  | 0 => initPcbs
  | k + 1 => do
    allocated k
    let _ ← allocPcb

/-- The stores and forests that a sequence of calls reaches from freshly allocated PCBs. -/
inductive TreeRun : Store n → Family n → Prop
  /-- some PCBs are allocated -/
  | init {st₀ st : Store n} (k : ℕ) (h : (allocated k).run st₀ = some ((), st)) : TreeRun st .init
  /-- one more call -/
  | call {st st' : Store n} {f : Family n} {r : Option (Fin n)} (c : TreeCall n) (hc : f.Legal c)
      (h : c.exec.run st = some (r, st')) (hrun : TreeRun st f) : TreeRun st' (f.next c hc)

/-- Allocated PCBs and free ones have no tree links. -/
theorem allocated_run (k : ℕ) (st₀ : Store n) : ∃ st, (allocated k).run st₀ = some ((), st) ∧
    (∃ l, IsQueue st st.pcbListH l) ∧ Family.Rep st .init := by
  induction k with
  | zero =>
    obtain ⟨st, hrun, hfreed, -⟩ := initPcbs_run st₀
    have hall : ∀ p : Fin n, p ∈ List.finRange n := List.mem_finRange
    refine ⟨st, hrun, ⟨_, hfreed.queue⟩, Family.init.forest, ?_, fun p => hfreed.child p (hall p),
      fun p => IsLine.nil, fun q _ => hfreed.sib q (hall q)⟩
    funext p
    exact hfreed.prnt p (hall p)
  | succ k ih =>
    obtain ⟨st, hrun, ⟨l, hqueue⟩, hrep⟩ := ih
    cases l with
    | nil =>
      refine ⟨st, ?_, ⟨_, hqueue⟩, hrep⟩
      simp [allocated, hrun, allocPcb_none hqueue]
    | cons p l =>
      obtain ⟨links, halloc, hring, -⟩ := allocPcb_some hqueue
      have hp : p ∉ l := (List.nodup_cons.mp hqueue.nodup).1
      generalize hst₁ : ({ st.withLinks links with pcbListH := l.getLast? } : Store n) =
        st₁ at halloc
      have hrest : IsQueue st₁ st₁.pcbListH l := by
        rw [← hst₁]
        exact ⟨hring, rfl⟩
      have htree : Family.Rep st₁ .init := by
        rw [← hst₁]
        exact hrep.congr rfl rfl rfl rfl
      have hnone : ∀ q, st₁.pPrevSib q = none ∧ st₁.pNextSib q = none := fun q => htree.root q rfl
      refine ⟨st₁.clean p, ?_, ⟨l, hrest.clean hp⟩, htree.congr ?_ ?_ ?_ ?_⟩
      · simp [allocated, hrun, halloc]
      · exact Function.update_eq_self_iff.mpr (by rw [htree.prnt]; rfl)
      · exact Function.update_eq_self_iff.mpr (htree.child p).symm
      · exact Function.update_eq_self_iff.mpr (hnone p).2.symm
      · exact Function.update_eq_self_iff.mpr (hnone p).1.symm

theorem TreeRun.rep (hrun : TreeRun st f) : f.Rep st := by
  induction hrun with
  | @init st₀ st k h =>
    obtain ⟨st', halloc, -, hrep⟩ := allocated_run k st₀
    rw [h] at halloc
    obtain ⟨-, rfl⟩ := Prod.mk.inj (Option.some.inj halloc)
    exact hrep
  | call c hc h hrun ih =>
    obtain ⟨t, hexec, hrep, -⟩ := ih.exec c hc
    rw [h] at hexec
    obtain ⟨-, rfl⟩ := Prod.mk.inj (Option.some.inj hexec)
    exact hrep

/-- The tree links refine the forest: after any sequence of calls the reader of the store sees the
forest, and each further call ends, returns what the forest says and has its effect on the tree
links, and no other. -/
theorem tree_refines_forest (hrun : TreeRun st f) : f.Seen st ∧ ∀ c (hc : f.Legal c), ∃ t,
    c.exec.run st = some (f.result c, st.withTree t) ∧ (f.next c hc).Seen (st.withTree t) ∧
    (f.Idle c → st.withTree t = st) := by
  refine ⟨hrun.rep.seen, fun c hc => ?_⟩
  obtain ⟨t, hexec, hrep, hidle⟩ := hrun.rep.exec c hc
  exact ⟨t, hexec, hrep.seen, hidle⟩

/-- A process becomes a child of another one, and is removed again. -/
theorem tree_refines_forest_insert : ∃ (st st' st'' : Store 2) (f : Family 2), TreeRun st' f ∧
    (TreeCall.insertChild 0 1).exec.run st = some (none, st') ∧
      (TreeCall.removeChild 0).exec.run st' = some (some 1, st'') := by
  obtain ⟨st, halloc, -⟩ := allocated_run 2 (Store.zero : Store 2)
  have hlegal : (Family.init : Family 2).Legal (.insertChild 0 1) := by
    refine ⟨rfl, fun habove => ?_⟩
    rcases Relation.ReflTransGen.cases_tail habove with e | ⟨c, -, hc⟩
    · cases e
    · cases hc
  obtain ⟨-, hcalls⟩ := tree_refines_forest (.init 2 halloc)
  obtain ⟨t, hexec, -⟩ := hcalls (.insertChild 0 1) hlegal
  have hrun := TreeRun.call _ hlegal hexec (.init 2 halloc)
  obtain ⟨-, hcalls'⟩ := tree_refines_forest hrun
  obtain ⟨t', hexec', -⟩ := hcalls' (.removeChild 0) trivial
  have hresult : (Family.init.next (.insertChild 0 1) hlegal).result (.removeChild 0) = some 1 := by
    simp [Family.result, Family.next, Family.adopt, Family.init, pushKid]
  rw [hresult] at hexec'
  exact ⟨st, _, _, _, hrun, hexec, hexec'⟩

end Jaeos
