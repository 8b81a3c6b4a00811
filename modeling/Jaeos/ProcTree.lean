import Jaeos.Pcb
import Jaeos.Lib.Forest
import Jaeos.Lib.LinkedList
import Mathlib.Data.Fintype.Card

/-!
# The process tree is a forest of lists

`TreeRep st parent kids` says that the tree links of the PCBs hold the forest
given by the parent of each process and the list of its children, the youngest
first. The siblings are a line of the links in which `p_prevSib` leads from a
child to the next older one. Under it, `insertChild` pushes, `removeChild` takes
the youngest, and `outChild` takes a child out of the list of its parent.
-/

namespace Jaeos

open LinkedRing LinkedList Forest

variable {n : ℕ}

/-- The sibling links, from the youngest child to the oldest. -/
def Store.sibLinks (st : Store n) : Links (Fin n) := ⟨st.pPrevSib, st.pNextSib⟩

/-- The children of a process, youngest first. -/
def Store.children (st : Store n) (p : Fin n) : List (Fin n) :=
  toList st.pPrevSib (n + 1) (st.pChild p)

/-- The tree links of the PCBs. -/
structure TreeLinks (n : ℕ) where
  /-- `p_prnt` -/
  pPrnt : Fin n → Option (Fin n)
  /-- `p_child` -/
  pChild : Fin n → Option (Fin n)
  /-- `p_nextSib` -/
  pNextSib : Fin n → Option (Fin n)
  /-- `p_prevSib` -/
  pPrevSib : Fin n → Option (Fin n)

/-- The store with other tree links. -/
def Store.withTree (st : Store n) (t : TreeLinks n) : Store n :=
  { st with pPrnt := t.pPrnt, pChild := t.pChild, pNextSib := t.pNextSib, pPrevSib := t.pPrevSib }

/-- The tree links hold the forest. -/
structure TreeRep (st : Store n) (parent : Fin n → Option (Fin n))
    (kids : Fin n → List (Fin n)) : Prop extends IsForest parent kids where
  /-- the parent of each process -/
  prnt : st.pPrnt = parent
  /-- `p_child` is the youngest child -/
  child : ∀ p, st.pChild p = (kids p).head?
  /-- the children are a line -/
  line : ∀ p, IsLine st.sibLinks (kids p)
  /-- a root has no siblings -/
  root : ∀ q, parent q = none → st.pPrevSib q = none ∧ st.pNextSib q = none

variable {st : Store n} {parent : Fin n → Option (Fin n)} {kids : Fin n → List (Fin n)}
  {p q c : Fin n}

namespace TreeRep

/-- The forest only depends on the tree links. -/
theorem congr {st' : Store n} (h : TreeRep st parent kids) (hprnt : st'.pPrnt = st.pPrnt)
    (hchild : st'.pChild = st.pChild) (hnext : st'.pNextSib = st.pNextSib)
    (hprev : st'.pPrevSib = st.pPrevSib) : TreeRep st' parent kids := by
  have hsib : st'.sibLinks = st.sibLinks := by rw [Store.sibLinks, hnext, hprev, Store.sibLinks]
  exact ⟨h.toIsForest, hprnt.trans h.prnt, hchild ▸ h.child, hsib ▸ h.line,
    fun q hq => by rw [hnext, hprev]; exact h.root q hq⟩

/-- A reader of the store sees the children. -/
theorem children_eq (h : TreeRep st parent kids) (p : Fin n) : st.children p = kids p := by
  have hline := h.line p
  have hlist : IsList st.pPrevSib (kids p).head? (kids p) :=
    IsLine.walk (P := IsList st.pPrevSib) rfl (fun x l hl => ⟨rfl, hl⟩) hline.chain hline.last
  have hlen := hline.nodup.length_le_card
  rw [Fintype.card_fin] at hlen
  rw [Store.children, h.child]
  exact hlist.toList_eq (by omega)

/-- The forest after a change to the children of `q`: only `p` gets another parent, and
only `p` and the children of `q` have other sibling links. -/
theorem update (h : TreeRep st parent kids) {t : TreeLinks n} {v : Option (Fin n)}
    {l : List (Fin n)} (hp : ∀ a, a ≠ q → p ∉ kids a)
    (hforest : IsForest (Function.update parent p v) (Function.update kids q l))
    (hprnt : t.pPrnt = Function.update st.pPrnt p v)
    (hchild : t.pChild q = l.head? ∧ ∀ a, a ≠ q → t.pChild a = st.pChild a)
    (hline : IsLine ⟨t.pPrevSib, t.pNextSib⟩ l)
    (hoff : ∀ x, x ∉ kids q → x ≠ p →
      t.pPrevSib x = st.pPrevSib x ∧ t.pNextSib x = st.pNextSib x)
    (hroot : v = none → t.pPrevSib p = none ∧ t.pNextSib p = none) :
    TreeRep (st.withTree t) (Function.update parent p v) (Function.update kids q l) := by
  refine ⟨hforest, by rw [← h.prnt]; exact hprnt, ?_, ?_, ?_⟩
  · intro a
    change t.pChild a = _
    by_cases haq : a = q
    · rw [haq, hchild.1, Function.update_self]
    · rw [hchild.2 a haq, h.child, Function.update_of_ne haq]
  · intro a
    by_cases haq : a = q
    · rw [haq, Function.update_self]
      exact hline
    · rw [Function.update_of_ne haq]
      have hother : ∀ x ∈ kids a, x ∉ kids q ∧ x ≠ p := fun x hx =>
        ⟨fun hq => haq (h.unique hx hq), fun e => hp a haq (e ▸ hx)⟩
      exact (h.line a).congr (fun x hx => (hoff x (hother x hx).1 (hother x hx).2).1)
        fun x hx => (hoff x (hother x hx).1 (hother x hx).2).2
  · intro b hb
    by_cases hbp : b = p
    · rw [hbp, Function.update_self] at hb
      rw [hbp]
      exact hroot hb
    · rw [Function.update_of_ne hbp] at hb
      have hbq : b ∉ kids q := fun hm => by
        rw [(h.mem q b).mp hm] at hb
        cases hb
      have heq := hoff b hbq hbp
      have hnone := h.root b hb
      exact ⟨heq.1.trans hnone.1, heq.2.trans hnone.2⟩

end TreeRep

/-! ## The operations -/

/-- `emptyChild` -/
theorem emptyChild_run (h : TreeRep st parent kids) :
    (emptyChild p).run st = some ((kids p).isEmpty, st) := by
  cases hk : kids p <;> simp [emptyChild, h.child, hk]

/-- `insertChild` makes a root the youngest child. -/
theorem insertChild_run (h : TreeRep st parent kids) (hp : parent p = none) :
    ∃ t, (insertChild q p).run st = some ((), st.withTree t) ∧
      TreeRep (st.withTree t) (Function.update parent p (some q)) (pushKid kids q p) := by
  have hpk := h.notMem_of_root hp
  cases hk : kids q with
  | nil =>
    refine ⟨⟨Function.update st.pPrnt p (some q), Function.update st.pChild q (some p),
      Function.update st.pNextSib p none, Function.update st.pPrevSib p none⟩, ?_, ?_⟩
    · simp [insertChild, emptyChild, h.child, hk, setPrevSib, setNextSib, setChild, setPrnt,
        Store.withTree]
    · refine h.update (fun a _ => hpk a) (h.adopt hp) rfl
        ⟨Function.update_self .., fun a ha => Function.update_of_ne ha _ _⟩ ?_ ?_
        (fun e => by cases e)
      · rw [hk]
        exact IsLine.singleton (by simp) (by simp)
      · intro x _ hxp
        exact ⟨Function.update_of_ne hxp _ _, Function.update_of_ne hxp _ _⟩
  | cons x l =>
    have hline := h.line q
    rw [hk] at hline
    refine ⟨⟨Function.update st.pPrnt p (some q), Function.update st.pChild q (some p),
      Function.update (Function.update st.pNextSib x (some p)) p none,
      Function.update st.pPrevSib p (some x)⟩, ?_, ?_⟩
    · simp [insertChild, emptyChild, h.child, hk, setPrevSib, setNextSib, setChild, setPrnt,
        Store.withTree]
    · refine h.update (fun a _ => hpk a) (h.adopt hp) rfl
        ⟨Function.update_self .., fun a ha => Function.update_of_ne ha _ _⟩ ?_ ?_
        (fun e => by cases e)
      · rw [hk]
        exact hline.push (hk ▸ hpk q)
      · intro y hy hyp
        have hyx : y ≠ x := fun e => hy (by simp [hk, e])
        exact ⟨Function.update_of_ne hyp _ _, by simp [hyp, hyx]⟩

/-- `removeChild` without children. -/
theorem removeChild_nil (h : TreeRep st parent kids) (hk : kids q = []) :
    (removeChild q).run st = some (none, st) := by
  simp [removeChild, h.child, hk]

/-- `removeChild` takes the youngest child. -/
theorem removeChild_cons {l : List (Fin n)} (h : TreeRep st parent kids) (hk : kids q = p :: l) :
    ∃ t, (removeChild q).run st = some (some p, st.withTree t) ∧
      TreeRep (st.withTree t) (Function.update parent p none) (eraseKid kids q p) := by
  have hpq : p ∈ kids q := by simp [hk]
  have hpp : parent p = some q := (h.mem q p).mp hpq
  have hline := h.line q
  rw [hk] at hline
  have herase : (kids q).erase p = l := by simp [hk]
  have hpk : ∀ a, a ≠ q → p ∉ kids a := fun a haq hm => haq (h.unique hm hpq)
  have hnext : st.pNextSib p = none := hline.prev_head
  cases l with
  | nil =>
    have hprev : st.pPrevSib p = none := hline.next_head
    refine ⟨⟨Function.update st.pPrnt p none, Function.update st.pChild q none, st.pNextSib,
      st.pPrevSib⟩, ?_, ?_⟩
    · simp [removeChild, h.child, hk, hprev, setChild, setPrnt, Store.withTree]
    · refine h.update hpk (h.orphan hpp) rfl ⟨?_, fun a ha => Function.update_of_ne ha _ _⟩
        ?_ (fun _ _ _ => ⟨rfl, rfl⟩) fun _ => ⟨hprev, hnext⟩
      · rw [herase]
        exact Function.update_self ..
      · rw [herase]
        exact IsLine.nil
  | cons x l =>
    have hprev : st.pPrevSib p = some x := hline.next_head
    have hxp : x ≠ p := by
      rintro rfl
      exact (List.nodup_cons.mp hline.nodup).1 (by simp)
    refine ⟨⟨Function.update st.pPrnt p none, Function.update st.pChild q (some x),
      Function.update st.pNextSib x none, Function.update st.pPrevSib p none⟩, ?_, ?_⟩
    · simp [removeChild, h.child, hk, hprev, setChild, setPrnt, setNextSib, setPrevSib,
        Store.withTree]
    · refine h.update hpk (h.orphan hpp) rfl ⟨?_, fun a ha => Function.update_of_ne ha _ _⟩
        ?_ ?_ fun _ => ?_
      · rw [herase]
        exact Function.update_self ..
      · rw [herase]
        refine hline.tail.congr ?_ fun _ _ => rfl
        intro y hy
        have hyp : y ≠ p := fun e => (List.nodup_cons.mp hline.nodup).1 (e ▸ hy)
        exact Function.update_of_ne hyp _ _
      · intro y hy hyp
        have hyx : y ≠ x := fun e => hy (by simp [hk, e])
        exact ⟨Function.update_of_ne hyp _ _, Function.update_of_ne hyx _ _⟩
      · exact ⟨Function.update_self .., by simp [hxp.symm, hnext]⟩

/-- `outChild` on a root. -/
theorem outChild_root (h : TreeRep st parent kids) (hp : parent p = none) :
    (outChild p).run st = some (none, st) := by
  simp [outChild, h.prnt, hp]

/-- `outChild` takes a child out of the list of its parent. -/
theorem outChild_child (h : TreeRep st parent kids) (hp : parent p = some q) :
    ∃ t, (outChild p).run st = some (some p, st.withTree t) ∧
      TreeRep (st.withTree t) (Function.update parent p none) (eraseKid kids q p) := by
  have hpq : p ∈ kids q := (h.mem q p).mpr hp
  have hprnt : st.pPrnt p = some q := by rw [h.prnt, hp]
  have hpk : ∀ a, a ≠ q → p ∉ kids a := fun a haq hm => haq (h.unique hm hpq)
  obtain ⟨l₁, l₂, hnl, hk, herase⟩ := List.exists_erase_eq hpq
  have hline := h.line q
  rw [hk] at hline
  rcases List.eq_nil_or_concat l₁ with rfl | ⟨l₁, a, rfl⟩
  · -- the youngest child: `removeChild`
    obtain ⟨t, hrun, htree⟩ := removeChild_cons h hk
    refine ⟨t, ?_, htree⟩
    simp [outChild, hprnt, h.child, hk, hrun]
  · rw [List.concat_append] at hline
    have hhead : (kids q).head? ≠ some p := by
      intro e
      rw [hk] at e
      cases l₁ with
      | nil => exact hnl (by simpa using (Option.some.inj e).symm)
      | cons x l₁ => exact hnl (by simp [Option.some.inj e])
    have hnext : st.pNextSib p = some a := hline.prev_eq
    have hap : a ≠ p := fun e => hnl (by simp [e])
    have haq : a ∈ kids q := by simp [hk]
    have hpl : p ∉ l₁ ++ [a] ∧ p ∉ l₂ := by
      have hnd := hline.nodup
      rw [List.append_cons] at hnd
      obtain ⟨-, hr, hdisj⟩ := List.nodup_append.mp hnd
      exact ⟨fun hm => hdisj p hm p (by simp) rfl, (List.nodup_cons.mp hr).1⟩
    rw [List.concat_eq_append] at herase
    cases l₂ with
    | nil =>
      have hprev : st.pPrevSib p = none := by
        rw [List.append_cons] at hline
        exact hline.next_eq
      refine ⟨⟨Function.update st.pPrnt p none, st.pChild, Function.update st.pNextSib p none,
        Function.update st.pPrevSib a none⟩, ?_, ?_⟩
      · simp [outChild, hprnt, h.child, hhead.symm, hprev, hnext, setPrevSib, setNextSib, setPrnt,
          Store.withTree]
      · refine h.update hpk (h.orphan hp) rfl ⟨?_, fun _ _ => rfl⟩ ?_ ?_ fun _ => ?_
        · refine (h.child q).trans ?_
          rw [herase, hk]
          cases l₁ <;> simp
        · rw [herase, List.append_nil]
          refine hline.dropLast.congr (fun _ _ => rfl) ?_
          intro y hy
          have hyp : y ≠ p := fun e => hpl.1 (e ▸ hy)
          exact Function.update_of_ne hyp _ _
        · intro y hy hyp
          have hya : y ≠ a := fun e => hy (e ▸ haq)
          exact ⟨Function.update_of_ne hya _ _, Function.update_of_ne hyp _ _⟩
        · exact ⟨by simp [hap.symm, hprev], Function.update_self ..⟩
    | cons b l₂ =>
      have hprev : st.pPrevSib p = some b := by
        rw [List.append_cons] at hline
        exact hline.next_eq
      have hbp : b ≠ p := fun e => hpl.2 (by simp [e])
      have hbq : b ∈ kids q := by simp [hk]
      refine ⟨⟨Function.update st.pPrnt p none, st.pChild,
        Function.update (Function.update st.pNextSib b (some a)) p none,
        Function.update (Function.update st.pPrevSib a (some b)) p none⟩, ?_, ?_⟩
      · simp [outChild, hprnt, h.child, hhead.symm, hprev, hnext, setPrevSib, setNextSib, setPrnt,
          Store.withTree]
      · refine h.update hpk (h.orphan hp) rfl ⟨?_, fun _ _ => rfl⟩ ?_ ?_ fun _ => ?_
        · refine (h.child q).trans ?_
          rw [herase, hk]
          cases l₁ <;> simp
        · rw [herase, List.append_assoc]
          refine hline.unlink.congr ?_ ?_ <;>
          · intro y hy
            have hyp : y ≠ p := by
              rintro rfl
              rw [List.append_cons] at hy
              rcases List.mem_append.mp hy with hm | hm
              · exact hpl.1 hm
              · exact hpl.2 hm
            exact Function.update_of_ne hyp _ _
        · intro y hy hyp
          have hya : y ≠ a := fun e => hy (e ▸ haq)
          have hyb : y ≠ b := fun e => hy (e ▸ hbq)
          exact ⟨by simp [hyp, hya], by simp [hyp, hyb]⟩
        · exact ⟨Function.update_self .., Function.update_self ..⟩

end Jaeos
