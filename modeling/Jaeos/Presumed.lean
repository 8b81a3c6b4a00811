import Jaeos.Links
import Jaeos.Nuke

/-!
# The kill of a ready process with a `p_semAdd`

`nukeItTilItPukes` takes a process whose `p_semAdd` is not null for one that is blocked
there, and compensates the semaphore even if the process was ready. The store is then out of
order, but the process tree, `p_semAdd` and the globals are still those of a kill
from the lists in which such processes are presumed blocked (`Lists.presumed`). So the end of
the kill tells whether there was one: `killSafe_of_purge`.
-/

namespace Jaeos

open Forest

variable {n : ℕ}

/-! ## What the queues do not tell -/

/-- The fields of the PCBs that the calls on queues leave alone. -/
def Store.kin (st : Store n) : (Fin n → Option (Fin n)) × (Fin n → Option (Fin n)) ×
    (Fin n → Option (Fin n)) × (Fin n → Option (Fin n)) × (Fin n → ℕ) :=
  (st.pPrnt, st.pChild, st.pNextSib, st.pPrevSib, st.pSemAdd)

theorem QueueBlind.kin : QueueBlind (Store.kin (n := n)) :=
  ⟨fun _ _ => rfl, fun _ _ => rfl, fun _ _ => rfl⟩

/-- The nucleus has the globals, the process tree and the `p_semAdd` of `s`, and its queues may be
anything. -/
structure Nucleus.Kin (c : Nucleus n) (s : Abs n) : Prop where
  /-- the globals are the same -/
  globals : c.toGlobals = s.toGlobals
  /-- the store represents the process tree -/
  tree : TreeRep c.store s.lists.parent s.lists.kids
  /-- `p_semAdd` -/
  semAdd : c.store.pSemAdd = s.lists.semAdd

/-- A change of the queues. -/
theorem Nucleus.Kin.congr {c : Nucleus n} {s s' : Abs n} {st : Store n} (h : c.Kin s)
    (hst : st.kin = c.store.kin) (hglobals : s'.toGlobals = s.toGlobals)
    (hparent : s'.lists.parent = s.lists.parent) (hkids : s'.lists.kids = s.lists.kids)
    (hsem : s'.lists.semAdd = s.lists.semAdd) : ({ c with store := st } : Nucleus n).Kin s' := by
  simp only [Store.kin, Prod.mk.injEq] at hst
  obtain ⟨hprnt, hchild, hnext, hprev, hadd⟩ := hst
  refine ⟨h.globals.trans hglobals.symm, ?_, hadd.trans (h.semAdd.trans hsem.symm)⟩
  rw [hparent, hkids]
  exact h.tree.congr hprnt hchild hnext hprev

/-- The contract of the operations of the kill, when the queues are not what the lists say: the
search of a queue finds the process or not. -/
def NucOp.kinSpec : Prog.Contract (NucOp n) (Abs n)
  | _, .globals, Q, s => NucOp.spec _ .globals Q s
  | _, .modify f, Q, s => NucOp.spec _ (.modify f) Q s
  | _, .store (.semAdd p), Q, s => NucOp.spec _ (.store (.semAdd p)) Q s
  | _, .store (.emptyChild p), Q, s => NucOp.spec _ (.store (.emptyChild p)) Q s
  | _, .store (.removeChild r), Q, s => NucOp.spec _ (.store (.removeChild r)) Q s
  | _, .store (.outChild p), Q, s => NucOp.spec _ (.store (.outChild p)) Q s
  | _, .store (.freePcb p), Q, s => NucOp.spec _ (.store (.freePcb p)) Q s
  | _, .store (.outReady p), Q, s =>
    NucOp.spec _ (.store (.outReady p)) (fun _ s' => ∀ b, Q b s') s
  | _, .store (.outBlocked p), Q, s =>
    NucOp.spec _ (.store (.outBlocked p)) (fun _ s' => ∀ b, Q b s') s
  | _, _, _, _ => False

theorem NucOp.kinSpec_mono : Prog.Monotone (NucOp.kinSpec (n := n)) := by
  intro β o Q Q' s hQ h
  have hany : ∀ (_ : β) (t : Abs n), (∀ b, Q b t) → ∀ b, Q' b t := fun _ t ht b => hQ b t (ht b)
  cases o with
  | globals | modify f => exact hQ _ _ h
  | stuck => exact h
  | store o =>
    cases o with
    | semAdd p | emptyChild p => exact hQ _ _ h
    | removeChild r => exact NucOp.spec_mono (.store (.removeChild r)) hQ h
    | outChild p => exact NucOp.spec_mono (.store (.outChild p)) hQ h
    | freePcb p => exact NucOp.spec_mono (.store (.freePcb p)) hQ h
    | outReady p => exact NucOp.spec_mono (.store (.outReady p)) hany h
    | outBlocked p => exact NucOp.spec_mono (.store (.outBlocked p)) hany h
    | data | modifyData f | clearSemAdd p | allocPcb | insertChild r p | insertReady p
    | removeReady | insertBlocked a p | removeBlocked a => exact h

section

variable {s : Abs n} {p : Fin n}

theorem kin_emptyChild (Q : Bool → Abs n → Prop) :
    (store (.emptyChild p)).wp NucOp.kinSpec Q s = (store (.emptyChild p)).wp NucOp.spec Q s := rfl

theorem kin_removeChild (Q : Option (Fin n) → Abs n → Prop) :
    (store (.removeChild p)).wp NucOp.kinSpec Q s = (store (.removeChild p)).wp NucOp.spec Q s :=
        rfl

theorem kin_outReady (Q : Option (Fin n) → Abs n → Prop) :
    (store (.outReady p)).wp NucOp.kinSpec Q s =
      (store (.outReady p)).wp NucOp.spec (fun _ t => ∀ b, Q b t) s := rfl

theorem kin_outBlocked (Q : Option (Fin n) → Abs n → Prop) :
    (store (.outBlocked p)).wp NucOp.kinSpec Q s =
      (store (.outBlocked p)).wp NucOp.spec (fun _ t => ∀ b, Q b t) s := rfl

end

/-- Each result of an operation of the kill meets this contract. -/
theorem Nucleus.Kin.op {β : Type} {o : NucOp n β} {Q : β → Abs n → Prop} {c c' : Nucleus n}
    {s : Abs n} {b : β} (h : c.Kin s) (hspec : NucOp.kinSpec β o Q s)
    (hrun : (NucOp.sem β o).run c = some (b, c')) : ∃ s', c'.Kin s' ∧ Q b s' := by
  cases o with
  | globals =>
    obtain ⟨rfl, rfl⟩ := Prod.mk.inj (Option.some.inj hrun)
    exact ⟨s, h, h.globals ▸ hspec⟩
  | modify f =>
    obtain ⟨⟨⟩, rfl⟩ := Prod.mk.inj (Option.some.inj hrun)
    exact ⟨s.setGlobals (f s.toGlobals), ⟨congrArg f h.globals, h.tree, h.semAdd⟩, hspec⟩
  | stuck => cases hrun
  | store o =>
    obtain ⟨⟨b, st⟩, hst, hc'⟩ := Option.bind_eq_some_iff.mp hrun
    obtain ⟨rfl, rfl⟩ := Prod.mk.inj (Option.some.inj hc')
    -- what a search does to the queues is not looked at
    have hsearch : ∀ t : Abs n, st.kin = c.store.kin → t.toGlobals = s.toGlobals →
        t.lists.parent = s.lists.parent → t.lists.kids = s.lists.kids →
        t.lists.semAdd = s.lists.semAdd → (∀ b, Q b t) →
        ∃ s', ({ c with store := st } : Nucleus n).Kin s' ∧ Q b s' :=
      fun t hkin hglobals hparent hkids hsem hQ =>
        ⟨t, h.congr hkin hglobals hparent hkids hsem, hQ b⟩
    cases o with
    | semAdd p =>
      obtain ⟨rfl, rfl⟩ := Prod.mk.inj (Option.some.inj hst)
      exact ⟨s, h, congrFun h.semAdd p ▸ hspec⟩
    | emptyChild p =>
      obtain ⟨rfl, rfl⟩ := Prod.mk.inj (Option.some.inj ((emptyChild_run h.tree).symm.trans hst))
      exact ⟨s, h, hspec⟩
    | removeChild r =>
      cases hk : s.lists.kids r with
      | nil =>
        obtain ⟨rfl, rfl⟩ :=
          Prod.mk.inj (Option.some.inj ((removeChild_nil h.tree hk).symm.trans hst))
        exact ⟨s, h, hspec.1 hk⟩
      | cons p ps =>
        obtain ⟨t, ht, htree⟩ := removeChild_cons h.tree hk
        obtain ⟨rfl, rfl⟩ := Prod.mk.inj (Option.some.inj (ht.symm.trans hst))
        exact ⟨s.setLists (s.lists.orphan r p), ⟨h.globals, htree, h.semAdd⟩, hspec.2 p ps hk⟩
    | outChild p =>
      cases hp : s.lists.parent p with
      | none =>
        obtain ⟨rfl, rfl⟩ :=
          Prod.mk.inj (Option.some.inj ((outChild_root h.tree hp).symm.trans hst))
        exact ⟨s, h, hspec.1 hp⟩
      | some r =>
        obtain ⟨t, ht, htree⟩ := outChild_child h.tree hp
        obtain ⟨rfl, rfl⟩ := Prod.mk.inj (Option.some.inj (ht.symm.trans hst))
        exact ⟨s.setLists (s.lists.orphan r p), ⟨h.globals, htree, h.semAdd⟩, hspec.2 r hp⟩
    | freePcb p =>
      obtain ⟨-, hiso, hQ⟩ := hspec
      refine ⟨(s.setData (s.data.wash p)).setLists (s.lists.append .free p), ?_, hQ⟩
      refine h.congr ?_ rfl rfl rfl rfl
      have hrest : Keeps Store.kin (do
          let tail ← insertProcQ (← get).pcbListH p
          modify fun st : Store n => { st with pcbListH := tail }) :=
        .of_get_bind fun _ => .of_bind (QueueBlind.kin.insertProcQ _ _) fun _ =>
          .of_modify fun _ => rfl
      have hst' : (freePcb p).run c.store = some (b, st) := hst
      rw [freePcb, StateT.run_bind, washPcb_run h.tree hiso] at hst'
      exact hrest (c.store.washed p) () st hst'
    | outReady p =>
      have hkin : st.kin = c.store.kin := by
        have hkeeps : Keeps Store.kin (StoreOp.sem _ (.outReady p)) :=
          .of_get_bind fun _ => .of_bind (QueueBlind.kin.outProcQ _ _) fun _ =>
            .of_bind (.of_modify fun _ => rfl) fun _ => .of_pure _
        exact hkeeps _ _ _ hst
      by_cases hp : p ∈ s.lists.q .ready
      · exact hsearch (s.setLists (s.lists.setQ .ready ((s.lists.q .ready).erase p)))
          hkin rfl rfl rfl
          rfl (hspec.2 hp)
      · exact hsearch s hkin rfl rfl rfl rfl (hspec.1 hp)
    | outBlocked p =>
      have hkin : st.kin = c.store.kin := QueueBlind.kin.outBlocked p _ _ _ hst
      obtain ⟨i, hi⟩ : ∃ i, i = Place.blocked (s.lists.semAdd p) := ⟨_, rfl⟩
      by_cases hp : p ∈ s.lists.q (.blocked (s.lists.semAdd p))
      · refine hsearch (s.setLists (s.lists.setQ i ((s.lists.q i).erase p))) hkin rfl rfl rfl rfl ?_
        exact hi ▸ hspec.2 hp
      · exact hsearch s hkin rfl rfl rfl rfl (hspec.1 hp)
    | data | modifyData f | clearSemAdd p | allocPcb | insertChild r p | insertReady p
    | removeReady | insertBlocked a p | removeBlocked a => exact hspec.elim

/-! ## Where the kill presumes the processes -/

namespace Lists

/-- The queues in which the kill presumes the processes: a ready one with a `p_semAdd` waits
there. -/
def presumed (l : Lists n) : Lists n := { l with
  q := fun
    | .free => l.q .free
    | .ready => (l.q .ready).filter (l.semAdd · = null)
    | .blocked a =>
      if a = null then [] else l.q (.blocked a) ++ (l.q .ready).filter (l.semAdd · = a) }

/-- The queue in which the kill presumes a process of the queue `i`. -/
def presumedAt (l : Lists n) (x : Fin n) (i : Place) : Place :=
  if i = .ready ∧ l.semAdd x ≠ null then .blocked (l.semAdd x) else i

variable {l : Lists n} {cur : Option (Fin n)} {x : Fin n} {i : Place} {a : ℕ}

theorem mem_presumed_ready : x ∈ l.presumed.q .ready ↔ x ∈ l.q .ready ∧ l.semAdd x = null := by
  simp [presumed]

theorem mem_presumed_blocked : x ∈ l.presumed.q (.blocked a) ↔
    a ≠ null ∧ (x ∈ l.q (.blocked a) ∨ x ∈ l.q .ready ∧ l.semAdd x = a) := by
  by_cases ha : a = null
  · simp [presumed, ha]
  · simp [presumed, ha]

/-- Each process is presumed in one queue. -/
theorem Ok.mem_presumed (h : l.Ok cur) :
    x ∈ l.presumed.q i ↔ ∃ j, x ∈ l.q j ∧ i = l.presumedAt x j := by
  constructor
  · intro hx
    cases i with
    | free => exact ⟨.free, hx, by simp [presumedAt]⟩
    | ready =>
      obtain ⟨hready, hnull⟩ := mem_presumed_ready.mp hx
      exact ⟨.ready, hready, by simp [presumedAt, hnull]⟩
    | blocked a =>
      obtain ⟨ha, hblocked | ⟨hready, rfl⟩⟩ := mem_presumed_blocked.mp hx
      · exact ⟨.blocked a, hblocked, by simp [presumedAt]⟩
      · exact ⟨.ready, hready, by simp [presumedAt, ha]⟩
  · rintro ⟨j, hx, rfl⟩
    cases j with
    | free =>
      rw [presumedAt, if_neg (by simp)]
      exact hx
    | ready =>
      by_cases hnull : l.semAdd x = Jaeos.null
      · rw [presumedAt, if_neg (by simp [hnull])]
        exact mem_presumed_ready.mpr ⟨hx, hnull⟩
      · rw [presumedAt, if_pos ⟨rfl, hnull⟩]
        exact mem_presumed_blocked.mpr ⟨hnull, .inr ⟨hx, rfl⟩⟩
    | blocked a =>
      rw [presumedAt, if_neg (by simp)]
      exact mem_presumed_blocked.mpr ⟨h.ne_null hx, .inl hx⟩

/-- These queues are in order. -/
theorem Ok.presumed (h : l.Ok cur) : l.presumed.Ok cur := by
  refine h.move ⟨?_, ?_, h.placed.nodup_out, ?_, ?_⟩ rfl rfl h.free ?_
  · intro i
    cases i with
    | free => exact h.placed.nodup .free
    | ready => exact (h.placed.nodup .ready).filter _
    | blocked a =>
      by_cases ha : a = Jaeos.null
      · simp [Lists.presumed, ha]
      · simp only [Lists.presumed, if_neg ha]
        refine (h.placed.nodup _).append ((h.placed.nodup .ready).filter _) fun x hx hx' => ?_
        have heq := h.placed.eq_of_mem hx (List.mem_of_mem_filter hx')
        cases heq
  · intro i j x hi hj
    obtain ⟨i', hxi, rfl⟩ := h.mem_presumed.mp hi
    obtain ⟨j', hxj, rfl⟩ := h.mem_presumed.mp hj
    rw [h.placed.disjoint i' j' x hxi hxj]
  · intro x hx i hi
    obtain ⟨i', hxi, -⟩ := h.mem_presumed.mp hi
    exact h.placed.loose x hx i' hxi
  · intro x
    refine (h.placed.cover x).imp_right ?_
    rintro ⟨i, hi⟩
    exact ⟨_, h.mem_presumed.mpr ⟨i, hi, rfl⟩⟩
  · intro a x hx
    obtain ⟨ha, hx | ⟨-, heq⟩⟩ := mem_presumed_blocked.mp hx
    · exact ⟨h.blocked a x hx, ha⟩
    · exact ⟨heq, ha⟩

end Lists

variable [Layout]

section

variable {s : Abs n} {p : Fin n} {Q : Unit → Abs n → Prop}

/-- The end of the kill does not look at what the search of a queue finds. -/
theorem wp_nukeLeaf_kin (h : (nukeLeaf p).wp NucOp.spec Q s) :
    (nukeLeaf p).wp NucOp.kinSpec Q s := by
  rw [nukeLeaf, Prog.wp_bind, nukeDetach, Prog.wp_bind] at h ⊢
  change (if s.currentProcess = some p then _ else _ : NucM n Unit).wp _ _ _ at h ⊢
  rw [Prog.wp_ite] at h ⊢
  by_cases hcur : s.currentProcess = some p
  · rw [if_pos hcur] at h ⊢
    exact h
  · rw [if_neg hcur, Prog.wp_bind] at h ⊢
    change (if s.lists.semAdd p = null then _ else _ : NucM n Unit).wp _ _ _ at h ⊢
    rw [Prog.wp_ite] at h ⊢
    by_cases hnull : s.lists.semAdd p = null
    · rw [if_pos hnull, Prog.wp_bind] at h ⊢
      rw [kin_outReady]
      refine Prog.wp_mono NucOp.spec_mono (fun _ t ht => ?_) h
      exact fun _ => ht
    · rw [if_neg hnull, Prog.wp_bind] at h ⊢
      rw [kin_outBlocked]
      refine Prog.wp_mono NucOp.spec_mono (fun _ t ht _ => ?_) h
      change (if IsDevSem (t.lists.semAdd p) then _ else _ : NucM n Unit).wp _ _ _ at ht ⊢
      rw [Prog.wp_ite] at ht ⊢
      by_cases hdev : IsDevSem (t.lists.semAdd p)
      · rw [if_pos hdev] at ht ⊢
        exact ht
      · rw [if_neg hdev] at ht ⊢
        exact ht

/-- Nor does the recursion. -/
theorem wp_nuke_kin {fuel : ℕ} (h : (nukeItTilItPukes fuel p).wp NucOp.spec Q s) :
    (nukeItTilItPukes fuel p).wp NucOp.kinSpec Q s := by
  induction fuel generalizing p s Q with
  | zero => exact h
  | succ fuel ih =>
    rw [nukeItTilItPukes, Prog.wp_bind] at h ⊢
    rw [kin_emptyChild]
    refine Prog.wp_mono NucOp.spec_mono (fun leaf t ht => ?_) h
    cases leaf with
    | true => exact wp_nukeLeaf_kin ht
    | false =>
      simp only [Bool.false_eq_true, if_false, Prog.wp_bind] at ht ⊢
      rw [kin_removeChild]
      refine Prog.wp_mono NucOp.spec_mono (fun child t ht => ?_) ht
      cases child with
      | none => exact ht
      | some child =>
        simp only [Prog.wp_bind] at ht ⊢
        exact Prog.wp_mono NucOp.kinSpec_mono (fun _ t ht => ih ht) (ih ht)

end

/-! ## What the end of the kill tells -/

omit [Layout] in
/-- A weaker condition that holds of one more member counts more of them. -/
theorem countP_lt_of_mem {xs : List (Fin n)} {P R : Fin n → Prop} [DecidablePred P]
    [DecidablePred R] {x : Fin n} (hle : ∀ y ∈ xs, P y → R y) (hx : x ∈ xs)
    (hR : R x) (hP : ¬ P x) :
    xs.countP P < xs.countP R := by
  obtain ⟨ys, zs, rfl⟩ := List.append_of_mem hx
  have hys : ys.countP P ≤ ys.countP R :=
    List.countP_mono_left fun y hy => by simpa using hle y (by simp [hy])
  have hzs : zs.countP P ≤ zs.countP R :=
    List.countP_mono_left fun y hy => by simpa using hle y (by simp [hy])
  simp only [List.countP_append, List.countP_cons, hP, hR, decide_true, decide_false]
  simp
  omega

/-- The kill leaves the globals of a kill of the presumed queues. -/
theorem run_nuke_presumed {c c' : Nucleus n} {p : Fin n} (hwf : c.WellFormed)
    (hcur : c.currentProcess = some p)
    (hrun : ((nukeItTilItPukes (nukeFuel n) p).run NucOp.sem).run c = some ((), c')) :
    ∃ gs : List (Fin n), gs.Nodup ∧ (∀ x, x ∈ gs ↔ x = p ∨ Descends c.store.pPrnt p x) ∧
      c'.toGlobals = ((c.abs.setLists c.store.lists.presumed).purge gs).toGlobals := by
  have hok : c.store.lists.presumed.Ok (some p) := hcur ▸ hwf.ok.presumed
  have hkin : c.Kin (c.abs.setLists c.store.lists.presumed) :=
    ⟨rfl, hwf.rep.store.tree, hwf.rep.store.semAdd⟩
  have hwp := wp_nuke_exact (s := c.abs.setLists c.store.lists.presumed)
    (Q := fun _ s' => ∃ gs : List (Fin n), gs.Nodup ∧
      (∀ x, x ∈ gs ↔ x = p ∨ Descends c.store.pPrnt p x) ∧
        s' = (c.abs.setLists c.store.lists.presumed).purge gs) hok hcur
    (fun q _ hq => (Lists.mem_presumed_ready.mp hq).2) fun gs hnd hgs => ⟨gs, hnd, hgs, rfl⟩
  obtain ⟨s', hkin', gs, hnd, hgs, rfl⟩ :=
    Prog.of_run (fun _ _ _ _ h hspec b c' => h.op hspec) hkin (wp_nuke_kin hwp) hrun
  exact ⟨gs, hnd, hgs, hkin'.globals⟩

/-- If the kill has compensated the semaphores of those that were blocked and of no others, then
none of the processes below was ready with a `p_semAdd`. -/
theorem killSafe_of_purge (hn : n ≤ maxProc) {c c' : Nucleus n} {p : Fin n} {fs : List (Fin n)}
    (hwf : c.WellFormed) (hcur : c.currentProcess = some p)
    (hrun : ((nukeItTilItPukes (nukeFuel n) p).run NucOp.sem).run c = some ((), c'))
    (hnd : fs.Nodup) (hfs : ∀ x, x ∈ fs ↔ x = p ∨ Descends c.store.pPrnt p x)
    (hmem : c'.mem = (c.abs.purge fs).mem)
    (hsoft : c'.softBlockCount = (c.abs.purge fs).softBlockCount) : c.abs.core.KillSafe p := by
  intro x hx hready
  by_contra hne
  obtain ⟨gs, hndgs, hgs, hglobals⟩ := run_nuke_presumed hwf hcur hrun
  have hperm : gs.Perm fs := (List.perm_ext_iff_of_nodup hndgs hnd).mpr fun y => by rw [hgs, hfs]
  have hxfs : x ∈ fs := (hfs x).mpr (.inr hx)
  obtain ⟨l, hl⟩ : ∃ l, l = c.store.lists := ⟨_, rfl⟩
  have hcounts : c.softBlockCount - (l.presumed.devWaiting gs : ℕ) =
      c.softBlockCount - (l.devWaiting fs : ℕ) :=
    hl ▸ (congrArg Globals.softBlockCount hglobals).symm.trans hsoft
  have hwords : ∀ a,
      (if IsDevSem a then c.mem a else c.mem a + BitVec.ofNat 32 (l.presumed.waiting gs a)) =
        if IsDevSem a then c.mem a else c.mem a + BitVec.ofNat 32 (l.waiting fs a) :=
    fun a => hl ▸ congrFun ((congrArg Globals.mem hglobals).symm.trans hmem) a
  have hok : l.Ok c.currentProcess := hl ▸ hwf.ok
  replace hready : x ∈ l.q .ready := hl ▸ hready
  replace hne : l.semAdd x ≠ null := hl ▸ hne
  have hpresumed : ∀ y a, y ∈ l.q (.blocked a) → y ∈ l.presumed.q (.blocked a) := fun y a hy =>
    Lists.mem_presumed_blocked.mpr ⟨hok.ne_null hy, .inl hy⟩
  have hxpresumed : x ∈ l.presumed.q (.blocked (l.semAdd x)) :=
    Lists.mem_presumed_blocked.mpr ⟨hne, .inr ⟨hready, rfl⟩⟩
  have hxblocked : x ∉ l.q (.blocked (l.semAdd x)) := fun hblocked => by
    have hplace := hok.placed.eq_of_mem hready hblocked
    cases hplace
  by_cases hdev : IsDevSem (l.semAdd x)
  · -- `softBlockCount` has gone down for `x`, too
    have hlt : l.devWaiting fs < l.presumed.devWaiting fs :=
      countP_lt_of_mem (fun y _ hy => ⟨hy.1, hpresumed y _ hy.2⟩) hxfs ⟨hdev, hxpresumed⟩
        fun hblocked => hxblocked hblocked.2
    have hcount : l.presumed.devWaiting gs = l.presumed.devWaiting fs := hperm.countP_eq _
    omega
  · -- the word has been raised for `x`, too
    have hlt : l.waiting fs (l.semAdd x) < l.presumed.waiting fs (l.semAdd x) :=
      countP_lt_of_mem (fun y _ hy => hpresumed y _ hy) hxfs hxpresumed hxblocked
    have hcount : l.presumed.waiting gs (l.semAdd x) = l.presumed.waiting fs (l.semAdd x) :=
      hperm.countP_eq _
    have hword := hwords (l.semAdd x)
    rw [if_neg hdev, if_neg hdev, hcount] at hword
    have hnat := congrArg BitVec.toNat ((BitVec.add_right_inj _).mp hword)
    have hle : l.presumed.waiting fs (l.semAdd x) ≤ n := by
      refine List.countP_le_length.trans ?_
      simpa using hnd.length_le_card
    rw [BitVec.toNat_ofNat, BitVec.toNat_ofNat, Nat.mod_eq_of_lt, Nat.mod_eq_of_lt] at hnat
    · omega
    · simp only [maxProc] at hn
      omega
    · simp only [maxProc] at hn
      omega

/-- The processes below `p` and itself are freed, with the compensation of the semaphores of those
that were blocked, and nothing else happens. -/
def Nucleus.Purges (c : Nucleus n) (p : Fin n) (c' : Nucleus n) : Prop :=
  ∃ fs : List (Fin n), fs.Nodup ∧ (∀ x, x ∈ fs ↔ x = p ∨ Descends c.store.pPrnt p x) ∧
    c'.Rep (c.abs.purge fs)

/-- The kill of the current process does this exactly when it is safe. -/
theorem purges_iff (hn : n ≤ maxProc) {c : Nucleus n} {p : Fin n} (hwf : c.WellFormed)
    (hcur : c.currentProcess = some p) :
    (∃ c', ((nukeItTilItPukes (nukeFuel n) p).run NucOp.sem).run c = some ((), c') ∧
      c.Purges p c') ↔ c.abs.core.KillSafe p := by
  constructor
  · rintro ⟨c', hrun, fs, hnd, hfs, hrep⟩
    exact killSafe_of_purge hn hwf hcur hrun hnd hfs (congrArg Globals.mem hrep.globals)
      (congrArg Globals.softBlockCount hrep.globals)
  · intro hsafe
    obtain ⟨⟨⟩, c', s', hrun, hrep, fs, hnd, hfs, rfl⟩ := nucleus_sound hn
      (Q := fun _ s' => ∃ fs : List (Fin n), fs.Nodup ∧
        (∀ x, x ∈ fs ↔ x = p ∨ Descends c.store.pPrnt p x) ∧ s' = c.abs.purge fs) hwf.rep
      (wp_nuke_exact (hcur ▸ hwf.ok) hcur hsafe fun fs hnd hfs => ⟨fs, hnd, hfs, rfl⟩)
    exact ⟨c', hrun, fs, hnd, hfs, hrep⟩

end Jaeos
