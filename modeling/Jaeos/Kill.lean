import Jaeos.Core

/-!
# The recursive kill

`Kills c₀ c` says what `nukeItTilItPukes` does to the core: processes come off
the tree, and those without children are freed one by one, a blocked one with
the compensation of its semaphore. `wp_nuke` is the contract of the recursion.
It asks for `KillSafe`, that no doomed process is ready with a `p_semAdd`: the
code would look for such a process in the ASL and free it inside the ready queue.
-/

namespace Jaeos

open Forest

variable {n : ℕ}

/-! ## What stays as it was -/

/-- A process without parent has none after a child is taken off the tree. -/
theorem Lists.parent_of_orphan {l : Lists n} {r p a b : Fin n}
    (hb : (l.orphan r p).parent b = some a) : l.parent b = some a := by
  by_cases hbp : b = p
  · simp [orphan, hbp] at hb
  · simpa [orphan, hbp] using hb

/-- What the kill below `p` leaves as it was. -/
structure Below (o : Fin n → ℕ) (p : Fin n) (l l' : Lists n) : Prop where
  /-- roots stay roots -/
  root : ∀ x, l.parent x = none → l'.parent x = none
  /-- the free list only grows -/
  mono : (l.q .free).length ≤ (l'.q .free).length
  /-- only processes with larger numbers are freed -/
  alive : ∀ x, o x ≤ o p → x ∉ l.q .free → x ∉ l'.q .free

theorem Below.refl (o : Fin n → ℕ) (p : Fin n) (l : Lists n) : Below o p l l :=
  ⟨fun _ h => h, le_refl _, fun _ _ h => h⟩

theorem Below.trans {o : Fin n → ℕ} {p q : Fin n} {l l' l'' : Lists n} (h : Below o q l l')
    (h' : Below o p l' l'') (hpq : o p ≤ o q) : Below o p l l'' :=
  ⟨fun x hx => h'.root x (h.root x hx), h.mono.trans h'.mono,
    fun x hx hl => h'.alive x hx (h.alive x (hx.trans hpq) hl)⟩

variable [Layout]

/-! ## What the kill does -/

/-- The steps of the recursive kill. -/
inductive Kills (c₀ : Core n) : Core n → Prop where
  /-- nothing yet -/
  | refl : Kills c₀ c₀
  /-- a child comes off the tree -/
  | orphan {c : Core n} {r p : Fin n} (h : Kills c₀ c) (hp : c.lists.parent p = some r) :
    Kills c₀ (c.orphan r p)
  /-- a ready process is freed -/
  | ready {c : Core n} {p : Fin n} (h : Kills c₀ c) (hp : p ∈ c.lists.q .ready)
    (hiso : c.lists.Isolated p) : Kills c₀ (c.reap .ready p)
  /-- a blocked process is freed -/
  | blocked {c : Core n} {p : Fin n} {a : ℕ} (h : Kills c₀ c) (hp : p ∈ c.lists.q (.blocked a))
    (hiso : c.lists.Isolated p) : Kills c₀ ((c.reap (.blocked a) p).compensate a)
  /-- the current process is freed -/
  | cur {c : Core n} {p : Fin n} (h : Kills c₀ c) (hcur : c.cur = some p)
    (hiso : c.lists.Isolated p) : Kills c₀ (c.reapCur p)

/-- The kill keeps the structural invariant. -/
theorem Kills.inv {c₀ c : Core n} (h : Kills c₀ c) (hinv : c₀.Inv) : c.Inv := by
  induction h with
  | refl => exact hinv
  | orphan _ hp ih => exact ih.orphan hp
  | ready _ hp hiso ih => exact ih.reap (by simp) hp hiso
  | blocked _ hp hiso ih => exact (ih.reap (by simp) hp hiso).compensate _
  | cur _ hcur hiso ih => exact ih.reapCur hcur hiso

/-- The kill keeps the count of the blocked. -/
theorem Kills.soft {c₀ c : Core n} (h : Kills c₀ c) (hsoft : c₀.Soft) : c.Soft := by
  induction h with
  | refl => exact hsoft
  | orphan _ _ ih => exact ih.congr rfl fun _ => rfl
  | ready _ _ _ ih => exact ih.congr rfl fun a => by simp [Core.reap]
  | blocked _ hp _ ih => exact ih.reapBlocked hp
  | cur _ _ _ ih => exact ih.congr rfl fun a => by simp [Core.reapCur]

/-! ## Who is spared -/

section

variable {c₀ c : Core n} {j : Place}

theorem Core.compensate_lists (c : Core n) (a : ℕ) : (c.compensate a).lists = c.lists := by
  rw [compensate]
  split <;> rfl

theorem Core.compensate_pS (c : Core n) (a : ℕ) : (c.compensate a).pS = c.pS := by
  rw [compensate]
  split <;> rfl

theorem Core.compensate_devStatus (c : Core n) (a : ℕ) :
    (c.compensate a).devStatus = c.devStatus := by
  rw [compensate]
  split <;> rfl

/-- The kill of a process blocked on another word. -/
theorem Core.compensate_mem_of_ne (c : Core n) {a b : ℕ} (h : b ≠ a) :
    (c.compensate a).mem b = c.mem b := by
  rw [compensate]
  split
  · rfl
  · exact Function.update_of_ne h ..

/-- The kill leaves the saved states and the device status as they were. -/
theorem Kills.saved (h : Kills c₀ c) : c.pS = c₀.pS ∧ c.devStatus = c₀.devStatus := by
  induction h with
  | refl => exact ⟨rfl, rfl⟩
  | orphan _ _ ih | ready _ _ _ ih | cur _ _ _ ih => exact ih
  | blocked _ _ _ ih => exact ⟨(Core.compensate_pS ..).trans ih.1,
      (Core.compensate_devStatus ..).trans ih.2⟩

/-- The kill leaves the semaphores of the array as they were. -/
theorem Kills.mem_semArr {i : ℕ} (hi : i < maxSema) (h : Kills c₀ c) :
    c.mem (semArr i) = c₀.mem (semArr i) := by
  induction h with
  | refl => rfl
  | orphan _ _ ih | ready _ _ _ ih | cur _ _ _ ih => exact ih
  | @blocked c p a _ _ _ ih =>
    by_cases ha : semArr i = a
    · subst ha
      rw [Core.compensate, if_pos (isDevSem_semArr hi)]
      exact ih
    · exact ((c.reap (.blocked a) p).compensate_mem_of_ne ha).trans ih

omit [Layout] in
/-- What is left of a queue when a process is freed. -/
theorem Core.reap_q (c : Core n) {i j : Place} (p : Fin n) (hj : j ≠ .free) :
    (c.reap i p).lists.q j = if j = i then (c.lists.q j).erase p else c.lists.q j := by
  by_cases hji : j = i
  · subst hji
    simp [reap, hj]
  · simp [reap, hj, hji]

/-- The kill takes processes out of a queue. -/
theorem Kills.sublist (hj : j ≠ .free) (h : Kills c₀ c) :
    (c.lists.q j).Sublist (c₀.lists.q j) := by
  have hreap : ∀ (c : Core n) (i : Place) (p : Fin n),
      ((c.reap i p).lists.q j).Sublist (c.lists.q j) := fun c i p => by
    rw [c.reap_q p hj]
    split
    · exact List.erase_sublist
    · exact List.Sublist.refl _
  induction h with
  | refl => exact List.Sublist.refl _
  | orphan _ _ ih => exact ih
  | ready _ _ _ ih => exact (hreap ..).trans ih
  | blocked _ _ _ ih =>
    rw [Core.compensate_lists]
    exact (hreap ..).trans ih
  | cur _ _ _ ih => simpa [Core.reapCur, hj] using ih

/-- A process that is not freed stays in its queue. -/
theorem Kills.mem_of_alive {x : Fin n} (hj : j ≠ .free) (hx : x ∈ c₀.lists.q j) (h : Kills c₀ c)
    (halive : x ∉ c.lists.q .free) : x ∈ c.lists.q j := by
  have hreap : ∀ (c : Core n) (i : Place) (p : Fin n), i ≠ .free →
      x ∉ (c.reap i p).lists.q .free → (x ∉ c.lists.q .free → x ∈ c.lists.q j) →
      x ∈ (c.reap i p).lists.q j := fun c i p hi hfree ih => by
    have hsplit : x ∉ c.lists.q .free ∧ x ≠ p := by simpa [Core.reap, hi.symm] using hfree
    rw [c.reap_q p hj]
    split
    · exact (List.mem_erase_of_ne hsplit.2).mpr (ih hsplit.1)
    · exact ih hsplit.1
  induction h with
  | refl => exact hx
  | orphan _ _ ih => exact ih halive
  | ready _ _ _ ih => exact hreap _ _ _ (by simp) halive ih
  | blocked _ _ _ ih =>
    rw [Core.compensate_lists] at halive ⊢
    exact hreap _ _ _ (by simp) halive ih
  | @cur c p _ _ _ ih =>
    have hfree : x ∉ c.lists.q .free ∧ x ≠ p := by simpa [Core.reapCur] using halive
    simpa [Core.reapCur, hj] using ih hfree.1

/-- A queue nobody of which is freed stays as it was. -/
theorem Kills.q_eq (hj : j ≠ .free) (hinv : c₀.Inv) (h : Kills c₀ c)
    (halive : ∀ x ∈ c₀.lists.q j, x ∉ c.lists.q .free) : c.lists.q j = c₀.lists.q j := by
  have hsub : c₀.lists.q j ⊆ c.lists.q j := fun x hx => h.mem_of_alive hj hx (halive x hx)
  have hnd := hinv.ok.placed.nodup j
  exact (h.sublist hj).eq_of_length_le (hnd.subperm hsub).length_le

end

/-! ## The doomed processes -/

/-- A process descends from another one. -/
def Descends (parent : Fin n → Option (Fin n)) : Fin n → Fin n → Prop :=
  Relation.TransGen fun a b => parent b = some a

/-- No ready descendant of `root` has a `p_semAdd`. -/
def Core.KillSafe (c : Core n) (root : Fin n) : Prop :=
  ∀ q, Descends c.lists.parent root q → q ∈ c.lists.q .ready → c.lists.semAdd q = null

/-- What holds all through the kill of `root`, with the processes of `V` doomed and numbered
by `o`. -/
structure Doomed (V : Fin n → Prop) (o : Fin n → ℕ) (root : Fin n) (c₀ c : Core n) : Prop where
  /-- what has been done -/
  kills : Kills c₀ c
  /-- the structural invariant -/
  inv : c.Inv
  /-- the root runs until it is killed -/
  cur : c.cur = some root
  /-- the children of the doomed are doomed -/
  closed : ∀ a b, V a → c.lists.parent b = some a → V b
  /-- no doomed process is ready with a `p_semAdd` -/
  safe : ∀ q, V q → q ∈ c.lists.q .ready → c.lists.semAdd q = null
  /-- the numbers grow from parent to child -/
  order : ∀ a b, c.lists.parent b = some a → o a < o b

section

variable {V : Fin n → Prop} {o : Fin n → ℕ} {root p r : Fin n} {c₀ : Core n} {s : Abs n}

namespace Doomed

/-- A doomed child comes off the tree. -/
theorem orphan {c : Core n} (h : Doomed V o root c₀ c) (hp : c.lists.parent p = some r) :
    Doomed V o root c₀ (c.orphan r p) where
  kills := h.kills.orphan hp
  inv := h.inv.orphan hp
  cur := h.cur
  closed a b ha hb := h.closed a b ha (Lists.parent_of_orphan hb)
  safe := h.safe
  order a b hb := h.order a b (Lists.parent_of_orphan hb)

/-- A doomed process that waits in a queue is freed. -/
theorem reap {c c' : Core n} (h : Doomed V o root c₀ c) (hkills : Kills c₀ c') (hinv : c'.Inv)
    (hcur : c'.cur = c.cur) (hparent : c'.lists.parent = c.lists.parent)
    (hsem : c'.lists.semAdd = c.lists.semAdd)
    (hready : ∀ q ∈ c'.lists.q .ready, q ∈ c.lists.q .ready) : Doomed V o root c₀ c' where
  kills := hkills
  inv := hinv
  cur := hcur.trans h.cur
  closed a b ha hb := h.closed a b ha (hparent ▸ hb)
  safe q hq hr := hsem ▸ h.safe q hq (hready q hr)
  order a b hb := h.order a b (hparent ▸ hb)

end Doomed

/-- The end of the kill of a process that is not the root. -/
theorem wp_nukeLeaf_child {Q : Unit → Abs n → Prop} (h : Doomed V o root c₀ s.core) (hp : V p)
    (hne : p ≠ root) (halive : p ∉ s.lists.q .free) (hiso : s.lists.Isolated p)
    (hQ : ∀ s' : Abs n, Doomed V o root c₀ s'.core → s'.lists.parent = s.lists.parent →
      s'.lists.q .free = s.lists.q .free ++ [p] → Q () s') :
    (nukeLeaf p).wp NucOp.spec Q s := by
  have hcur : s.currentProcess = some root := h.cur
  have hcurp : ¬ s.currentProcess = some p := by
    rw [hcur]
    exact fun e => hne (Option.some.inj e).symm
  have hok : s.lists.Ok (some root) := hcur ▸ h.inv.ok
  simp only [nukeLeaf, nukeDetach, Prog.wp_bind, Prog.wp_ite, wp_globals, wp_semAdd, if_neg hcurp]
  obtain hr | ⟨i, hi⟩ := hok.placed.cover p
  · exact absurd (by simpa using hr) hne
  have hloose : (s.lists.setQ i ((s.lists.q i).erase p)).Loose p :=
    (hok.placed.take hi).loose p (by simp)
  cases i with
  | free => exact absurd hi halive
  | ready =>
    have hnull : s.lists.semAdd p = null := h.safe p hp hi
    rw [if_pos hnull, wp_outReady]
    refine ⟨fun hnot => absurd hi hnot, fun _ => ⟨hloose, hiso, ?_⟩⟩
    refine hQ _ (h.reap (h.kills.ready hi hiso) (h.inv.reap (by simp) hi hiso) rfl rfl rfl ?_)
      rfl ?_
    · intro q hq
      have hq' : q ∈ (s.lists.q .ready).erase p := by simpa [Core.reap, Abs.core] using hq
      exact List.mem_of_mem_erase hq'
    · simp
  | blocked a =>
    obtain rfl : s.lists.semAdd p = a := hok.blocked a p hi
    rw [if_neg (hok.ne_null hi), wp_outBlocked]
    refine ⟨fun hnot => absurd hi hnot, fun _ => ?_⟩
    have hkills := h.kills.blocked hi hiso
    have hinv := (h.inv.reap (by simp) hi hiso).compensate (s.lists.semAdd p)
    simp only [Prog.wp_bind, Prog.wp_ite, wp_semAdd]
    split
    case isTrue hdev =>
      have hdev : IsDevSem (s.lists.semAdd p) := hdev
      rw [Core.compensate, if_pos hdev] at hkills hinv
      refine ⟨hloose, hiso, hQ _ (h.reap hkills hinv rfl rfl rfl ?_) rfl ?_⟩
      · intro q hq
        simpa [Core.reap, Core.soften, Abs.core] using hq
      · simp
    case isFalse hdev =>
      have hdev : ¬ IsDevSem (s.lists.semAdd p) := hdev
      rw [Core.compensate, if_neg hdev] at hkills hinv
      refine ⟨hloose, hiso, hQ _ (h.reap hkills hinv rfl rfl rfl ?_) rfl ?_⟩
      · intro q hq
        simpa [Core.reap, Core.setMem, Abs.core] using hq
      · simp

/-- The kill of a process comes to the end of its own call, when everything below is gone.
The depth is bounded by the number of processes alive and, among calls that see the same
number, by the number of the process. -/
theorem wp_nuke_below (hmin : ∀ q, V q → o root ≤ o q) (hbound : ∀ q, o q < n) {fuel : ℕ}
    {Q : Unit → Abs n → Prop} (h : Doomed V o root c₀ s.core) (hp : V p)
    (halive : p ∉ s.lists.q .free)
    (hfuel : (n - (s.lists.q .free).length) * (n + 1) + (n - o p) + 1 ≤ fuel)
    (hQ : ∀ s' : Abs n, Doomed V o root c₀ s'.core → s'.lists.kids p = [] →
      Below o p s.lists s'.lists → (nukeLeaf p).wp NucOp.spec Q s') :
    (nukeItTilItPukes fuel p).wp NucOp.spec Q s := by
  induction fuel generalizing p s Q with
  | zero => omega
  | succ fuel ih =>
    rw [nukeItTilItPukes]
    simp only [Prog.wp_bind, Prog.wp_ite, wp_emptyChild, List.isEmpty_iff]
    split
    case isTrue hk => exact hQ s h hk (Below.refl o p s.lists)
    case isFalse hk =>
      rw [wp_removeChild]
      refine ⟨fun hnil => absurd hnil hk, fun child ps hcons => ?_⟩
      have hok : s.lists.Ok s.currentProcess := h.inv.ok
      have hparent : s.lists.parent child = some p := (hok.forest.mem p child).mp (by simp [hcons])
      have hlt : o p < o child := h.order p child hparent
      have hchild : V child := h.closed p child hp hparent
      have hchildAlive : child ∉ s.lists.q .free := fun hfree => by
        rw [(hok.free child hfree).1] at hparent
        cases hparent
      have hne : child ≠ root := by
        rintro rfl
        have := hmin p hp
        omega
      change (nukeItTilItPukes fuel child >>= fun _ => nukeItTilItPukes fuel p).wp _ _ _
      rw [Prog.wp_bind]
      -- the processes below the child go first
      refine ih (s := s.setLists (s.lists.orphan p child)) (h.orphan hparent) hchild hchildAlive
        ?_ fun s' h' hk' hbelow => ?_
      · have := hbound child
        simp only [Abs.setLists_lists, Lists.orphan_q]
        omega
      have hroot : s'.lists.parent child = none :=
        hbelow.root child (by simp [Lists.orphan])
      have hfree : ∀ x, o x ≤ o p → x ∉ s.lists.q .free → x ∉ s'.lists.q .free := fun x hx hxf =>
        hbelow.alive x (by omega) hxf
      have hlen := hbelow.mono
      simp only [Abs.setLists_lists, Lists.orphan_q] at hlen
      -- then the child, and then the rest of the loop
      refine wp_nukeLeaf_child h' hchild hne (hbelow.alive child le_rfl hchildAlive) ⟨hroot, hk'⟩
        fun s'' h'' hparent'' hfree'' => ?_
      have hstep : Below o p s.lists s''.lists := by
        refine ⟨fun x hx => ?_, by rw [hfree'', List.length_append]; omega, fun x hx hxf => ?_⟩
        · rw [hparent'']
          refine hbelow.root x ?_
          by_cases hxc : x = child
          · simp [Lists.orphan, hxc]
          · simpa [Lists.orphan, hxc] using hx
        · rw [hfree'']
          have hxc : x ≠ child := by
            rintro rfl
            omega
          simpa [hxc] using hfree x hx hxf
      refine ih h'' hp (hstep.alive p le_rfl halive) ?_ fun t ht hkt hbelowt =>
        hQ t ht hkt (hstep.trans hbelowt le_rfl)
      have hcard : (s.lists.q .free).length < n := by
        have hle := (List.nodup_cons.mpr ⟨halive, hok.placed.nodup .free⟩).length_le_card
        simp only [List.length_cons, Fintype.card_fin] at hle
        omega
      have hmul := Nat.mul_le_mul_right (n + 1)
        (show n - (s''.lists.q .free).length + 1 ≤ n - (s.lists.q .free).length by
          rw [hfree'', List.length_append, List.length_singleton]
          omega)
      rw [Nat.succ_mul] at hmul
      omega

/-- The end of the kill of the current process. -/
theorem wp_nukeLeaf_cur {Q : Unit → Abs n → Prop} (h : Doomed V o root c₀ s.core)
    (hk : s.lists.kids root = []) (hQ : ∀ s' : Abs n, Kills c₀ s'.core.leave → Q () s') :
    (nukeLeaf root).wp NucOp.spec Q s := by
  have hcur : s.currentProcess = some root := h.cur
  have hok : s.lists.Ok (some root) := hcur ▸ h.inv.ok
  simp only [nukeLeaf, nukeDetach, Prog.wp_bind, wp_globals, if_pos hcur]
  rw [wp_outChild]
  refine ⟨fun hnone => ?_, fun r hr => ?_⟩
  · exact ⟨hok.cur_loose, ⟨hnone, hk⟩, hQ _ (h.kills.cur hcur ⟨hnone, hk⟩)⟩
  · have hiso : (s.lists.orphan r root).Isolated root := by
      refine ⟨Function.update_self .., ?_⟩
      have hrr : root ≠ r := by
        rintro rfl
        have := (hok.forest.mem root root).mpr hr
        rw [hk] at this
        cases this
      change Function.update s.lists.kids r _ root = []
      rw [Function.update_of_ne hrr, hk]
    exact ⟨hok.cur_loose, hiso, hQ _ ((h.kills.orphan hr).cur hcur hiso)⟩

end

/-- The contract of the recursive kill of the current process: everything below it and then
itself is freed. -/
theorem wp_nuke {s : Abs n} {p : Fin n} {Q : Unit → Abs n → Prop} (hinv : s.core.Inv)
    (hcur : s.currentProcess = some p) (hsafe : s.core.KillSafe p)
    (hQ : ∀ s' : Abs n, Kills s.core s'.core.leave → Q () s') :
    (nukeItTilItPukes (nukeFuel n) p).wp NucOp.spec Q s := by
  have hok : s.lists.Ok (some p) := hcur ▸ hinv.ok
  obtain ⟨o, horder, hbound⟩ := hok.acyclic.rank
  simp only [Fintype.card_fin] at hbound
  -- the doomed are the current process and what descends from it
  obtain ⟨V, hV⟩ : ∃ V : Fin n → Prop, ∀ q, V q ↔ q = p ∨ Descends s.lists.parent p q :=
    ⟨_, fun _ => Iff.rfl⟩
  have hdesc : ∀ q, Descends s.lists.parent p q → o p < o q := fun q hq => by
    induction hq with
    | single h => exact horder _ _ h
    | tail _ h ih => exact ih.trans (horder _ _ h)
  have hdoomed : Doomed V o p s.core s.core := by
    refine ⟨.refl, hinv, hcur, fun a b ha hb => (hV b).mpr (.inr ?_), fun q hq hr => ?_, horder⟩
    · rcases (hV a).mp ha with rfl | ha
      · exact .single hb
      · exact ha.tail hb
    · rcases (hV q).mp hq with rfl | hq
      · exact absurd hr (hok.cur_loose .ready)
      · exact hsafe q hq hr
  refine wp_nuke_below (V := V) (fun q hq => ?_) hbound hdoomed
    ((hV p).mpr (.inl rfl)) (hok.cur_loose .free) ?_ fun s' h' hk' _ => wp_nukeLeaf_cur h' hk' hQ
  · rcases (hV q).mp hq with rfl | hq
    · exact le_rfl
    · exact (hdesc q hq).le
  · have h₁ := Nat.mul_le_mul_right (n + 1) (Nat.sub_le n (s.lists.q .free).length)
    rw [nukeFuel, Nat.succ_mul]
    omega

end Jaeos
