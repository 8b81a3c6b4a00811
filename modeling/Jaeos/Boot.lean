import Jaeos.Effects
import Mathlib.Algebra.BigOperators.Group.Finset.Basic

/-!
# Booting

`initStore` makes a store with all PCBs free, whatever the tables held before
(but `p_semAdd`, which nothing initialises). `wp_prepare` says what `main` has set up
when it calls the scheduler.
-/

namespace Jaeos

open LinkedRing Forest

variable {n : ℕ}

/-! ## The tables -/

/-- All PCBs are free. -/
def Lists.booted (semAdd : Fin n → ℕ) : Lists n where
  q
    | .free => List.finRange n
    | _ => []
  parent _ := none
  kids _ := []
  semAdd := semAdd

/-- The free list holds `fs`, and these are out of the tree. -/
structure Freed (st : Store n) (fs : List (Fin n)) : Prop where
  /-- the free list -/
  queue : IsQueue st st.pcbListH fs
  /-- no parent -/
  prnt : ∀ p ∈ fs, st.pPrnt p = none
  /-- no child -/
  child : ∀ p ∈ fs, st.pChild p = none
  /-- no siblings -/
  sib : ∀ p ∈ fs, st.pPrevSib p = none ∧ st.pNextSib p = none

/-- Freeing a PCB that holds anything. -/
theorem Freed.freePcb_run {st : Store n} {fs : List (Fin n)} {p : Fin n} (h : Freed st fs)
    (hp : p ∉ fs) : ∃ st', (freePcb p).run st = some ((), st') ∧ Freed st' (fs ++ [p]) ∧
      st'.pSemAdd = st.pSemAdd := by
  have hne : ∀ x ∈ fs, x ≠ p := fun x hx e => hp (e ▸ hx)
  obtain ⟨k, hrun, hring, -⟩ := freePcb_queue h.queue hp
  refine ⟨_, hrun, ⟨⟨hring, by simp⟩, ?_, ?_, ?_⟩, rfl⟩
  all_goals
    intro x hx
    rcases List.mem_append.mp hx with hx | hx
    · simp [Store.withLinks, Store.clean, hne x hx, h.prnt x, h.child x, h.sib x, hx]
    · obtain rfl := List.mem_singleton.mp hx
      simp [Store.withLinks, Store.clean]

/-- Freeing one PCB after the other. -/
theorem Freed.forM_run (l : List (Fin n)) : ∀ {st : Store n} {fs : List (Fin n)}, Freed st fs →
    (fs ++ l).Nodup → ∃ st', (l.forM freePcb).run st = some ((), st') ∧ Freed st' (fs ++ l) ∧
      st'.pSemAdd = st.pSemAdd := by
  induction l with
  | nil => intro st fs h _; exact ⟨st, rfl, by simpa using h, rfl⟩
  | cons p l ih =>
    intro st fs h hnd
    have hp : p ∉ fs := fun hm => (List.nodup_append.mp hnd).2.2 p hm p (by simp) rfl
    obtain ⟨st₁, hrun, h₁, hsem⟩ := h.freePcb_run hp
    obtain ⟨st', hrest, h', hsem'⟩ := ih h₁ (by simpa using hnd)
    refine ⟨st', ?_, by simpa using h', hsem'.trans hsem⟩
    change (freePcb p >>= fun _ => l.forM freePcb).run st = _
    rw [StateT.run_bind, hrun]
    exact hrest

/-- `initPcbs` frees all PCBs. -/
theorem initPcbs_run (st : Store n) : ∃ st', initPcbs.run st = some ((), st') ∧
    Freed st' (List.finRange n) ∧ st'.pSemAdd = st.pSemAdd := by
  have hempty : Freed { st with pcbListH := none } ([] : List (Fin n)) :=
    ⟨⟨IsRing.nil, rfl⟩, by simp, by simp, by simp⟩
  obtain ⟨st', hpcbs, h, hsem⟩ := hempty.forM_run (List.finRange n)
    (by simpa using List.nodup_finRange n)
  rw [List.forM_eq_forM] at hpcbs
  exact ⟨st', by simp [initPcbs, hpcbs, mkEmptyProcQ], by simpa using h, hsem⟩

/-- `initPcbs`, `initASL` and an empty ready queue make a store with all PCBs free. -/
theorem initStore_run (st : Store n) :
    ∃ st', initStore.run st = some ((), st') ∧
      Rep st' st'.toPcbData (Lists.booted st.pSemAdd) := by
  obtain ⟨st₁, hpcbs, h₁, hsem⟩ := initPcbs_run st
  obtain ⟨asl, hasl, hrep⟩ := initASL_run st₁
  refine ⟨{ st₁.withAsl asl with readyQueue := none }, ?_, rfl, hsem, ?_, ?_, h₁.queue.tail, rfl,
    hrep, ?_⟩
  · simp [initStore, hpcbs, hasl, mkEmptyProcQ]
  · rintro (_ | _ | _)
    · exact h₁.queue.ring
    · exact IsRing.nil
    · exact IsRing.nil
  · rintro (_ | _ | _) (_ | _ | _) p hp hq <;> first | rfl | cases hp | cases hq
  · refine ⟨⟨?_, ?_⟩, ?_, ?_, ?_, ?_⟩
    · simp [Lists.booted]
    · simp [Lists.booted]
    · funext p
      exact h₁.prnt p (by simp)
    · intro p
      exact h₁.child p (by simp)
    · intro p
      exact IsLine.nil
    · intro p _
      exact h₁.sib p (by simp)

/-- With all PCBs free, every PCB is in one place. -/
theorem Lists.booted_ok (semAdd : Fin n → ℕ) : (Lists.booted semAdd).Ok none where
  placed := by
    refine ⟨?_, ?_, List.nodup_nil, by simp, fun p => .inr ⟨.free, List.mem_finRange p⟩⟩
    · rintro (_ | _ | _)
      · exact List.nodup_finRange n
      · exact List.nodup_nil
      · exact List.nodup_nil
    · rintro (_ | _ | _) (_ | _ | _) p hp hq <;> first | rfl | cases hp | cases hq
  forest := ⟨by simp [Lists.booted], by simp [Lists.booted]⟩
  acyclic := ⟨fun _ => 0, by simp [Lists.booted]⟩
  free p _ := ⟨rfl, rfl⟩
  blocked a p hp := by cases hp
  null := rfl

/-! ## The first process -/

variable [Layout]

/-- What the loop over `semaphoreArray` has done to one word. -/
theorem foldl_clear (is : List ℕ) (mem : ℕ → Word) (a : ℕ) :
    is.foldl (fun m i => Function.update m (semArr i) 0) mem a =
      if ∃ i ∈ is, a = semArr i then 0 else mem a := by
  induction is generalizing mem with
  | nil => simp
  | cons i is ih =>
    rw [List.foldl_cons, ih]
    by_cases hai : a = semArr i
    · simp [hai]
    · simp [hai]

theorem clearSems_semArr (mem : ℕ → Word) {i : ℕ} (hi : i < maxSema) :
    clearSems mem (semArr i) = 0 := by
  rw [clearSems, foldl_clear, if_pos ⟨i, List.mem_range.mpr hi, rfl⟩]

theorem clearSems_of_ne (mem : ℕ → Word) {a : ℕ} (ha : ∀ i < maxSema, a ≠ semArr i) :
    clearSems mem a = mem a := by
  rw [clearSems, foldl_clear, if_neg]
  rintro ⟨i, hi, rfl⟩
  exact ha i (List.mem_range.mp hi) rfl

/-- What `main` has set up when it calls the scheduler. -/
structure Core.Booted (mem : ℕ → Word) (c : Core n) : Prop where
  /-- the structural invariant -/
  inv : c.Inv
  /-- the invariant of `softBlockCount` -/
  soft : c.Soft
  /-- nobody runs -/
  cur : c.cur = none
  /-- one process is ready -/
  ready : ∃ p, c.lists.q .ready = [p]
  /-- nobody is blocked -/
  blocked : ∀ a, c.lists.q (.blocked a) = []
  /-- no PCB has the address of a semaphore -/
  semAdd : ∀ p, c.lists.semAdd p = null
  /-- the semaphores of `semaphoreArray` are zero -/
  sems : ∀ i < maxSema, c.mem (semArr i) = 0
  /-- the rest of memory is as it was -/
  mem : ∀ a, (∀ i < maxSema, a ≠ semArr i) → c.mem a = mem a
  /-- no device status is kept -/
  devStatus : ∀ i < maxSema, c.devStatus i = 0

/-- The core `main` has set up, with the first process `p`. -/
def Boot.core (b : Boot n) (p : Fin n) (ps : List (Fin n)) (pS : Fin n → State) : Core n where
  mem := clearSems b.vars.mem
  devStatus i := if i < maxSema then 0 else b.vars.devStatus i
  processCount := 0 + 1
  softBlockCount := 0
  cur := none
  pS := pS
  lists := ((Lists.booted b.tables.pSemAdd).setQ .free ps).append .ready p

theorem Boot.booted (b : Boot n) {p : Fin n} {ps : List (Fin n)} (pS : Fin n → State)
    (hcons : List.finRange n = p :: ps) : (b.core p ps pS).Booted b.vars.mem := by
  have hok := Lists.booted_ok b.tables.pSemAdd
  have hcons : (Lists.booted b.tables.pSemAdd).q .free = p :: ps := hcons
  have hblocked : ∀ a, (b.core p ps pS).lists.q (.blocked a) = [] := fun a => by
    simp [Boot.core, Lists.booted]
  have hfree : (b.core p ps pS).lists.q .free = ps := by simp [Boot.core]
  refine ⟨⟨?_, ?_⟩, ⟨?_, ?_⟩, rfl, ⟨p, ?_⟩, hblocked, b.static, ?_, ?_, ?_⟩
  · refine hok.move ((hok.placed.pop hcons).put .ready) rfl rfl (fun _ _ => ⟨rfl, rfl⟩) ?_
    intro a x hx
    rw [hblocked] at hx
    cases hx
  · have hlen : n = ps.length + 1 := by simpa [Lists.booted] using congrArg List.length hcons
    rw [hfree]
    change (0 + 1 : ℤ) + ps.length = n
    omega
  · rw [Lists.devBlocked]
    simp only [hblocked, List.length_nil]
    simp [Boot.core]
  · intro a ha
    exact absurd (hblocked a) ha
  · simp [Boot.core, Lists.booted]
  · intro i hi
    exact clearSems_semArr _ hi
  · intro a ha
    exact clearSems_of_ne _ ha
  · intro i hi
    exact if_pos hi

/-- The contract of `main` up to the call of the scheduler. -/
theorem wp_prepare (b : Boot n) {s : Abs n} (hvars : s.toGlobals = b.vars)
    (hlists : s.lists = Lists.booted b.tables.pSemAdd) :
    b.prepare.wp NucOp.spec (fun exit s' => n = 0 ∧ exit = .undefined ∨
      exit = .getNewJob ∧ s'.core.Booted b.vars.mem) s := by
  have hok := Lists.booted_ok b.tables.pSemAdd
  rw [← hlists] at hok
  simp only [Boot.prepare, Prog.wp_bind, wp_modifyGlobals, wp_modifyClock, Abs.setGlobals_globals]
  rw [wp_allocPcb]
  refine ⟨fun (hnil : s.lists.q .free = []) => ?_,
    fun p ps (hcons : s.lists.q .free = p :: ps) => ?_⟩
  · rw [hlists] at hnil
    exact .inl ⟨by simpa [Lists.booted] using hnil, rfl⟩
  · have hloose : (s.lists.setQ .free ps).Loose p := (hok.placed.pop hcons).loose p (by simp)
    refine ⟨hok.free p (by simp [hcons]), ?_⟩
    simp only [Prog.wp_bind, wp_modifyGlobals, wp_modifyClock, wp_setState, wp_globals, wp_setTIMER,
      wp_insertReady, Prog.wp_pure, Abs.setGlobals_globals, Abs.setLists_globals,
      Abs.setData_globals]
    refine ⟨hloose, .inr ⟨trivial, ?_⟩⟩
    rw [hlists] at hcons
    generalize hs₁ : Abs.setLists _ _ = s₁
    have hcore : s₁.core = b.core p ps s₁.data.pS := by
      rw [← hs₁, Boot.core, ← hvars, ← hlists]
      rfl
    exact hcore ▸ b.booted _ hcons

/-- The contract of `main`: it ends with the first process running. -/
theorem wp_main (b : Boot n) {s : Abs n} (hvars : s.toGlobals = b.vars)
    (hlists : s.lists = Lists.booted b.tables.pSemAdd) :
    b.main.wp NucOp.spec (fun mode s' => n = 0 ∧ mode = .undefined ∨
      mode = .running ∧ ∃ (c : Core n) (p : Fin n), c.Booted b.vars.mem ∧
        c.lists.q .ready = [p] ∧ s'.core = c.dispatch p []) s := by
  rw [Boot.main, Prog.wp_bind]
  refine Prog.wp_mono NucOp.spec_mono (fun exit s₁ h => ?_) (wp_prepare b hvars hlists)
  refine Prog.wp_mono NucOp.spec_mono (fun mode s' hfinish => ?_) (wp_finish exit)
  rcases h with ⟨hn, rfl⟩ | ⟨rfl, hbooted⟩
  · exact .inl ⟨hn, hfinish⟩
  · obtain ⟨-, v, rfl, hsched⟩ := hfinish
    obtain ⟨p, hp⟩ := hbooted.ready
    have hleave : Exit.leave .getNewJob s₁.core = s₁.core := by
      simp only [Exit.leave, if_pos, Core.leave, ← hbooted.cur]
    rw [hleave] at hsched
    generalize s'.core = c' at hsched ⊢
    cases hsched with
    | dispatch hq =>
      rw [hp] at hq
      obtain ⟨rfl, rfl⟩ := List.cons.inj hq
      exact .inr ⟨rfl, _, p, hbooted, hp, rfl⟩
    | halt hq => rw [hp] at hq; cases hq
    | panic hq => rw [hp] at hq; cases hq
    | wait hq => rw [hp] at hq; cases hq
    | returns hq => rw [hp] at hq; cases hq

end Jaeos
