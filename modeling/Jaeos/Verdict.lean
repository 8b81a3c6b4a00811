import Jaeos.Reach
import Mathlib.Algebra.Order.BigOperators.Group.Finset

/-!
# The verdict of the scheduler

In a legal run whose kills are safe the counters are right, and so `getNewJob`
dispatches, halts, panics or waits exactly when it should. A kill that meets a
ready process with a `p_semAdd` breaks this: the process is freed while it is in
the ready queue, and `getNewJob` dispatches when nobody is alive.
-/

namespace Jaeos

open Forest

variable {n : ℕ}

/-- The allocated PCBs. -/
def Store.alive (st : Store n) : List (Fin n) := (List.finRange n).filter (· ∉ st.freeList)

section

variable [Layout]

/-- The two counters are right. -/
structure Nucleus.Counted (c : Nucleus n) : Prop where
  /-- `processCount` is the number of allocated PCBs -/
  processCount : c.processCount = c.store.alive.length
  /-- `softBlockCount` is the number of processes blocked on a device or the clock -/
  softBlockCount : c.softBlockCount =
    ∑ i ∈ Finset.range maxSema, ((c.store.blockedOn (semArr i)).length : ℤ)

/-- A call of `getNewJob` in the state `c` ends with `v` in the state `c'`, as it should. -/
structure Scheduled (c : Nucleus n) (v : Verdict) (c' : Nucleus n) : Prop where
  /-- it does not return to its caller -/
  verdict : v ≠ .returns
  /-- it dispatches when somebody is ready -/
  ldst : v = .ldst ↔ c.store.readyList ≠ []
  /-- it dispatches the head of the ready queue -/
  head : ∀ p ps, c.store.readyList = p :: ps → c'.currentProcess = some p ∧ c'.store.readyList = ps
  /-- it halts when nobody is alive -/
  halt : v = .halt ↔ c.store.alive = []
  /-- it panics when nobody is ready, somebody is alive and nobody waits for a device or the
  clock -/
  panic : v = .panic ↔ c.store.readyList = [] ∧ c.store.alive ≠ [] ∧
    ∀ i < maxSema, c.store.blockedOn (semArr i) = []
  /-- it waits when nobody is ready and somebody waits for a device or the clock -/
  wait : v = .wait ↔ c.store.readyList = [] ∧ ∃ i < maxSema, c.store.blockedOn (semArr i) ≠ []

/-- A call of `getNewJob` in this state does what it should. -/
def Nucleus.SchedulesWell (c : Nucleus n) : Prop :=
  ∃ v c', (Jaeos.getNewJob.run NucOp.sem).run c = some (v, c') ∧ Scheduled c v c'

/-- The counters are right, and each call of `getNewJob` that an event leads to does what it
should. -/
def Config.VerdictLaw (c : Config n) (e : Event) : Prop :=
  c.nuc.Counted ∧ ∀ t todIn todOut nuc, e = .trap t todIn todOut → t.Enabled c.mode →
    ((t.handle todIn todOut).run NucOp.sem).run c.nuc = some (.getNewJob, nuc) →
      nuc.Counted ∧ nuc.SchedulesWell

/-! ## What the counters say -/

omit [Layout] in
theorem Store.alive_length {st : Store n} (h : st.freeList.Nodup) :
    st.alive.length + st.freeList.length = n := by
  have hperm : ((List.finRange n).filter (· ∈ st.freeList)).Perm st.freeList := by
    refine (List.perm_ext_iff_of_nodup ((List.nodup_finRange n).filter _) h).mpr fun p => ?_
    simp
  have hsplit := List.length_eq_length_filter_add (l := List.finRange n) (· ∈ st.freeList)
  rw [hperm.length_eq, List.length_finRange] at hsplit
  simp only [Store.alive, decide_not]
  omega

theorem Lists.devBlocked_pos_iff {l : Lists n} :
    0 < l.devBlocked ↔ ∃ i < maxSema, l.q (.blocked (semArr i)) ≠ [] := by
  rw [devBlocked, Finset.sum_pos_iff_of_nonneg fun i _ => Int.natCast_nonneg _]
  simp only [Finset.mem_range, Int.natCast_pos, List.length_pos_iff]

theorem Nucleus.counted {c : Nucleus n} {k : Core n} (hinv : k.Inv) (hsoft : k.Soft)
    (hk : k.leave = c.abs.core.leave) : c.Counted := by
  have hlists : k.lists = c.store.lists := congrArg Core.lists hk
  have hcount : k.processCount = c.processCount := congrArg Core.processCount hk
  have hsoftCount : k.softBlockCount = c.softBlockCount := congrArg Core.softBlockCount hk
  have hfree : k.lists.q .free = c.store.freeList := congrArg (fun l => l.q .free) hlists
  have hnd : c.store.freeList.Nodup := hfree ▸ hinv.ok.placed.nodup .free
  have htotal := hinv.count
  rw [hfree, hcount] at htotal
  have halive := Store.alive_length hnd
  refine ⟨by omega, ?_⟩
  rw [← hsoftCount, hsoft.soft, hlists]
  rfl

omit [Layout] in
/-- A process that waits outside the free list is alive. -/
theorem Lists.Ok.alive_ne_nil {st : Store n} {cur : Option (Fin n)} {p : Fin n} {i : Place}
    (h : st.lists.Ok cur) (hi : i ≠ .free) (hp : p ∈ st.lists.q i) : st.alive ≠ [] := by
  have hfree : p ∉ st.freeList := fun hf => hi (h.placed.disjoint i .free p hp hf)
  exact List.ne_nil_of_mem (List.mem_filter.mpr ⟨List.mem_finRange p, by simpa using hfree⟩)

namespace Nucleus.Counted

variable {c c' : Nucleus n} {v : Verdict}

theorem alive_iff (h : c.Counted) : c.processCount = 0 ↔ c.store.alive = [] := by
  rw [h.processCount, ← List.length_eq_zero_iff]
  omega

theorem blocked_iff (h : c.Counted) :
    0 < c.softBlockCount ↔ ∃ i < maxSema, c.store.blockedOn (semArr i) ≠ [] := by
  rw [h.softBlockCount]
  exact Lists.devBlocked_pos_iff (l := c.store.lists)

theorem softBlockCount_nonneg (h : c.Counted) : 0 ≤ c.softBlockCount := by
  rw [h.softBlockCount]
  exact Finset.sum_nonneg fun i _ => Int.natCast_nonneg _

theorem nobody_iff (h : c.Counted) :
    c.softBlockCount = 0 ↔ ∀ i < maxSema, c.store.blockedOn (semArr i) = [] := by
  have hnone := not_congr h.blocked_iff
  simp only [not_exists, not_and, not_not] at hnone
  have hnonneg := h.softBlockCount_nonneg
  rw [← hnone]
  omega

/-- The verdict of a call that finds the ready queue empty. -/
theorem scheduled_idle (h : c.Counted) (hq : c.store.readyList = []) (hldst : v ≠ .ldst)
    (hreturns : v ≠ .returns) (hhalt : v = .halt ↔ c.processCount = 0)
    (hpanic : v = .panic ↔ 0 < c.processCount ∧ c.softBlockCount = 0)
    (hwait : v = .wait ↔ 0 < c.softBlockCount) : Scheduled c v c' := by
  have hpos : 0 < c.processCount ↔ c.store.alive ≠ [] := by
    rw [Ne, ← h.alive_iff, h.processCount]
    omega
  refine ⟨hreturns, by simp [hldst, hq], by simp [hq], hhalt.trans h.alive_iff, ?_, ?_⟩
  · rw [hpanic, hpos, h.nobody_iff]
    simp [hq]
  · rw [hwait, h.blocked_iff]
    simp [hq]

end Nucleus.Counted

/-- With the right counters `getNewJob` does what it should. -/
theorem Nucleus.schedulesWell (hn : n ≤ maxProc) {c : Nucleus n} (hrep : c.Rep c.abs)
    (hinv : c.abs.core.leave.Inv) (hsoft : c.abs.core.leave.Soft) : c.SchedulesWell := by
  obtain ⟨v, c', s', hrun, hrep', hsched⟩ := nucleus_sound hn hrep wp_getNewJob
  obtain rfl := hrep'.abs_eq
  refine ⟨v, c', hrun, ?_⟩
  have hcounted := Nucleus.counted hinv hsoft rfl
  have hok : c.store.lists.Ok none := hinv.ok
  -- a process that waits for a device or the clock is alive
  have hblocked : 0 < c.softBlockCount → c.processCount ≠ 0 := by
    rw [hcounted.blocked_iff, Ne, hcounted.alive_iff]
    rintro ⟨i, -, hi⟩
    obtain ⟨p, hp⟩ := List.exists_mem_of_ne_nil _ hi
    exact hok.alive_ne_nil (i := .blocked (semArr i)) (by simp) hp
  generalize hk : c'.abs.core = k at hsched
  cases hsched with
  | @dispatch p ps hq =>
    have hq : c.store.readyList = p :: ps := hq
    have hp : p ∈ c.store.lists.q .ready := by
      change p ∈ c.store.readyList
      simp [hq]
    have hne := hok.alive_ne_nil (by simp) hp
    refine ⟨by simp, by simp [hq], fun p' ps' hq' => ?_, by simp [hne], by simp [hq], by simp [hq]⟩
    obtain ⟨rfl, rfl⟩ := List.cons.inj (hq.symm.trans hq')
    refine ⟨congrArg Core.cur hk, ?_⟩
    have hready : c'.store.readyList = _ := congrArg (fun k => k.lists.q .ready) hk
    simpa [Core.dispatch] using hready
  | halt hq hcount =>
    have hcount : c.processCount = 0 := hcount
    refine hcounted.scheduled_idle hq (by simp) (by simp) (by simp [hcount]) (by simp [hcount]) ?_
    simpa using fun h => hblocked h hcount
  | panic hq hcount hsoft =>
    have hcount : 0 < c.processCount := hcount
    have hsoft : c.softBlockCount = 0 := hsoft
    exact hcounted.scheduled_idle hq (by simp) (by simp) (by simp; omega) (by simp [hcount, hsoft])
      (by simp [hsoft])
  | wait hq hcount hsoft =>
    have hcount : 0 < c.processCount := hcount
    have hsoft : 0 < c.softBlockCount := hsoft
    exact hcounted.scheduled_idle hq (by simp) (by simp) (by simp; omega) (by simp; omega)
      (by simp [hsoft])
  | returns hq hcount =>
    have hcount : c.processCount < 0 ∨ 0 < c.processCount ∧ c.softBlockCount < 0 := hcount
    have hprocess := hcounted.processCount
    have hnonneg := hcounted.softBlockCount_nonneg
    omega

/-! ## Every run -/

/-- In a legal run whose kills are safe the counters are right in every live state, and so is each
call of `getNewJob` that a safe event leads to; and so is the call of `main`. -/
theorem scheduler_verdict (hn : n ≤ maxProc) :
    (∀ (b : Boot n) (nuc : Nucleus n), b.setup = some (.getNewJob, nuc) →
      nuc.Counted ∧ nuc.SchedulesWell) ∧
    ∀ (tr : List (Config n × Event)) (c : Config n) (e : Event), Run tr c → c.mode.Live →
      (∀ x ∈ (c, e) :: tr, x.2.Legal) → (∀ x ∈ (c, e) :: tr, x.1.KillSafe x.2) →
        c.VerdictLaw e := by
  refine ⟨fun b nuc hsetup => ?_, fun tr c e hrun hlive hlegal hsafe => ?_⟩
  · obtain ⟨hrep, hbooted⟩ := Config.Sound.setup hn hsetup
    have hleave : nuc.abs.core.leave = nuc.abs.core := by simp only [Core.leave, ← hbooted.cur]
    rw [← hleave] at hbooted
    exact ⟨Nucleus.counted hbooted.inv hbooted.soft rfl,
      Nucleus.schedulesWell hn hrep hbooted.inv hbooted.soft⟩
  · rw [List.forall_mem_cons] at hlegal hsafe
    obtain ⟨hsound, hsoft⟩ := Config.soft_of_run hn hrun hlegal.2 hsafe.2 hlive
    refine ⟨Nucleus.counted hsound.inv hsoft rfl, ?_⟩
    rintro t todIn todOut nuc rfl henabled hhandle
    obtain ⟨exit, nuc', hrun', hrep, heffect⟩ := hsound.handle hn henabled hsafe.1
    obtain ⟨rfl, rfl⟩ := Prod.mk.inj (Option.some.inj (hrun'.symm.trans hhandle))
    have hinv : nuc'.abs.core.leave.Inv := heffect.inv (hsound.inv.entered t) (.inr rfl)
    have hsoft' : nuc'.abs.core.leave.Soft :=
      heffect.soft (hsoft.entered t) hlegal.1 (.inr rfl)
    exact ⟨Nucleus.counted hinv hsoft' rfl, Nucleus.schedulesWell hn hrep hinv hsoft'⟩

end

/-- The first process creates another one and waits for the clock. -/
theorem scheduler_verdict_clock : ∃ (_ : Layout) (tr : List (Config maxProc × Event))
    (c : Config maxProc), tr.map Prod.snd = [.call 1 0 0 0 0] ∧ Run tr c ∧
      c.VerdictLaw (.call 7 0 0 0 10) := by
  refine ⟨sampleLayout, ?_⟩
  let _ := sampleLayout
  have hexec : (Boot.zero.config.bind (·.exec [.call 1 0 0 0 0])).map (·.mode) = some .running := by
    decide +kernel
  obtain ⟨c, hc, hmode⟩ := Option.map_eq_some_iff.mp hexec
  obtain ⟨tr, hrun, htr⟩ := Boot.exec_run hc
  have hcreate : (Event.call 1 0 0 0 0).Harmless := fun _ h => h
  have hwait : (Event.call 7 0 0 0 10).Harmless := fun _ h => h
  have hlegal : ∀ x ∈ tr, x.2.Legal := forall_event htr (by decide)
  have hsafe : ∀ x ∈ tr, x.2.Harmless := forall_event htr (by simpa using hcreate)
  exact ⟨tr, c, htr, hrun.run, (scheduler_verdict le_rfl).2 tr c _ hrun.run (.inl hmode)
    (List.forall_mem_cons.mpr ⟨trivial, hlegal⟩)
    (List.forall_mem_cons.mpr ⟨hwait.killSafe c, fun x hx => (hsafe x hx).killSafe x.1⟩)⟩

/-- When the parent of the process in the PCB used again is killed, nobody is alive, and
`getNewJob` dispatches. -/
theorem scheduler_verdict_fails : ¬ ∀ (_ : Layout) (tr : List (Config maxProc × Event))
    (c : Config maxProc) (e : Event), Run tr c → c.mode.Live →
      (∀ x ∈ (c, e) :: tr, x.2.Legal) → c.VerdictLaw e := by
  intro h
  let _ := sampleLayout
  have hexec : (Boot.zero.config.bind (·.exec reuse)).bind (fun c =>
      ((((Trap.call 2 0 0 0).handle 15000 15000).run NucOp.sem).run c.nuc).bind fun r =>
        ((getNewJob.run NucOp.sem).run r.2).map fun s =>
          (c.mode, r.1, s.1, r.2.store.alive)) = some (.running, .getNewJob, .ldst, []) := by
    decide +kernel
  obtain ⟨c, hc, hrest⟩ := Option.bind_eq_some_iff.mp hexec
  obtain ⟨⟨exit, nuc⟩, hhandle, hrest⟩ := Option.bind_eq_some_iff.mp hrest
  obtain ⟨⟨v, nuc'⟩, hcall, hrest⟩ := Option.map_eq_some_iff.mp hrest
  simp only [Prod.mk.injEq] at hrest
  obtain ⟨hmode, rfl, rfl, halive⟩ := hrest
  obtain ⟨tr, hrun, htr⟩ := Boot.exec_run hc
  have hlegal : ∀ x ∈ tr, x.2.Legal := forall_event htr (by decide)
  have he : (Event.call 2 0 0 0 15000).Legal := trivial
  have hlaw := h _ tr c (.call 2 0 0 0 15000) hrun.run (.inl hmode)
    (List.forall_mem_cons.mpr ⟨he, hlegal⟩)
  obtain ⟨-, v, nuc'', hcall', hsched⟩ := hlaw.2 _ 15000 15000 nuc rfl hmode hhandle
  obtain ⟨rfl, rfl⟩ := Prod.mk.inj (Option.some.inj (hcall.symm.trans hcall'))
  have hhalt := hsched.halt.mpr halive
  cases hhalt

end Jaeos
