import Jaeos.Support.Virtual
import Mathlib.Order.Interval.Finset.Defs
import Mathlib.Data.Int.Interval

/-!
# Who waits, and where it is recorded

`Matched s es` says that the processes blocked on their `Tp_sem` are those that the
pairs `es` of the AVSL name, one pair each. A process that blocks gets a pair at the end;
waking a process takes its pair out. There is one lemma for each thing a request can do
to a matched state.
-/

namespace Jaeos

variable [Support]

/-- The pairs `es` of the AVSL name the blocked processes. -/
structure Matched (s : VState) (es : List (Word × ℤ)) : Prop where
  /-- the AVSL holds `es` -/
  holds : s.avsl.Holds es
  /-- a `Tp_sem` is 0, or its process is blocked -/
  tpSem : ∀ p, IsUser p → (s.mem (Support.tpSem p) = 0 ∧ s.waiting (Support.tpSem p) = []) ∨
    (s.mem (Support.tpSem p) = -1 ∧ s.waiting (Support.tpSem p) = [p])
  /-- no process has two pairs -/
  once : (es.map Prod.snd).Nodup
  /-- a process has a pair if and only if it is blocked -/
  mem_iff : ∀ p, p ∈ es.map Prod.snd ↔ IsUser p ∧ s.Blocked p

variable {s s' : VState} {es e₁ e₂ : List (Word × ℤ)} {p q : ℤ} {v w : Word}

/-! ## The operations of the nucleus -/

namespace VState

/-- SYS4 on a semaphore that is 0. -/
theorem passeren_zero (h : s.mem v = 0) : s.passeren p v =
    { s.store v (-1) with waiting := Function.update s.waiting v (s.waiting v ++ [p]) } := by
  have hneg : (s.mem v - 1).toInt < 0 := by
    rw [h]
    decide
  rw [passeren, if_pos hneg, h]
  rfl

theorem passeren_adl : (s.passeren p v).adl = s.adl := by
  rw [passeren]
  split <;> rfl

theorem verhogen_adl (h : s.verhogen v = some s') : s'.adl = s.adl := by
  rw [verhogen] at h
  split at h
  · split at h
    · cases h
    · obtain rfl := Option.some.inj h
      rfl
  · obtain rfl := Option.some.inj h
    rfl

/-- SYS3 on a semaphore that one process waits for. -/
theorem verhogen_one (h : s.mem v = -1) (hw : s.waiting v = [p]) :
    s.verhogen v = some { s.store v 0 with waiting := Function.update s.waiting v [] } := by
  have hneg : (s.mem v + 1).toInt ≤ 0 := by
    rw [h]
    decide
  rw [verhogen, if_pos hneg, hw, h]
  rfl

end VState

namespace Matched

/-- A process that is not blocked has a `Tp_sem` of 0. -/
theorem of_not_blocked (hm : Matched s es) (hp : IsUser p) (hb : ¬ s.Blocked p) :
    s.mem (Support.tpSem p) = 0 ∧ s.waiting (Support.tpSem p) = [] := by
  rcases hm.tpSem p hp with h | h
  · exact h
  · exact absurd (by simp [VState.Blocked, h.2]) hb

/-- A process that is blocked is the only one on its `Tp_sem`. -/
theorem of_blocked (hm : Matched s es) (hp : IsUser p) (hb : s.Blocked p) :
    s.mem (Support.tpSem p) = -1 ∧ s.waiting (Support.tpSem p) = [p] := by
  rcases hm.tpSem p hp with h | h
  · simp [VState.Blocked, h.2] at hb
  · exact h

theorem notMem (hm : Matched s es) (hb : ¬ s.Blocked p) : p ∉ es.map Prod.snd :=
  fun h => hb ((hm.mem_iff p).mp h).2

/-- While a process runs, there is a free node. -/
theorem length_le (hm : Matched s es) (hN : Support.maxUserProc ≤ maxProc + 1)
    (hp : IsUser p) (hb : ¬ s.Blocked p) : es.length ≤ maxProc := by
  -- the caller and the processes that have a pair are different user processes
  have hnd : (p :: es.map Prod.snd).Nodup := List.nodup_cons.mpr ⟨hm.notMem hb, hm.once⟩
  have hsub : (p :: es.map Prod.snd).toFinset ⊆ Finset.Icc (1 : ℤ) Support.maxUserProc := by
    intro q hq
    rw [Finset.mem_Icc]
    rcases List.mem_cons.mp (List.mem_toFinset.mp hq) with rfl | hq
    · exact hp
    · exact ((hm.mem_iff q).mp hq).1
  have hcard := Finset.card_le_card hsub
  rw [List.toFinset_card_of_nodup hnd, Int.card_Icc, List.length_cons, List.length_map] at hcard
  omega

/-- The `Tp_sem` are different. -/
theorem tpSem_ne (hpl : Placed) (hp : IsUser p) (hq : IsUser q) (hpq : q ≠ p) :
    Support.tpSem q ≠ Support.tpSem p := fun e =>
  hpq (hpl.inj p q hp (by have := hq.1; omega) hq.2 e)

/-- Nobody waits at first. -/
theorem of_initial (h : s.Initial) : Matched s [] := by
  obtain ⟨a, ha⟩ := h.avsl
  refine ⟨Avsl.Holds.of_init ha, fun p hp => .inl ⟨h.tpSem p hp, h.waiting _⟩, List.nodup_nil, ?_⟩
  intro p
  simp [VState.Blocked, h.waiting]

/-- Memory that is no `Tp_sem` may change. -/
theorem store (hm : Matched s es) (hv : ∀ p, IsUser p → Support.tpSem p ≠ v) :
    Matched (s.store v w) es := by
  refine ⟨hm.holds, fun p hp => ?_, hm.once, hm.mem_iff⟩
  have hmem : (s.store v w).mem (Support.tpSem p) = s.mem (Support.tpSem p) :=
    Function.update_of_ne (hv p hp) _ _
  rw [hmem]
  exact hm.tpSem p hp

/-- The delay list is not looked at. -/
theorem withAdl (adl : Adl (Support.maxUserProc + 1)) (hm : Matched s es) :
    Matched { s with adl := adl } es := ⟨hm.holds, hm.tpSem, hm.once, hm.mem_iff⟩

/-- A process gets a pair and blocks. -/
theorem block {a' : Avsl} (hpl : Placed) (hm : Matched s es) (hp : IsUser p) (hb : ¬ s.Blocked p)
    (ha : a'.Holds (es ++ [(v, p)])) :
    Matched ({ s with avsl := a' }.passeren p (Support.tpSem p)) (es ++ [(v, p)]) ∧
      ({ s with avsl := a' }.passeren p (Support.tpSem p)).mem =
        Function.update s.mem (Support.tpSem p) (-1) ∧
      ∀ q, ({ s with avsl := a' }.passeren p (Support.tpSem p)).Blocked q ↔
        s.Blocked q ∨ q = p := by
  obtain ⟨hmem, hwait⟩ := hm.of_not_blocked hp hb
  have hmem' : ({ s with avsl := a' } : VState).mem (Support.tpSem p) = 0 := hmem
  rw [VState.passeren_zero hmem']
  have hblocked : ∀ q, q ∈ Function.update s.waiting (Support.tpSem p)
      (s.waiting (Support.tpSem p) ++ [p]) (Support.tpSem q) ↔ s.Blocked q ∨ q = p := by
    intro q
    by_cases hqp : Support.tpSem q = Support.tpSem p
    · simp [VState.Blocked, hqp]
    · have hne : q ≠ p := fun e => hqp (congrArg _ e)
      simp [VState.Blocked, Function.update_of_ne hqp, hne]
  have hmap : (es ++ [(v, p)]).map Prod.snd = es.map Prod.snd ++ [p] := by simp
  refine ⟨⟨ha, fun q hq => ?_, ?_, fun q => ?_⟩, rfl, hblocked⟩
  · by_cases hqp : q = p
    · rw [hqp]
      exact .inr ⟨Function.update_self .., by simp [hwait]⟩
    · have hne := tpSem_ne hpl hp hq hqp
      have := hm.tpSem q hq
      simpa [VState.store, Function.update_of_ne hne] using this
  · rw [hmap]
    exact (List.perm_append_singleton p _).nodup_iff.mpr
      (List.nodup_cons.mpr ⟨hm.notMem hb, hm.once⟩)
  · rw [hmap, List.mem_append, List.mem_singleton, hm.mem_iff]
    constructor
    · rintro (⟨hq, hqb⟩ | rfl)
      · exact ⟨hq, (hblocked q).mpr (.inl hqb)⟩
      · exact ⟨hp, (hblocked q).mpr (.inr rfl)⟩
    · rintro ⟨hq, hqb⟩
      exact ((hblocked q).mp hqb).imp_left fun h => ⟨hq, h⟩

/-- A process loses its pair and wakes. -/
theorem wake {a' : Avsl} (hpl : Placed) (hm : Matched s (e₁ ++ (v, p) :: e₂))
    (ha : a'.Holds (e₁ ++ e₂)) :
    ∃ s', ({ s with avsl := a' } : VState).verhogen (Support.tpSem p) = some s' ∧
      s'.mem = Function.update s.mem (Support.tpSem p) 0 ∧ IsUser p ∧ s.Blocked p ∧
      Matched s' (e₁ ++ e₂) ∧ ∀ q, s'.Blocked q ↔ s.Blocked q ∧ q ≠ p := by
  obtain ⟨hp, hb⟩ := (hm.mem_iff p).mp (by simp)
  obtain ⟨hmem, hwait⟩ := hm.of_blocked hp hb
  refine ⟨_, VState.verhogen_one hmem hwait, rfl, hp, hb, ?_⟩
  have hblocked : ∀ q, q ∈ Function.update s.waiting (Support.tpSem p) [] (Support.tpSem q) ↔
      s.Blocked q ∧ q ≠ p := by
    intro q
    by_cases hqp : Support.tpSem q = Support.tpSem p
    · simp [VState.Blocked, hqp, hwait]
    · have hne : q ≠ p := fun e => hqp (congrArg _ e)
      simp [VState.Blocked, Function.update_of_ne hqp, hne]
  have honce := hm.once
  rw [List.map_append, List.map_cons] at honce
  obtain ⟨hnot, honce'⟩ := List.nodup_cons.mp (List.perm_middle.nodup_iff.mp honce)
  rw [← List.map_append] at hnot honce'
  refine ⟨⟨ha, fun q hq => ?_, honce', fun q => ?_⟩, hblocked⟩
  · by_cases hqp : q = p
    · rw [hqp]
      exact .inl ⟨Function.update_self .., by simp⟩
    · have hne := tpSem_ne hpl hp hq hqp
      have := hm.tpSem q hq
      simpa [VState.store, Function.update_of_ne hne] using this
  · have hiff : q ∈ (e₁ ++ e₂).map Prod.snd ↔
        q ∈ (e₁ ++ (v, p) :: e₂).map Prod.snd ∧ q ≠ p := by
      rw [@List.map_append _ _ Prod.snd e₁ ((v, p) :: e₂), List.map_cons, List.perm_middle.mem_iff,
        List.mem_cons, ← List.map_append]
      constructor
      · exact fun h => ⟨.inr h, fun e => hnot (e ▸ h)⟩
      · exact fun h => h.1.resolve_left h.2
    rw [hiff, hm.mem_iff, and_assoc]
    exact and_congr_right fun hq => (hblocked q).symm

/-- A V on the word in front of `uProcs` concerns nobody. -/
theorem front (hpl : Placed) (hm : Matched s es) (hv : s.verhogen (Support.tpSem 0) = some s') :
    Matched s' es := by
  have hne : ∀ p, IsUser p → Support.tpSem p ≠ Support.tpSem 0 := by
    intro p hp e
    have hzero := hpl.inj p 0 hp (le_refl 0) (by omega) e.symm
    have := hp.1
    omega
  -- whoever was waiting there, it is no user process
  have hkeep : ∀ {w : List ℤ},
    Matched { s.store (Support.tpSem 0) (s.mem (Support.tpSem 0) + 1) with
      waiting := Function.update s.waiting (Support.tpSem 0) w } es := by
    intro w
    refine ⟨hm.holds, fun p hp => ?_, hm.once, fun p => ?_⟩
    · have := hm.tpSem p hp
      simpa [VState.store, Function.update_of_ne (hne p hp)] using this
    · rw [hm.mem_iff]
      refine and_congr_right fun hp => ?_
      simp [VState.Blocked, Function.update_of_ne (hne p hp)]
  rw [VState.verhogen] at hv
  split at hv
  · split at hv
    · cases hv
    · obtain rfl := Option.some.inj hv
      exact hkeep
  · obtain rfl := Option.some.inj hv
    exact hm.store hne

end Matched

/-! ## The requests -/

namespace VEvent

/-- A SYS11 that has to take out a pair does not find it at the head of a longer list. -/
def SparesHead (s : VState) : VEvent → Prop
  | call p _ => (p.regs sA1).toInt = 11 → (s.mem (p.regs sA2) + 1).toInt ≤ 0 →
      ¬ s.avsl.LongHead (p.regs sA2)
  | _ => True

instance (s : VState) : ∀ e : VEvent, Decidable (e.SparesHead s)
  | call _ _ => inferInstanceAs (Decidable (_ → _ → ¬ _))
  | round _ | write _ _ => inferInstanceAs (Decidable True)

end VEvent

section

variable {p : Caller} {t : Word}

/-- The semaphore of a SYS11 or SYS12 is no `Tp_sem`. -/
def Apart (v : Word) : Prop := ∀ p, IsUser p → Support.tpSem p ≠ v

theorem Placed.apart (hpl : Placed) (hv : kUseg2Addr ≤ v) : Apart v := fun p hp e =>
  absurd (e ▸ hpl.kernel p hp) (by bv_omega)

theorem service_eleven {fuel : ℕ} (h : (p.regs sA1).toInt = 11) :
    p.service fuel = vSemVirt p.procID (p.regs sA2) := by
  simp [Caller.service, h]

theorem service_twelve {fuel : ℕ} (h : (p.regs sA1).toInt = 12) :
    p.service fuel = pSemVirt p.procID (p.regs sA2) := by
  simp [Caller.service, h]

theorem service_thirteen {fuel : ℕ} (h : (p.regs sA1).toInt = 13) :
    p.service fuel = delay p.procID (p.regs sA2) := by
  simp [Caller.service, h]

/-- The number of a user process fits into `EntryHi`. -/
theorem IsUser.range {p : ℤ} (hN : Support.maxUserProc ≤ maxProc + 1) (hp : IsUser p) :
    0 ≤ p ∧ p < 64 := by
  obtain ⟨h1, h2⟩ := hp
  simp only [maxProc] at hN
  omega

variable (hN : Support.maxUserProc ≤ maxProc + 1) (hp : IsUser p.procID)

include hN hp

/-- A SYS12 that passes. -/
theorem psem_pass (hnum : (p.regs sA1).toInt = 12) (h : 0 ≤ (s.mem (p.regs sA2) - 1).toInt) :
    (VEvent.call p t).run s = some (s.store (p.regs sA2) (s.mem (p.regs sA2) - 1)) ∧
      (VEvent.call p t).notes s = [] := by
  obtain ⟨h0, h64⟩ := hp.range hN
  refine VEvent.run_call h0 h64 (r := (_, _)) ?_
  rw [service_twelve hnum]
  exact wpx_pSemVirt_pass h rfl

/-- A SYS11 that leaves its semaphore positive. -/
theorem vsem_pass (hnum : (p.regs sA1).toInt = 11) (h : 0 < (s.mem (p.regs sA2) + 1).toInt) :
    (VEvent.call p t).run s = some (s.store (p.regs sA2) (s.mem (p.regs sA2) + 1)) ∧
      (VEvent.call p t).notes s = [] := by
  obtain ⟨h0, h64⟩ := hp.range hN
  refine VEvent.run_call h0 h64 (r := (_, _)) ?_
  rw [service_eleven hnum]
  exact wpx_vSemVirt_pass h rfl

/-- A SYS12 that blocks: the caller has the last pair. -/
theorem psem_block (hpl : Placed) (hm : Matched s es) (hb : ¬ s.Blocked p.procID)
    (hnum : (p.regs sA1).toInt = 12) (hv : Apart (p.regs sA2))
    (h : (s.mem (p.regs sA2) - 1).toInt < 0) :
    ∃ s', (VEvent.call p t).run s = some s' ∧
      (VEvent.call p t).notes s = [.vInsertBlocked true] ∧
      Matched s' (es ++ [(p.regs sA2, p.procID)]) ∧ s'.adl = s.adl ∧
      (∀ q, s'.Blocked q ↔ s.Blocked q ∨ q = p.procID) ∧
      ∀ a, Apart a → s'.mem a = Function.update s.mem (p.regs sA2) (s.mem (p.regs sA2) - 1) a := by
  obtain ⟨h0, h64⟩ := hp.range hN
  have hm' := hm.store (w := s.mem (p.regs sA2) - 1) hv
  obtain ⟨a', hins, ha'⟩ := hm'.holds.insert (v := p.regs sA2) (q := p.procID)
    (hm.length_le hN hp hb)
  obtain ⟨hm₁, hmem, hblocked⟩ := hm'.block hpl hp hb ha'
  obtain ⟨hrun, hnotes⟩ := VEvent.run_call (s := s) (t := t) h0 h64 (r := (_, _)) (by
    rw [service_twelve hnum]
    exact wpx_pSemVirt_block h hins rfl)
  refine ⟨_, hrun, hnotes, hm₁, VState.passeren_adl, hblocked, fun a ha => ?_⟩
  rw [hmem, Function.update_of_ne (ha _ hp).symm]
  rfl

/-- A SYS11 that wakes a process: the first one with a pair for the semaphore. -/
theorem vsem_wake {q : ℤ} (hpl : Placed) (hm : Matched s (e₁ ++ (p.regs sA2, q) :: e₂))
    (hnum : (p.regs sA1).toInt = 11) (hv : Apart (p.regs sA2))
    (h : (s.mem (p.regs sA2) + 1).toInt ≤ 0) (hfirst : ∀ e ∈ e₁, e.1 ≠ p.regs sA2)
    (hlong : ¬ s.avsl.LongHead (p.regs sA2)) :
    ∃ s', (VEvent.call p t).run s = some s' ∧
      (VEvent.call p t).notes s = [.verhogen (.tpSem q)] ∧
      Matched s' (e₁ ++ e₂) ∧ s'.adl = s.adl ∧ (∀ r, s'.Blocked r ↔ s.Blocked r ∧ r ≠ q) ∧
      ∀ a, Apart a → s'.mem a = Function.update s.mem (p.regs sA2) (s.mem (p.regs sA2) + 1) a := by
  obtain ⟨h0, h64⟩ := hp.range hN
  have hm' := hm.store (w := s.mem (p.regs sA2) + 1) hv
  obtain ⟨a', hrem, ha'⟩ := hm'.holds.remove hfirst hlong
  obtain ⟨s', hverh, hmem, huser, -, hm₁, hblocked⟩ := hm'.wake hpl ha'
  have hq : q ≠ -1 := by
    have := huser.1
    omega
  obtain ⟨hrun, hnotes⟩ := VEvent.run_call (s := s) (t := t) h0 h64 (r := (_, _)) (by
    rw [service_eleven hnum]
    exact wpx_vSemVirt_wake h hrem hq hverh rfl)
  have hadl := VState.verhogen_adl hverh
  refine ⟨_, hrun, hnotes, hm₁, hadl, hblocked, fun a ha => ?_⟩
  rw [hmem, Function.update_of_ne (ha _ huser).symm]
  rfl

/-- A SYS11 that finds no pair. -/
theorem vsem_absent (hpl : Placed) (hm : Matched s es) (hnum : (p.regs sA1).toInt = 11)
    (hv : Apart (p.regs sA2)) (h : (s.mem (p.regs sA2) + 1).toInt ≤ 0)
    (habsent : ∀ e ∈ es, e.1 ≠ p.regs sA2) (hrun : (VEvent.call p t).run s = some s') :
    Matched s' es ∧ s'.adl = s.adl ∧ (VEvent.call p t).notes s = [.verhogen (.tpSem 0)] := by
  obtain ⟨h0, h64⟩ := hp.range hN
  refine VEvent.of_call (R := fun x => Matched x.1 es ∧ x.1.adl = s.adl ∧
    x.2 = [.verhogen (.tpSem 0)]) h0 h64 ?_ hrun
  rw [service_eleven hnum]
  refine wpx_vSemVirt_absent h (hm.holds.absent habsent) fun s₁ hs₁ => ?_
  have hadl := VState.verhogen_adl hs₁
  exact ⟨(hm.store hv).front hpl hs₁, hadl, rfl⟩

/-- A SYS13: the caller has the last pair. -/
theorem delay_block {d' : Adl (Support.maxUserProc + 1)} {ok : Bool} (hpl : Placed)
    (hm : Matched s es) (hb : ¬ s.Blocked p.procID) (hnum : (p.regs sA1).toInt = 13)
    (hdel : (insertDelay (t + p.regs sA2 * timeScale) p.procID).run s.adl = some (ok, d')) :
    ∃ s', (VEvent.call p t).run s = some s' ∧
      (VEvent.call p t).notes s = [.vInsertBlocked true] ∧ s'.adl = d' ∧
      Matched s' (es ++ [(Support.tpSem p.procID, p.procID)]) ∧
      (∀ q, s'.Blocked q ↔ s.Blocked q ∨ q = p.procID) ∧
      ∀ a, Apart a → s'.mem a = s.mem a := by
  obtain ⟨h0, h64⟩ := hp.range hN
  obtain ⟨a', hins, ha'⟩ := hm.holds.insert (v := Support.tpSem p.procID) (q := p.procID)
    (hm.length_le hN hp hb)
  obtain ⟨hm₁, hmem, hblocked⟩ := (hm.withAdl d').block hpl hp hb ha'
  obtain ⟨hrun, hnotes⟩ := VEvent.run_call (s := s) (t := t) h0 h64 (r := (_, _)) (by
    rw [service_thirteen hnum]
    exact wpx_delay hins hdel rfl)
  refine ⟨_, hrun, hnotes, VState.passeren_adl, hm₁, hblocked, fun a ha => ?_⟩
  rw [hmem, Function.update_of_ne (ha _ hp).symm]

end

/-- A round of the daemon that finds no delay that has ended. -/
theorem round_calm {t : Word}
    (h : t.toInt < s.adl.headTime.toInt ∨ s.adl.headTime = failed) :
    (VEvent.round t).run s = some s ∧
      .headDelaydTime s.adl.headTime ∈ (VEvent.round t).notes s := by
  have hhead := headDelaydTime_run s.adl
  by_cases hlt : t.toInt < s.adl.headTime.toInt
  · obtain ⟨hrun, hnotes⟩ := VEvent.run_of_wpx (e := .round t) (s := s)
      (r := (s, [.headDelaydTime s.adl.headTime])) (by
        simp only [VEvent.program, delayDaemon, Prog.wpx_bind, wpx_sup, contract_waitForClock,
          contract_stck, wakeDelayed, contract_headDelaydTime hhead]
        rw [if_neg (by simpa [VEvent.tod] using hlt)]
        rfl)
    exact ⟨hrun, by simp [hnotes]⟩
  · have hfailed := h.resolve_left hlt
    obtain ⟨hrun, hnotes⟩ := VEvent.run_of_wpx (e := .round t) (s := s)
      (r := (s, [.headDelaydTime s.adl.headTime, .headDelaydTime s.adl.headTime])) (by
        simp only [VEvent.program, delayDaemon, Prog.wpx_bind, wpx_sup, contract_waitForClock,
          contract_stck, wakeDelayed, contract_headDelaydTime hhead]
        rw [if_pos (by simpa [VEvent.tod] using hlt), Prog.wpx_bind, wpx_sup,
          contract_headDelaydTime hhead, if_neg (by simpa using hfailed)]
        rfl)
    exact ⟨hrun, by simp [hnotes]⟩

end Jaeos
