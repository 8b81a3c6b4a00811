import Jaeos.Clock

/-!
# The pseudo-clock

The interval timer serves the quantum of the current process and the pseudo-clock,
and `intTimerFlag` and the sign of `timeLeft` tell which one has run out. No tick
is early as long as no process is dispatched with the flag that was set when the
processor began to wait (`ticks_never_early`). `timeLeft` is the real time to the
next tick exactly when no time was spent by a process that was killed, or waiting
for a device (`timeLeft_tracks`).
-/

namespace Jaeos

variable {n : ℕ}

/-- The request comes from the interval timer. -/
def Request.IsTimer : Request → Prop
  | .timer => True
  | _ => False

instance (r : Request) : Decidable r.IsTimer :=
  match r with
  | .timer => isTrue trivial
  | .create _ | .terminate | .verhogen _ | .passeren _ | .sesv _ | .getCpuTime | .waitForClock
  | .waitForIo _ | .trap _ | .device _ _ _ | .spurious => isFalse id

/-- The event is a pseudo-clock tick. -/
def Config.Ticks (c : Config n) : Event → Prop
  | .write _ _ => False
  | .trap t todIn todOut => t.request.IsTimer ∧
    ((c.nuc.clock.enter todIn todOut).chargeIf c.nuc.currentProcess).Due

instance (c : Config n) (e : Event) : Decidable (c.Ticks e) :=
  match e with
  | .write _ _ => isFalse id
  | .trap _ _ _ => inferInstanceAs (Decidable (_ ∧ _))

/-- The time of day of the last tick, which was `t₀` before the event. -/
def Config.tickAfter (c : Config n) (t₀ : ℤ) : Event → ℤ
  | .write _ _ => t₀
  | .trap t todIn todOut => if c.Ticks (.trap t todIn todOut) then todIn else t₀

/-- The time of day of the last tick of a run, or of its boot. -/
def lastTick (b : Boot n) : List (Config n × Event) → ℤ
  | [] => b.vars.clock.todIn
  | (c, e) :: tr => c.tickAfter (lastTick b tr) e

/-- The time of day does not go back. -/
def Config.Onward (c : Config n) : Event → Prop
  | .write _ _ => True
  | .trap _ todIn todOut => c.nuc.clock.todOut ≤ todIn ∧ todIn ≤ todOut

instance (c : Config n) (e : Event) : Decidable (c.Onward e) :=
  match e with
  | .write _ _ => isTrue trivial
  | .trap _ _ _ => inferInstanceAs (Decidable (_ ∧ _))

/-- The interval timer interrupts after the time it was loaded with. -/
def Config.OnTime (c : Config n) : Event → Prop
  | .write _ _ => True
  | .trap t todIn _ => t.request.IsTimer → c.nuc.clock.timer + c.nuc.clock.timerAt ≤ todIn

instance (c : Config n) (e : Event) : Decidable (c.OnTime e) :=
  match e with
  | .write _ _ => isTrue trivial
  | .trap _ _ _ => inferInstanceAs (Decidable (_ → _))

/-! ## The machine between two events -/

/-- What holds of the clock whenever the nucleus has handed back control. -/
structure Config.Poised (c : Config n) : Prop where
  /-- somebody runs, since a time of day that has passed -/
  running : c.mode = .running →
    c.nuc.currentProcess.isSome ∧ c.nuc.clock.startTOD ≤ c.nuc.clock.todOut
  /-- nobody runs or is ready, and the timer was loaded for the next tick -/
  waiting : c.mode = .waiting → c.nuc.currentProcess = none ∧ c.nuc.store.readyQueue = none ∧
    c.nuc.clock.intTimerFlag ∧ c.nuc.clock.timerAt ≤ c.nuc.clock.todOut

variable {k k' : Clock} {r : Request} {exit : Exit} {cur : Option (Fin n)}
  {areas : Fin n → TrapAreas} {v : Verdict}

/-- Both times of day are kept. -/
theorem Tally.tod (h : Tally areas cur k r exit k') (hexit : exit = .ldst ∨ exit = .getNewJob) :
    k'.todIn = k.todIn ∧ k'.todOut = k.todOut := by
  have hcharge : (k.chargeIf cur).todIn = k.todIn ∧ (k.chargeIf cur).todOut = k.todOut := by
    rw [Clock.chargeIf]
    split <;> exact ⟨rfl, rfl⟩
  have hresume : ∀ k : Clock, (k.resumeIf cur).todIn = k.todIn ∧
    (k.resumeIf cur).todOut = k.todOut :=
    fun k => by
      rw [Clock.resumeIf]
      split <;> exact ⟨rfl, rfl⟩
  cases h with
  | stay | time | die | block => exact ⟨rfl, rfl⟩
  | tick => exact ⟨(hresume _).1.trans hcharge.1, (hresume _).2.trans hcharge.2⟩
  | quantum => exact hcharge
  | device => exact ⟨(hresume _).1.trans hcharge.1, (hresume _).2.trans hcharge.2⟩
  | stop h => rcases hexit with rfl | rfl <;> simp at h

/-- What a handler that goes back has done. -/
theorem Tally.ldst_cases (h : Tally areas cur k r .ldst k') : cur.isSome ∧
    ((¬ r.IsTimer ∧ k' = k) ∨ (¬ r.IsTimer ∧ k' = k.charge.restart) ∨
      (r = .timer ∧ k.charge.Due ∧ k' = k.charge.tick.restart)) := by
  generalize hexit : Exit.ldst = exit at h
  have hhome : Exit.ldst = .home cur → cur.isSome := fun hldst => by
    cases cur with
    | none => cases hldst
    | some p => rfl
  cases h with
  | stay hr hcur => exact ⟨hcur, .inl ⟨fun htimer => hr (by cases r <;> trivial), rfl⟩⟩
  | time hcur => exact ⟨hcur, .inr (.inl ⟨id, rfl⟩)⟩
  | die | block | quantum => cases hexit
  | tick hdue =>
    have hcur := hhome hexit
    rw [Clock.chargeIf, if_pos hcur] at hdue ⊢
    exact ⟨hcur, .inr (.inr ⟨rfl, hdue, if_pos hcur⟩)⟩
  | device i status keep =>
    have hcur := hhome hexit
    rw [Clock.chargeIf, if_pos hcur]
    exact ⟨hcur, .inr (.inl ⟨id, if_pos hcur⟩)⟩
  | stop h =>
    subst hexit
    simp at h

/-- What a handler that ends in the scheduler has done. -/
theorem Tally.job_cases (h : Tally areas cur k r .getNewJob k') :
    (∃ p, cur = some p ∧ r.Fatal (areas p) ∧ k' = k) ∨
    (cur.isSome ∧ ¬ r.IsTimer ∧ ¬ (∃ p, cur = some p ∧ r.Fatal (areas p)) ∧ k' = k.charge) ∨
    (cur = none ∧ r = .timer ∧ k.Due ∧ k' = k.tick) ∨
    (r = .timer ∧ ¬ (k.chargeIf cur).Due ∧ k' = (k.chargeIf cur).reload) ∨
    (cur = none ∧ (∃ i status keep, r = .device i status keep) ∧ k' = k) := by
  generalize hexit : Exit.getNewJob = exit at h
  have hhome : Exit.getNewJob = .home cur → cur = none := fun hjob => by
    cases cur with
    | none => rfl
    | some p => cases hjob
  cases h with
  | stay | time => cases hexit
  | die hcur hfatal => exact .inl ⟨_, hcur, hfatal, rfl⟩
  | block hr hcur =>
    refine .inr (.inl ⟨hcur, ?_, ?_, rfl⟩)
    · cases r <;> simp_all [Request.Blocks, Request.IsTimer]
    · rintro ⟨p, -, hfatal⟩
      cases r <;> simp_all [Request.Blocks, Request.Fatal]
  | tick hdue =>
    obtain rfl := hhome hexit
    exact .inr (.inr (.inl ⟨rfl, rfl, hdue, rfl⟩))
  | quantum hdue => exact .inr (.inr (.inr (.inl ⟨rfl, hdue, rfl⟩)))
  | device i status keep =>
    obtain rfl := hhome hexit
    exact .inr (.inr (.inr (.inr ⟨rfl, ⟨i, status, keep, rfl⟩, rfl⟩)))
  | stop h =>
    subst hexit
    simp at h

/-- What a call of `getNewJob` leaves, if it dispatches a process or waits. -/
theorem Ended.load {nuc : Nucleus n} {c : Config n} (hended : Ended .getNewJob nuc c)
    (hlive : c.mode.Live) :
    (c.mode = .running ∧ c.nuc.clock = nuc.clock.dispatch ∧ c.nuc.currentProcess.isSome ∧
      nuc.store.readyQueue.isSome) ∨
    (c.mode = .waiting ∧ c.nuc.clock = nuc.clock.idle ∧ c.nuc.currentProcess = none ∧
      c.nuc.store.readyQueue = none) := by
  obtain ⟨v, hjob, hmode⟩ := hended
  obtain ⟨hload, hldst, hwait⟩ := getNewJob_load hjob
  cases v with
  | ldst =>
    generalize c.nuc.clock = k' at hload
    cases hload with
    | dispatch => exact .inl ⟨hmode, rfl, hldst rfl⟩
    | stop hv => exact absurd rfl hv.1
  | wait =>
    generalize c.nuc.clock = k' at hload
    cases hload with
    | idle => exact .inr ⟨hmode, rfl, hwait rfl⟩
    | stop hv => exact absurd rfl hv.2
  | halt | panic | returns =>
    rw [hmode] at hlive
    simp [Mode.Live, Verdict.mode] at hlive

section

variable (k : Clock)

/-- `processJob` reads the clock as the handler leaves. -/
theorem Clock.dispatch_startTOD : k.dispatch.startTOD = k.todOut ∧
    k.dispatch.todOut = k.todOut := by
  rw [Clock.dispatch]
  split <;> exact ⟨rfl, rfl⟩

theorem Clock.dispatch_timeLeft : k.dispatch.timeLeft = max 0 k.timeLeft := by
  rw [Clock.dispatch]
  split <;> rfl

end

theorem Ended.poised {nuc : Nucleus n} {c : Config n} (hended : Ended .getNewJob nuc c)
    (hlive : c.mode.Live) (htod : nuc.clock.todIn ≤ nuc.clock.todOut) : c.Poised := by
  rcases hended.load hlive with ⟨hmode, hclock, hcur, -⟩ | ⟨hmode, hclock, hcur, hready⟩
  · refine ⟨fun _ => ⟨hcur, ?_⟩, fun h => absurd (hmode.symm.trans h) (by decide)⟩
    rw [hclock, (Clock.dispatch_startTOD _).1, (Clock.dispatch_startTOD _).2]
  · refine ⟨fun h => absurd (hmode.symm.trans h) (by decide), fun _ => ⟨hcur, hready, ?_, ?_⟩⟩
    · rw [hclock]
      rfl
    · rw [hclock]
      exact htod

/-- A store does not look at the clock. -/
theorem Config.step_write [Layout] {c c' : Config n} {a : ℕ} {v : Word}
    (hstep : c.step (.write a v) = some c') :
    c' = { c with nuc := { c.nuc with toGlobals := c.nuc.toGlobals.setMem a v } } := by
  rw [Config.step] at hstep
  split at hstep
  · exact (Option.some.inj hstep).symm
  · cases hstep

/-- The machine is poised after each event. -/
theorem Config.Poised.step [Layout] {c c' : Config n} {e : Event} (hc : c.Poised)
    (honward : c.Onward e) (hstep : c.step e = some c') (hlive : c'.mode.Live) : c'.Poised := by
  cases e with
  | write a v =>
    obtain rfl := Config.step_write hstep
    exact ⟨hc.running, hc.waiting⟩
  | trap t todIn todOut =>
    obtain ⟨honward, htod⟩ := honward
    obtain ⟨exit, nuc, -, hended, hexit, htally, hcur⟩ := Config.step_tally hstep hlive
    obtain ⟨hin, hout⟩ := htally.tod hexit
    rcases hexit with rfl | rfl
    · obtain ⟨hmode, hnuc⟩ := hended
      obtain ⟨hsome, hcases⟩ := htally.ldst_cases
      have hrunning : c.mode = .running := by
        rcases Config.step_live hstep with h | h
        · exact h
        · rw [(hc.waiting h).1] at hsome
          cases hsome
      refine ⟨fun _ => ⟨hnuc ▸ hcur rfl, ?_⟩, fun h => absurd (hmode.symm.trans h) (by decide)⟩
      rw [hnuc]
      rcases hcases with ⟨-, hclock⟩ | ⟨-, hclock⟩ | ⟨-, -, hclock⟩
      · rw [hclock]
        exact (hc.running hrunning).2.trans (honward.trans htod)
      · exact hclock ▸ le_refl _
      · exact hclock ▸ le_refl _
    · refine hended.poised hlive ?_
      rw [hin, hout]
      exact htod

/-- The machine is poised when `main` has called the scheduler. -/
theorem Boot.poised [Layout] {b : Boot n} {c : Config n} (hb : b.config = some c)
    (htod : b.vars.clock.todIn ≤ b.vars.clock.todOut) (hlive : c.mode.Live) :
    ∃ nuc, Ended .getNewJob nuc c ∧ nuc.clock = b.vars.clock.boot ∧ c.Poised := by
  obtain ⟨exit, nuc, hsetup, hended⟩ := Boot.config_setup hb
  rcases Boot.setup_clock hsetup with rfl | ⟨rfl, hclock⟩
  · rw [show c.mode = _ from hended] at hlive
    simp [Mode.Live] at hlive
  · exact ⟨nuc, hended, hclock, hended.poised hlive (by rw [hclock]; exact htod)⟩

/-! ## Ticks are never early -/

/-- The request is a device interrupt that wakes a process. -/
def Nucleus.WokenBy [Layout] (c : Nucleus n) : Request → Prop
  | .device i _ _ => c.WakesOn i
  | _ => False

instance [Layout] (c : Nucleus n) (r : Request) : Decidable (c.WokenBy r) :=
  match r with
  | .device i _ _ => inferInstanceAs (Decidable (c.WakesOn i))
  | .create _ | .terminate | .verhogen _ | .passeren _ | .sesv _ | .getCpuTime | .waitForClock
  | .waitForIo _ | .trap _ | .timer | .spurious => isFalse id

/-- Nobody runs, and a device interrupt wakes a process that gets a whole quantum. -/
def Config.WakesIdle [Layout] (c : Config n) : Event → Prop
  | .write _ _ => False
  | .trap t _ _ =>
    c.mode = .waiting ∧ quantum ≤ c.nuc.clock.timeLeft ∧ c.nuc.WokenBy t.request

instance [Layout] (c : Config n) (e : Event) : Decidable (c.WakesIdle e) :=
  match e with
  | .write _ _ => isFalse id
  | .trap _ _ _ => inferInstanceAs (Decidable (_ ∧ _))

/-- The next tick is not before the time of day `due`. -/
structure Config.NotBefore (due : ℤ) (c : Config n) : Prop where
  /-- the machine is poised -/
  poised : c.Poised
  /-- `timeLeft` counts from `startTOD`, and the flag is set for less than a quantum -/
  running : c.mode = .running → due ≤ c.nuc.clock.timeLeft + c.nuc.clock.startTOD ∧
    (c.nuc.clock.intTimerFlag → c.nuc.clock.timeLeft < quantum)
  /-- `timeLeft` counts from the load of the timer -/
  waiting : c.mode = .waiting → due ≤ c.nuc.clock.timeLeft + c.nuc.clock.timerAt
  /-- a timer that will be taken for the pseudo-clock is not early -/
  flag : c.nuc.clock.intTimerFlag → due ≤ c.nuc.clock.timer + c.nuc.clock.timerAt

/-- `getNewJob` keeps the ticks from being early if it does not dispatch a process with a
stale flag. -/
theorem Ended.notBefore {nuc : Nucleus n} {c : Config n} {due : ℤ} (hended : Ended .getNewJob nuc c)
    (hlive : c.mode.Live) (htod : nuc.clock.todIn ≤ nuc.clock.todOut)
    (hdue : due ≤ nuc.clock.timeLeft + nuc.clock.todIn)
    (hflag : nuc.store.readyQueue.isSome → nuc.clock.intTimerFlag → nuc.clock.timeLeft < quantum) :
    c.NotBefore due := by
  have hpoised := hended.poised hlive htod
  rcases hended.load hlive with ⟨hmode, hclock, -, hready⟩ | ⟨hmode, hclock, -⟩
  · have hleft : due ≤ max 0 nuc.clock.timeLeft + nuc.clock.todOut := by omega
    have hquantum : (0 : ℤ) < quantum := by decide
    refine ⟨hpoised, fun _ => ⟨?_, fun hset => ?_⟩,
      fun h => absurd (hmode.symm.trans h) (by decide), fun hset => ?_⟩
    · rw [hclock, Clock.dispatch_timeLeft, (Clock.dispatch_startTOD _).1]
      exact hleft
    · rw [hclock] at hset ⊢
      rw [Clock.dispatch_timeLeft]
      rw [Clock.dispatch] at hset
      split at hset
      · assumption
      · have := hflag hready hset
        omega
    · rw [hclock] at hset ⊢
      rw [Clock.dispatch] at hset ⊢
      split at hset
      · rename_i hlt
        rw [if_pos hlt]
        exact hleft
      · have := hflag hready hset
        omega
  · refine ⟨hpoised, fun h => absurd (hmode.symm.trans h) (by decide), fun _ => ?_, fun _ => ?_⟩
    · rw [hclock]
      exact hdue
    · rw [hclock]
      exact hdue

/-- The machine runs exactly if there is a current process. -/
theorem Config.Poised.running_iff {c : Config n} (hc : c.Poised) (hlive : c.mode.Live) :
    c.mode = .running ↔ c.nuc.currentProcess.isSome := by
  refine ⟨fun h => (hc.running h).1, fun h => hlive.resolve_right fun hw => ?_⟩
  rw [(hc.waiting hw).1] at h
  cases h

/-- The machine waits exactly if there is no current process. -/
theorem Config.Poised.waiting_iff {c : Config n} (hc : c.Poised) (hlive : c.mode.Live) :
    c.mode = .waiting ↔ c.nuc.currentProcess = none := by
  refine ⟨fun h => (hc.waiting h).1, fun h => hlive.resolve_left fun hr => ?_⟩
  have hcur := (hc.running hr).1
  rw [h] at hcur
  cases hcur

/-- The time is deducted at the entry of an interrupt if a process runs. -/
theorem Config.Poised.chargeIf {c : Config n} (hc : c.Poised) (hlive : c.mode.Live) (k : Clock) :
    (c.mode = .running ∧ c.nuc.currentProcess.isSome ∧ k.chargeIf c.nuc.currentProcess = k.charge) ∨
    (c.mode = .waiting ∧ c.nuc.currentProcess = none ∧ k.chargeIf c.nuc.currentProcess = k) := by
  rcases hlive with hmode | hmode
  · have hcur := (hc.running hmode).1
    exact .inl ⟨hmode, hcur, if_pos hcur⟩
  · have hcur := (hc.waiting hmode).1
    exact .inr ⟨hmode, hcur, if_neg (by simp [hcur])⟩

/-- A tick is not early. -/
theorem Config.NotBefore.tick {c : Config n} {due todIn todOut : ℤ} {t : Trap}
    (h : c.NotBefore due) (hlive : c.mode.Live) (hontime : c.OnTime (.trap t todIn todOut))
    (htick : c.Ticks (.trap t todIn todOut)) : due ≤ todIn := by
  obtain ⟨htimer, hdue⟩ := htick
  have hset : c.nuc.clock.intTimerFlag → due ≤ todIn := fun hset =>
    (h.flag hset).trans (hontime htimer)
  rcases h.poised.chargeIf hlive (c.nuc.clock.enter todIn todOut) with
    ⟨hmode, -, hcharge⟩ | ⟨hmode, -, hcharge⟩
  · rw [hcharge] at hdue
    rcases hdue with hdue | hdue
    · exact hset hdue
    · have hleft := (h.running hmode).1
      have hdue : c.nuc.clock.timeLeft - (todIn - c.nuc.clock.startTOD) < 0 := hdue
      omega
  · exact hset (h.poised.waiting hmode).2.2.1

/-- What is not the interval timer is not a tick. -/
theorem Config.tickAfter_of_not {c : Config n} {t : Trap} {t₀ todIn todOut : ℤ}
    (h : ¬ t.request.IsTimer) : c.tickAfter t₀ (.trap t todIn todOut) = t₀ :=
  if_neg fun htick => h htick.1

/-- `timeLeft` and the flag after the time since `startTOD` has been deducted. -/
theorem Config.NotBefore.charge {c : Config n} {due todIn todOut : ℤ} (h : c.NotBefore due)
    (hmode : c.mode = .running) (honward : c.nuc.clock.todOut ≤ todIn) {k : Clock}
    (hk : k = (c.nuc.clock.enter todIn todOut).charge) :
    due ≤ k.timeLeft + todIn ∧ (k.intTimerFlag → k.timeLeft < quantum) := by
  obtain ⟨hleft, hflag⟩ := h.running hmode
  have hstart := (h.poised.running hmode).2
  have hk' : k.timeLeft = c.nuc.clock.timeLeft - (todIn - c.nuc.clock.startTOD) := by rw [hk]; rfl
  have hset : k.intTimerFlag = c.nuc.clock.intTimerFlag := by rw [hk]; rfl
  rw [hk', hset]
  refine ⟨by omega, fun hf => ?_⟩
  have := hflag hf
  omega

/-- The next tick is not early after a handler that goes back. -/
theorem Config.NotBefore.resume [Layout] {c c' : Config n} {t : Trap} {t₀ todIn todOut : ℤ}
    {nuc : Nucleus n} (h : c.NotBefore (t₀ + intervalTime)) (hmode : c.mode = .running)
    (honward : c.Onward (.trap t todIn todOut)) (hpoised : c'.Poised)
    (hended : Ended .ldst nuc c') (htally : Tally areas c.nuc.currentProcess
      (c.nuc.clock.enter todIn todOut) t.request .ldst nuc.clock) :
    c'.NotBefore (c.tickAfter t₀ (.trap t todIn todOut) + intervalTime) := by
  obtain ⟨hmode', rfl⟩ := hended
  have hwaiting : c'.mode = .waiting → c.tickAfter t₀ (.trap t todIn todOut) + intervalTime ≤
      c'.nuc.clock.timeLeft + c'.nuc.clock.timerAt :=
    fun hw => absurd (hmode'.symm.trans hw) (by decide)
  obtain ⟨hleft, hset⟩ := h.charge hmode honward.1
    (k := (c.nuc.clock.enter todIn todOut).charge) rfl
  have htod := honward.2
  obtain ⟨hcur, ⟨htimer, hclock⟩ | ⟨htimer, hclock⟩ | ⟨hr, hdue, hclock⟩⟩ := htally.ldst_cases
  · rw [tickAfter_of_not htimer] at hwaiting ⊢
    refine ⟨hpoised, fun _ => ?_, hwaiting, fun hf => ?_⟩
    · rw [hclock]
      exact h.running hmode
    · rw [hclock] at hf ⊢
      exact h.flag hf
  · rw [tickAfter_of_not htimer] at hwaiting ⊢
    refine ⟨hpoised, fun _ => ?_, hwaiting, fun hf => ?_⟩
    · rw [hclock]
      exact ⟨hleft.trans (by exact Int.add_le_add_left htod _), hset⟩
    · rw [hclock] at hf ⊢
      exact h.flag hf
  · have htick : c.Ticks (.trap t todIn todOut) := by
      refine ⟨by rw [hr]; trivial, ?_⟩
      rw [Clock.chargeIf, if_pos hcur]
      exact hdue
    rw [tickAfter, if_pos htick] at hwaiting ⊢
    refine ⟨hpoised, fun _ => ⟨?_, fun hf => ?_⟩, hwaiting, fun hf => ?_⟩
    · rw [hclock]
      change todIn + intervalTime ≤ intervalTime + todOut
      omega
    · rw [hclock] at hf
      cases hf
    · rw [hclock] at hf
      cases hf

/-- The next tick is not early after a handler that ends in the scheduler. -/
theorem Config.NotBefore.job [Layout] {c c' : Config n} {t : Trap} {t₀ todIn todOut : ℤ}
    {nuc : Nucleus n} (h : c.NotBefore (t₀ + intervalTime)) (hlive : c.mode.Live)
    (honward : c.Onward (.trap t todIn todOut)) (hidle : ¬ c.WakesIdle (.trap t todIn todOut))
    (hlive' : c'.mode.Live) (hended : Ended .getNewJob nuc c')
    (hhandle : ((t.handle todIn todOut).run NucOp.sem).run c.nuc = some (.getNewJob, nuc))
    (htally : Tally c.nuc.store.trap c.nuc.currentProcess (c.nuc.clock.enter todIn todOut) t.request
      .getNewJob nuc.clock) :
    c'.NotBefore (c.tickAfter t₀ (.trap t todIn todOut) + intervalTime) := by
  obtain ⟨hin, hout⟩ := htally.tod (.inr rfl)
  have hin : nuc.clock.todIn = todIn := hin
  have hout : nuc.clock.todOut = todOut := hout
  suffices hload : c.tickAfter t₀ (.trap t todIn todOut) + intervalTime ≤
      nuc.clock.timeLeft + todIn ∧ (nuc.store.readyQueue.isSome → nuc.clock.intTimerFlag →
        nuc.clock.timeLeft < quantum) by
    refine hended.notBefore hlive' ?_ ?_ hload.2
    · rw [hin, hout]
      exact honward.2
    · rw [hin]
      exact hload.1
  have hpoised := h.poised
  have hentry := honward.1
  obtain ⟨p, hcur, hfatal, hclock⟩ | ⟨hcur, htimer, -, hclock⟩ | ⟨hcur, hr, hdue, hclock⟩ |
    ⟨hr, hdue, hclock⟩ | ⟨hcur, ⟨i, status, keep, hr⟩, hclock⟩ := htally.job_cases
  · -- the current process is killed, and its last stretch of time is not deducted
    have htimer : ¬ t.request.IsTimer := by
      cases hr : t.request <;> simp_all [Request.IsTimer, Request.Fatal]
    have hmode := (hpoised.running_iff hlive).mpr (by simp [hcur])
    obtain ⟨hleft, hset⟩ := h.running hmode
    have hstart := (hpoised.running hmode).2
    rw [tickAfter_of_not htimer, hclock]
    refine ⟨?_, fun _ => hset⟩
    change _ ≤ c.nuc.clock.timeLeft + todIn
    omega
  · obtain ⟨hleft, hset⟩ := h.charge ((hpoised.running_iff hlive).mpr hcur) hentry hclock
    rw [tickAfter_of_not htimer]
    exact ⟨hleft, fun _ => hset⟩
  · have htick : c.Ticks (.trap t todIn todOut) := by
      refine ⟨by rw [hr]; trivial, ?_⟩
      rw [Clock.chargeIf, if_neg (by simp [hcur])]
      exact hdue
    rw [tickAfter, if_pos htick, hclock]
    refine ⟨?_, fun _ hset => by cases hset⟩
    change todIn + intervalTime ≤ intervalTime + todIn
    omega
  · have htick : ¬ c.Ticks (.trap t todIn todOut) := fun htick => hdue htick.2
    rw [tickAfter, if_neg htick]
    rcases hpoised.chargeIf hlive (c.nuc.clock.enter todIn todOut) with
      ⟨hmode, -, hcharge⟩ | ⟨hmode, -, hcharge⟩
    · rw [hcharge] at hdue hclock
      obtain ⟨hleft, hset⟩ := h.charge hmode hentry
        (k := (c.nuc.clock.enter todIn todOut).charge) rfl
      rw [hclock]
      exact ⟨hleft, fun _ => hset⟩
    · rw [hcharge] at hdue
      exact absurd (.inl (hpoised.waiting hmode).2.2.1) hdue
  · have htimer : ¬ t.request.IsTimer := by
      rw [hr]
      exact id
    have hmode := (hpoised.waiting_iff hlive).mpr hcur
    obtain ⟨-, hready, -, hload⟩ := hpoised.waiting hmode
    have hleft := h.waiting hmode
    rw [tickAfter_of_not htimer, hclock]
    refine ⟨?_, fun hsome _ => ?_⟩
    · change _ ≤ c.nuc.clock.timeLeft + todIn
      omega
    · -- somebody is ready, so the interrupt has woken him
      by_contra hlt
      have hwakes : c.nuc.WakesOn i := by
        by_contra hwakes
        have hnone := Prog.of_liberal (does_handle_idle todIn todOut hr hready hcur hwakes) hhandle
        simp [hnone] at hsome
      refine hidle ⟨hmode, not_lt.mp hlt, ?_⟩
      rw [hr]
      exact hwakes

/-- The next tick is not early after an event. -/
theorem Config.NotBefore.step [Layout] {c c' : Config n} {e : Event} {t₀ : ℤ}
    (h : c.NotBefore (t₀ + intervalTime)) (honward : c.Onward e) (hidle : ¬ c.WakesIdle e)
    (hstep : c.step e = some c') (hlive : c'.mode.Live) :
    c'.NotBefore (c.tickAfter t₀ e + intervalTime) := by
  have hpoised := h.poised.step honward hstep hlive
  cases e with
  | write a v =>
    obtain rfl := Config.step_write hstep
    exact ⟨hpoised, h.running, h.waiting, h.flag⟩
  | trap t todIn todOut =>
    have hlive₀ := Config.step_live hstep
    obtain ⟨exit, nuc, hhandle, hended, rfl | rfl, htally, -⟩ := Config.step_tally hstep hlive
    · have hmode := (h.poised.running_iff hlive₀).mpr htally.ldst_cases.1
      exact h.resume hmode honward hpoised hended htally
    · exact h.job hlive₀ honward hidle hlive hended hhandle htally

/-- The first tick is not early. -/
theorem Boot.notBefore [Layout] {b : Boot n} {c : Config n} (hb : b.config = some c)
    (htod : b.vars.clock.todIn ≤ b.vars.clock.todOut) (hlive : c.mode.Live) :
    c.NotBefore (b.vars.clock.todIn + intervalTime) := by
  obtain ⟨nuc, hended, hclock, -⟩ := Boot.poised hb htod hlive
  refine hended.notBefore hlive ?_ ?_ fun _ hset => ?_
  · rw [hclock]
    exact htod
  · rw [hclock]
    change _ ≤ intervalTime + b.vars.clock.todIn
    omega
  · rw [hclock] at hset
    cases hset

/-- `lastTick` does not look at the events that are no ticks. -/
theorem lastTick_of_not {b : Boot n} {tr : List (Config n × Event)}
    (h : ∀ x ∈ tr, ¬ x.1.Ticks x.2) : lastTick b tr = b.vars.clock.todIn := by
  induction tr with
  | nil => rfl
  | cons x tr ih =>
    obtain ⟨hx, htr⟩ := List.forall_mem_cons.mp h
    obtain ⟨c, e⟩ := x
    cases e with
    | write a v => exact ih htr
    | trap t todIn todOut => exact (if_neg hx).trans (ih htr)

/-- The next tick is not early after a run. -/
theorem Config.notBefore_of_run [Layout] {b : Boot n} {tr : List (Config n × Event)} {c : Config n}
    (hboot : b.vars.clock.todIn ≤ b.vars.clock.todOut) (hrun : b.RunsTo tr c)
    (honward : ∀ x ∈ tr, x.1.Onward x.2) (hidle : ∀ x ∈ tr, ¬ x.1.WakesIdle x.2)
    (hlive : c.mode.Live) : c.NotBefore (lastTick b tr + intervalTime) := by
  induction hrun with
  | start hb => exact Boot.notBefore hb hboot hlive
  | @next tr c c' e hrun hstep ih =>
    obtain ⟨honward, honward'⟩ := List.forall_mem_cons.mp honward
    obtain ⟨hidle, hidle'⟩ := List.forall_mem_cons.mp hidle
    exact (ih honward' hidle' (Config.step_live hstep)).step honward hidle hstep hlive

/-- No pseudo-clock tick is early, in a run in which no process is woken from `WAIT` with a whole
quantum to go. -/
theorem ticks_never_early [Layout] {b : Boot n} {tr : List (Config n × Event)} {c c' : Config n}
    {t : Trap} {todIn todOut : ℤ} (hboot : b.vars.clock.todIn ≤ b.vars.clock.todOut)
    (hrun : b.RunsTo ((c, .trap t todIn todOut) :: tr) c')
    (honward : ∀ x ∈ (c, .trap t todIn todOut) :: tr, x.1.Onward x.2)
    (hontime : c.OnTime (.trap t todIn todOut))
    (hidle : ∀ x ∈ tr, ¬ x.1.WakesIdle x.2) (htick : c.Ticks (.trap t todIn todOut)) :
    intervalTime ≤ todIn - lastTick b tr := by
  cases hrun with
  | next hrun hstep =>
    have hlive := Config.step_live hstep
    have h := Config.notBefore_of_run hboot hrun (List.forall_mem_cons.mp honward).2 hidle hlive
    have hdue := h.tick hlive hontime htick
    omega

/-- A process waits for the clock, and the tick comes on time. -/
theorem ticks_never_early_wait : ∃ (_ : Layout) (tr : List (Config maxProc × Event))
    (c c' : Config maxProc), Boot.zero.RunsTo ((c, .timer intervalTime) :: tr) c' ∧
      c.Ticks (.timer intervalTime) ∧ intervalTime ≤ intervalTime - lastTick Boot.zero tr := by
  let _ := sampleLayout
  refine ⟨sampleLayout, ?_⟩
  have hexec : ((Boot.zero.config.bind (·.execIf (fun c e => c.Onward e ∧ ¬ c.WakesIdle e)
      [.call 7 0 0 0 0])).map fun c => (decide (c.Onward (.timer intervalTime) ∧
        c.OnTime (.timer intervalTime) ∧ c.Ticks (.timer intervalTime)),
        (c.step (.timer intervalTime)).isSome)) = some (true, true) := by
    decide +kernel
  obtain ⟨c, hc, hrest⟩ := Option.map_eq_some_iff.mp hexec
  simp only [Prod.mk.injEq, decide_eq_true_eq] at hrest
  obtain ⟨⟨honward, hontime, htick⟩, hstep⟩ := hrest
  obtain ⟨c', hstep⟩ := Option.isSome_iff_exists.mp hstep
  obtain ⟨tr, hrun, htr⟩ := Boot.execIf_run hc
  have hrun' : Boot.zero.RunsTo ((c, .timer intervalTime) :: tr) c' := .next hrun hstep
  exact ⟨tr, c, c', hrun', htick, ticks_never_early (by decide) hrun'
    (List.forall_mem_cons.mpr ⟨honward, fun x hx => (htr x hx).1⟩) hontime
    (fun x hx => (htr x hx).2) htick⟩

/-- A process waits for the disk, and is dispatched with the flag that was set in `WAIT`: the end
of its quantum is taken for a tick. -/
theorem ticks_never_early_fails : ¬ ∀ (_ : Layout) (b : Boot maxProc)
    (tr : List (Config maxProc × Event)) (c c' : Config maxProc) (t : Trap) (todIn todOut : ℤ),
    b.vars.clock.todIn ≤ b.vars.clock.todOut → b.RunsTo ((c, .trap t todIn todOut) :: tr) c' →
      (∀ x ∈ (c, .trap t todIn todOut) :: tr, x.1.Onward x.2) →
        (∀ x ∈ (c, .trap t todIn todOut) :: tr, x.1.OnTime x.2) →
          c.Ticks (.trap t todIn todOut) → intervalTime ≤ todIn - lastTick b tr := by
  intro h
  let _ := sampleLayout
  have hexec : ((Boot.zero.config.bind (·.execIf
      (fun c e => c.Onward e ∧ c.OnTime e ∧ ¬ c.Ticks e) [.call 8 3 0 0 10, .disk 1 20])).map
        fun c => (decide (c.Onward (.timer 5020) ∧ c.OnTime (.timer 5020) ∧ c.Ticks (.timer 5020)),
          (c.step (.timer 5020)).isSome)) = some (true, true) := by
    decide +kernel
  obtain ⟨c, hc, hrest⟩ := Option.map_eq_some_iff.mp hexec
  simp only [Prod.mk.injEq, decide_eq_true_eq] at hrest
  obtain ⟨⟨honward, hontime, htick⟩, hstep⟩ := hrest
  obtain ⟨c', hstep⟩ := Option.isSome_iff_exists.mp hstep
  obtain ⟨tr, hrun, htr⟩ := Boot.execIf_run hc
  have hlate := h _ Boot.zero tr c c' _ _ _ (by decide) (.next hrun hstep)
    (List.forall_mem_cons.mpr ⟨honward, fun x hx => (htr x hx).1⟩)
    (List.forall_mem_cons.mpr ⟨hontime, fun x hx => (htr x hx).2.1⟩) htick
  rw [lastTick_of_not fun x hx => (htr x hx).2.2] at hlate
  exact absurd hlate (by decide)

/-! ## The time that is left -/

/-- The handler takes no time. -/
def Event.Instant : Event → Prop
  | .write _ _ => True
  | .trap _ todIn todOut => todIn = todOut

instance (e : Event) : Decidable e.Instant :=
  match e with
  | .write _ _ => isTrue trivial
  | .trap _ todIn todOut => inferInstanceAs (Decidable (todIn = todOut))

/-- No time goes unaccounted for when a handler is entered: a process that is killed has used
none, and none was spent in `WAIT` before a device interrupt, or the tick is due anyway. -/
def Clock.Accounts (k : Clock) (areas : Fin n → TrapAreas) (todIn : ℤ) (r : Request) :
    Option (Fin n) → Prop
  | some p => r.Fatal (areas p) → todIn = k.startTOD ∨ k.timeLeft ≤ 0
  | none => ¬ r.IsTimer → todIn = k.timerAt ∨ k.timeLeft ≤ 0

instance (k : Clock) (areas : Fin n → TrapAreas) (todIn : ℤ) (r : Request) (cur : Option (Fin n)) :
    Decidable (k.Accounts areas todIn r cur) :=
  match cur with
  | some _ | none => inferInstanceAs (Decidable (_ → _))

/-- No time goes unaccounted for in an event. -/
def Config.Accounts (c : Config n) : Event → Prop
  | .write _ _ => True
  | .trap t todIn _ => c.nuc.clock.Accounts c.nuc.store.trap todIn t.request c.nuc.currentProcess

instance (c : Config n) (e : Event) : Decidable (c.Accounts e) :=
  match e with
  | .write _ _ => isTrue trivial
  | .trap _ _ _ => inferInstanceAs (Decidable (Clock.Accounts ..))

/-- `timeLeft` is the time to the next tick, at `due`. -/
structure Config.KeepsTime (due : ℤ) (c : Config n) : Prop where
  /-- the machine is poised -/
  poised : c.Poised
  /-- when the current process was started -/
  running : c.mode = .running → max 0 c.nuc.clock.timeLeft = max 0 (due - c.nuc.clock.startTOD)
  /-- when the machine began to wait -/
  waiting : c.mode = .waiting → max 0 c.nuc.clock.timeLeft = max 0 (due - c.nuc.clock.timerAt)

/-- What `getNewJob` finds in `timeLeft` it leaves there, but for the sign. -/
theorem Ended.timeLeft {nuc : Nucleus n} {c : Config n} (hended : Ended .getNewJob nuc c)
    (hlive : c.mode.Live) : max 0 c.nuc.clock.timeLeft = max 0 nuc.clock.timeLeft ∧
      c.nuc.clock.todOut = nuc.clock.todOut := by
  rcases hended.load hlive with ⟨-, hclock, -⟩ | ⟨-, hclock, -⟩
  · rw [hclock, Clock.dispatch_timeLeft, (Clock.dispatch_startTOD _).2]
    exact ⟨max_eq_right (le_max_left _ _), rfl⟩
  · rw [hclock]
    exact ⟨rfl, rfl⟩

theorem Ended.keepsTime {nuc : Nucleus n} {c : Config n} {due : ℤ} (hended : Ended .getNewJob nuc c)
    (hlive : c.mode.Live) (htod : nuc.clock.todIn = nuc.clock.todOut)
    (hleft : max 0 nuc.clock.timeLeft = max 0 (due - nuc.clock.todIn)) : c.KeepsTime due := by
  have htime := (hended.timeLeft hlive).1
  rw [hleft] at htime
  refine ⟨hended.poised hlive htod.le, fun hmode => ?_, fun hmode => ?_⟩
  · rcases hended.load hlive with ⟨-, hclock, -⟩ | ⟨hmode', -⟩
    · rw [htime, hclock, (Clock.dispatch_startTOD _).1, htod]
    · exact absurd (hmode.symm.trans hmode') (by decide)
  · rcases hended.load hlive with ⟨hmode', -⟩ | ⟨-, hclock, -⟩
    · exact absurd (hmode.symm.trans hmode') (by decide)
    · rw [htime, hclock]
      rfl

/-- `timeLeft` after the time since `startTOD` has been deducted. -/
theorem Config.KeepsTime.charge {c : Config n} {due todIn todOut : ℤ} (h : c.KeepsTime due)
    (hmode : c.mode = .running) (honward : c.nuc.clock.todOut ≤ todIn) {k : Clock}
    (hk : k = (c.nuc.clock.enter todIn todOut).charge) :
    max 0 k.timeLeft = max 0 (due - todIn) := by
  have hleft := h.running hmode
  have hstart := (h.poised.running hmode).2
  have hk' : k.timeLeft = c.nuc.clock.timeLeft - (todIn - c.nuc.clock.startTOD) := by rw [hk]; rfl
  rw [hk']
  omega

/-- `timeLeft` is kept by a handler that goes back. -/
theorem Config.KeepsTime.resume [Layout] {c c' : Config n} {t : Trap} {t₀ todIn todOut : ℤ}
    {nuc : Nucleus n} (h : c.KeepsTime (t₀ + intervalTime)) (hmode : c.mode = .running)
    (honward : c.Onward (.trap t todIn todOut)) (hinstant : todIn = todOut) (hpoised : c'.Poised)
    (hended : Ended .ldst nuc c') (htally : Tally c.nuc.store.trap c.nuc.currentProcess
      (c.nuc.clock.enter todIn todOut) t.request .ldst nuc.clock) :
    c'.KeepsTime (c.tickAfter t₀ (.trap t todIn todOut) + intervalTime) := by
  obtain ⟨hmode', rfl⟩ := hended
  refine ⟨hpoised, fun _ => ?_, fun hw => absurd (hmode'.symm.trans hw) (by decide)⟩
  obtain ⟨hcur, ⟨htimer, hclock⟩ | ⟨htimer, hclock⟩ | ⟨hr, hdue, hclock⟩⟩ := htally.ldst_cases
  · rw [tickAfter_of_not htimer, hclock]
    exact h.running hmode
  · have hleft := h.charge hmode honward.1 (k := (c.nuc.clock.enter todIn todOut).charge) rfl
    rw [tickAfter_of_not htimer, hclock]
    rw [hinstant] at hleft ⊢
    exact hleft
  · have htick : c.Ticks (.trap t todIn todOut) := by
      refine ⟨by rw [hr]; trivial, ?_⟩
      rw [Clock.chargeIf, if_pos hcur]
      exact hdue
    rw [tickAfter, if_pos htick, hclock, hinstant]
    change max 0 intervalTime = max 0 (todOut + intervalTime - todOut)
    rw [add_sub_cancel_left]

/-- A handler that ends in the scheduler has kept `timeLeft` exactly if all time is accounted
for. -/
theorem Config.KeepsTime.job {c : Config n} {t : Trap} {t₀ todIn todOut : ℤ} {nuc : Nucleus n}
    (h : c.KeepsTime (t₀ + intervalTime)) (hlive : c.mode.Live)
    (honward : c.Onward (.trap t todIn todOut))
    (htally : Tally c.nuc.store.trap c.nuc.currentProcess (c.nuc.clock.enter todIn todOut) t.request
      .getNewJob nuc.clock) :
    max 0 nuc.clock.timeLeft =
      max 0 (c.tickAfter t₀ (.trap t todIn todOut) + intervalTime - todIn) ↔
      c.Accounts (.trap t todIn todOut) := by
  have hpoised := h.poised
  have hentry := honward.1
  rw [Config.Accounts]
  obtain ⟨p, hcur, hfatal, hclock⟩ | ⟨hcur, htimer, hfatal, hclock⟩ | ⟨hcur, hr, hdue, hclock⟩ |
    ⟨hr, hdue, hclock⟩ | ⟨hcur, ⟨i, status, keep, hr⟩, hclock⟩ := htally.job_cases
  · -- the current process is killed, and its last stretch of time is not deducted
    have htimer : ¬ t.request.IsTimer := by
      cases hr : t.request <;> simp_all [Request.IsTimer, Request.Fatal]
    have hmode := (hpoised.running_iff hlive).mpr (by simp [hcur])
    have hleft := h.running hmode
    have hstart := (hpoised.running hmode).2
    have haccounts : c.nuc.clock.Accounts c.nuc.store.trap todIn t.request (some p) ↔
        todIn = c.nuc.clock.startTOD ∨ c.nuc.clock.timeLeft ≤ 0 := ⟨fun h => h hfatal, fun h _ => h⟩
    rw [tickAfter_of_not htimer, hclock, hcur, haccounts]
    change max 0 c.nuc.clock.timeLeft = _ ↔ _
    omega
  · have hleft := h.charge ((hpoised.running_iff hlive).mpr hcur) hentry hclock
    obtain ⟨p, hp⟩ := Option.isSome_iff_exists.mp hcur
    rw [tickAfter_of_not htimer, hp]
    exact ⟨fun _ hf => absurd ⟨p, hp, hf⟩ hfatal, fun _ => hleft⟩
  · have htick : c.Ticks (.trap t todIn todOut) := by
      refine ⟨by rw [hr]; trivial, ?_⟩
      rw [Clock.chargeIf, if_neg (by simp [hcur])]
      exact hdue
    rw [tickAfter, if_pos htick, hclock, hcur, hr, add_sub_cancel_left]
    exact ⟨fun _ htimer => absurd trivial htimer, fun _ => rfl⟩
  · have htick : ¬ c.Ticks (.trap t todIn todOut) := fun htick => hdue htick.2
    rw [tickAfter, if_neg htick]
    rcases hpoised.chargeIf hlive (c.nuc.clock.enter todIn todOut) with
      ⟨hmode, hcur, hcharge⟩ | ⟨hmode, -, hcharge⟩
    · rw [hcharge] at hclock
      have hleft := h.charge hmode hentry (k := (c.nuc.clock.enter todIn todOut).charge) rfl
      obtain ⟨p, hp⟩ := Option.isSome_iff_exists.mp hcur
      rw [hclock, hr, hp]
      exact ⟨fun _ hfatal => hfatal.elim, fun _ => hleft⟩
    · rw [hcharge] at hdue
      exact absurd (.inl (hpoised.waiting hmode).2.2.1) hdue
  · have htimer : ¬ t.request.IsTimer := by
      rw [hr]
      exact id
    have hmode := (hpoised.waiting_iff hlive).mpr hcur
    have hleft := h.waiting hmode
    have hload := (hpoised.waiting hmode).2.2.2
    have haccounts : c.nuc.clock.Accounts c.nuc.store.trap todIn t.request none ↔
        todIn = c.nuc.clock.timerAt ∨ c.nuc.clock.timeLeft ≤ 0 := ⟨fun h => h htimer, fun h _ => h⟩
    rw [tickAfter_of_not htimer, hclock, hcur, haccounts]
    change max 0 c.nuc.clock.timeLeft = _ ↔ _
    omega

/-- `timeLeft` is kept by an event that accounts for all time. -/
theorem Config.KeepsTime.step [Layout] {c c' : Config n} {e : Event} {t₀ : ℤ}
    (h : c.KeepsTime (t₀ + intervalTime)) (honward : c.Onward e) (hinstant : e.Instant)
    (haccounts : c.Accounts e) (hstep : c.step e = some c') (hlive : c'.mode.Live) :
    c'.KeepsTime (c.tickAfter t₀ e + intervalTime) := by
  have hpoised := h.poised.step honward hstep hlive
  cases e with
  | write a v =>
    obtain rfl := Config.step_write hstep
    exact ⟨hpoised, h.running, h.waiting⟩
  | trap t todIn todOut =>
    have hlive₀ := Config.step_live hstep
    obtain ⟨exit, nuc, -, hended, rfl | rfl, htally, -⟩ := Config.step_tally hstep hlive
    · have hmode := (h.poised.running_iff hlive₀).mpr htally.ldst_cases.1
      exact h.resume hmode honward hinstant hpoised hended htally
    · obtain ⟨hin, hout⟩ := htally.tod (.inr rfl)
      have hin : nuc.clock.todIn = todIn := hin
      have hout : nuc.clock.todOut = todOut := hout
      refine hended.keepsTime hlive (by rw [hin, hout]; exact hinstant) ?_
      rw [hin]
      exact (h.job hlive₀ honward htally).mpr haccounts

/-- `timeLeft` is right when `main` has called the scheduler. -/
theorem Boot.keepsTime [Layout] {b : Boot n} {c : Config n} (hb : b.config = some c)
    (htod : b.vars.clock.todIn = b.vars.clock.todOut) (hlive : c.mode.Live) :
    c.KeepsTime (b.vars.clock.todIn + intervalTime) := by
  obtain ⟨nuc, hended, hclock, -⟩ := Boot.poised hb htod.le hlive
  refine hended.keepsTime hlive ?_ ?_
  · rw [hclock]
    exact htod
  · rw [hclock]
    change max 0 intervalTime = max 0 (b.vars.clock.todIn + intervalTime - b.vars.clock.todIn)
    rw [add_sub_cancel_left]

/-- `timeLeft` is right after a run that accounts for all time. -/
theorem Config.keepsTime_of_run [Layout] {b : Boot n} {tr : List (Config n × Event)} {c : Config n}
    (hboot : b.vars.clock.todIn = b.vars.clock.todOut) (hrun : b.RunsTo tr c)
    (honward : ∀ x ∈ tr, x.1.Onward x.2) (hinstant : ∀ x ∈ tr, x.2.Instant)
    (haccounts : ∀ x ∈ tr, x.1.Accounts x.2) (hlive : c.mode.Live) :
    c.KeepsTime (lastTick b tr + intervalTime) := by
  induction hrun with
  | start hb => exact Boot.keepsTime hb hboot hlive
  | @next tr c c' e hrun hstep ih =>
    obtain ⟨honward, honward'⟩ := List.forall_mem_cons.mp honward
    obtain ⟨hinstant, hinstant'⟩ := List.forall_mem_cons.mp hinstant
    obtain ⟨haccounts, haccounts'⟩ := List.forall_mem_cons.mp haccounts
    exact (ih honward' hinstant' haccounts' (Config.step_live hstep)).step honward
      hinstant haccounts
      hstep hlive

/-- Every load of the timer by the scheduler finds the right `timeLeft`: the one at the boot, and
those at the end of a handler exactly if the handler accounts for all time. -/
theorem timeLeft_tracks [Layout] {b : Boot n} (hboot : b.vars.clock.todIn = b.vars.clock.todOut) :
    (∀ c, b.config = some c → c.mode.Live → max 0 c.nuc.clock.timeLeft =
      max 0 (intervalTime - (b.vars.clock.todOut - lastTick b []))) ∧
    ∀ (tr : List (Config n × Event)) (c c' : Config n) (t : Trap) (todIn todOut : ℤ),
      b.RunsTo ((c, .trap t todIn todOut) :: tr) c' →
      (∀ x ∈ (c, .trap t todIn todOut) :: tr, x.1.Onward x.2) →
      (∀ x ∈ (c, .trap t todIn todOut) :: tr, x.2.Instant) → (∀ x ∈ tr, x.1.Accounts x.2) →
      (c.react t todIn todOut).map (·.1.1) = some .getNewJob → c'.mode.Live →
      (max 0 c'.nuc.clock.timeLeft =
        max 0 (intervalTime - (todOut - lastTick b ((c, .trap t todIn todOut) :: tr))) ↔
        c.Accounts (.trap t todIn todOut)) := by
  refine ⟨fun c hb hlive => ?_, ?_⟩
  · obtain ⟨nuc, hended, hclock, -⟩ := Boot.poised hb hboot.le hlive
    rw [(hended.timeLeft hlive).1, hclock, ← hboot]
    change max 0 intervalTime = max 0 (intervalTime - (b.vars.clock.todIn - b.vars.clock.todIn))
    rw [sub_self, sub_zero]
  · intro tr c c' t todIn todOut hrun honward hinstant haccounts hjob hlive
    obtain ⟨honward, honward'⟩ := List.forall_mem_cons.mp honward
    obtain ⟨hinstant, hinstant'⟩ := List.forall_mem_cons.mp hinstant
    have hinstant : todIn = todOut := hinstant
    cases hrun with
    | next hrun hstep =>
      have hlive₀ := Config.step_live hstep
      have h := Config.keepsTime_of_run hboot hrun honward' hinstant' haccounts hlive₀
      obtain ⟨exit, hreact⟩ := Config.step_react hstep
      obtain ⟨nuc, hhandle, hended⟩ := Config.react_ended hreact
      obtain rfl : exit = .getNewJob := by
        rw [hreact] at hjob
        exact Option.some.inj hjob
      obtain ⟨htally, -⟩ := Prog.of_liberal (does_handle t todIn todOut) hhandle
      have hiff := h.job hlive₀ honward htally
      have hcomm : intervalTime - (todOut - c.tickAfter (lastTick b tr) (.trap t todIn todOut)) =
          c.tickAfter (lastTick b tr) (.trap t todIn todOut) + intervalTime - todIn := by
        rw [hinstant]
        omega
      rw [(hended.timeLeft hlive).1, lastTick, hcomm]
      exact hiff

/-- A quantum end is accounted for. -/
theorem timeLeft_tracks_quantum : ∃ (_ : Layout) (tr : List (Config maxProc × Event))
    (c c' : Config maxProc), Boot.zero.RunsTo ((c, .timer 5000) :: tr) c' ∧
      max 0 c'.nuc.clock.timeLeft =
        max 0 (intervalTime - (5000 - lastTick Boot.zero ((c, .timer 5000) :: tr))) := by
  let _ := sampleLayout
  refine ⟨sampleLayout, ?_⟩
  have hexec : ((Boot.zero.config.bind (·.execIf (fun c e => c.Onward e ∧ e.Instant ∧ c.Accounts e)
      [.call 6 0 0 0 3000])).map fun c =>
        (decide (c.Onward (.timer 5000) ∧ c.Accounts (.timer 5000)),
        (c.step (.timer 5000)).map (·.mode), (c.react .timer 5000 5000).map (·.1.1))) =
      some (true, some .running, some .getNewJob) := by
    decide +kernel
  obtain ⟨c, hc, hrest⟩ := Option.map_eq_some_iff.mp hexec
  simp only [Prod.mk.injEq, decide_eq_true_eq] at hrest
  obtain ⟨⟨honward, haccounts⟩, hstep, hjob⟩ := hrest
  obtain ⟨c', hstep, hmode⟩ := Option.map_eq_some_iff.mp hstep
  obtain ⟨tr, hrun, htr⟩ := Boot.execIf_run hc
  have hrun' : Boot.zero.RunsTo ((c, .timer 5000) :: tr) c' := .next hrun hstep
  exact ⟨tr, c, c', hrun', ((timeLeft_tracks (by decide)).2 tr c c' _ _ _ hrun'
    (List.forall_mem_cons.mpr ⟨honward, fun x hx => (htr x hx).1⟩)
    (List.forall_mem_cons.mpr ⟨rfl, fun x hx => (htr x hx).2.1⟩) (fun x hx => (htr x hx).2.2) hjob
    (.inl hmode)).mpr haccounts⟩

/-- A process that has run for a while is killed, and its time is not deducted. -/
theorem timeLeft_tracks_fails : ¬ ∀ (_ : Layout) (b : Boot maxProc),
    b.vars.clock.todIn = b.vars.clock.todOut →
    ∀ (tr : List (Config maxProc × Event)) (c c' : Config maxProc) (t : Trap) (todIn todOut : ℤ),
      b.RunsTo ((c, .trap t todIn todOut) :: tr) c' →
      (∀ x ∈ (c, .trap t todIn todOut) :: tr, x.1.Onward x.2) →
      (∀ x ∈ (c, .trap t todIn todOut) :: tr, x.2.Instant) →
      (c.react t todIn todOut).map (·.1.1) = some .getNewJob → c'.mode.Live →
      max 0 c'.nuc.clock.timeLeft =
        max 0 (intervalTime - (todOut - lastTick b ((c, .trap t todIn todOut) :: tr))) := by
  intro h
  let _ := sampleLayout
  let e : Event := .call 2 0 0 0 6000
  have hexec : ((Boot.zero.config.bind (·.execIf (fun c e => c.Onward e ∧ e.Instant ∧ ¬ c.Ticks e)
      [.call 1 0 0 0 0, .timer 5000])).map fun c => (decide (c.Onward e ∧ ¬ c.Ticks e),
        (c.step e).map fun c' => (c'.mode, c'.nuc.clock.timeLeft),
        (c.react (.call 2 0 0 0) 6000 6000).map (·.1.1))) =
      some (true, some (.running, 95000), some .getNewJob) := by
    decide +kernel
  obtain ⟨c, hc, hrest⟩ := Option.map_eq_some_iff.mp hexec
  simp only [Prod.mk.injEq, decide_eq_true_eq] at hrest
  obtain ⟨⟨honward, htick⟩, hstep, hjob⟩ := hrest
  obtain ⟨c', hstep, hc'⟩ := Option.map_eq_some_iff.mp hstep
  obtain ⟨hmode, hleft⟩ := Prod.mk.inj hc'
  obtain ⟨tr, hrun, htr⟩ := Boot.execIf_run hc
  have hwrong := h _ Boot.zero (by decide) tr c c' (.call 2 0 0 0) 6000 6000 (.next hrun hstep)
    (List.forall_mem_cons.mpr ⟨honward, fun x hx => (htr x hx).1⟩)
    (List.forall_mem_cons.mpr ⟨rfl, fun x hx => (htr x hx).2.1⟩) hjob (.inl hmode)
  have hnever : lastTick Boot.zero ((c, e) :: tr) = 0 :=
    lastTick_of_not (List.forall_mem_cons.mpr ⟨htick, fun x hx => (htr x hx).2.2⟩)
  have hnever : lastTick Boot.zero ((c, .trap (.call 2 0 0 0) 6000 6000) :: tr) = 0 := hnever
  rw [hnever, hleft] at hwrong
  exact absurd hwrong (by decide)

end Jaeos
