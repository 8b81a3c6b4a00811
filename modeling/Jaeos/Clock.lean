import Jaeos.Links
import Jaeos.Reach

/-!
# What the handlers do to the clock

`Tally` lists, request by request, what a handler does to the clock variables and
the interval timer, and `Load` does the same for `getNewJob`. They hold whatever
is in the PCBs and queues: the programs are followed through the operations as
they are (`NucOp.does`), and what the calls into `pcb.c` and `asl.c` return is
left open.
-/

namespace Jaeos

variable {n : ℕ}

/-! ## Following the operations -/

/-- What the operations do to the nucleus, as a contract. -/
abbrev NucOp.does : Prog.Contract (NucOp n) (Nucleus n) := Prog.liberal NucOp.sem

section

variable {c : Nucleus n} {p : Fin n}

theorem does_globals (Q : Globals n → Nucleus n → Prop) :
    (globals (n := n)).wp NucOp.does Q c ↔ Q c.toGlobals c := by
  refine ⟨fun h => h _ _ rfl, fun h b c' hrun => ?_⟩
  obtain ⟨rfl, rfl⟩ := Prod.mk.inj (Option.some.inj hrun)
  exact h

theorem does_modifyGlobals (f : Globals n → Globals n) (Q : Unit → Nucleus n → Prop) :
    (modifyGlobals f).wp NucOp.does Q c ↔ Q () { c with toGlobals := f c.toGlobals } := by
  refine ⟨fun h => h _ _ rfl, fun h b c' hrun => ?_⟩
  obtain ⟨rfl, rfl⟩ := Prod.mk.inj (Option.some.inj hrun)
  exact h

theorem does_modifyClock (f : Clock → Clock) (Q : Unit → Nucleus n → Prop) :
    (modifyClock f).wp NucOp.does Q c ↔
      Q () { c with toGlobals := { c.toGlobals with clock := f c.clock } } :=
  does_modifyGlobals ..

theorem does_setTIMER (v tod : ℤ) (Q : Unit → Nucleus n → Prop) :
    (setTIMER v tod).wp NucOp.does Q c ↔ Q () { c with toGlobals := { c.toGlobals with
      clock := { c.clock with timer := v, timerAt := tod } } } :=
  does_modifyGlobals ..

theorem does_addMem (a : ℕ) (d : Word) (Q : Unit → Nucleus n → Prop) :
    (addMem a d).wp NucOp.does Q c ↔
      Q () { c with toGlobals := c.toGlobals.setMem a (c.mem a + d) } :=
  does_modifyGlobals ..

theorem does_store {β : Type} (o : StoreOp n β) (Q : β → Nucleus n → Prop) :
    (store o).wp NucOp.does Q c ↔
      ∀ b st, (StoreOp.sem _ o).run c.store = some (b, st) → Q b { c with store := st } := by
  refine ⟨fun h b st hrun => h _ _ ?_, fun h b c' hrun => ?_⟩
  · change ((StoreOp.sem _ o).run c.store).bind _ = _
    rw [hrun]
    rfl
  · change ((StoreOp.sem _ o).run c.store).bind _ = _ at hrun
    obtain ⟨⟨b', st⟩, hst, hrest⟩ := Option.bind_eq_some_iff.mp hrun
    obtain ⟨rfl, rfl⟩ := Prod.mk.inj (Option.some.inj hrest)
    exact h _ _ hst

theorem does_data (Q : PcbData n → Nucleus n → Prop) :
    (store .data).wp NucOp.does Q c ↔ Q c.store.toPcbData c := by
  rw [does_store]
  refine ⟨fun h => h _ _ rfl, fun h b st hrun => ?_⟩
  obtain ⟨rfl, rfl⟩ := Prod.mk.inj (Option.some.inj hrun)
  exact h

theorem does_modifyData (f : PcbData n → PcbData n) (Q : Unit → Nucleus n → Prop) :
    (store (.modifyData f)).wp NucOp.does Q c ↔
      Q () { c with store := { c.store with toPcbData := f c.store.toPcbData } } := by
  rw [does_store]
  refine ⟨fun h => h _ _ rfl, fun h b st hrun => ?_⟩
  obtain ⟨rfl, rfl⟩ := Prod.mk.inj (Option.some.inj hrun)
  exact h

theorem does_setState (st : State) (Q : Unit → Nucleus n → Prop) :
    (setState p st).wp NucOp.does Q c ↔ Q () { c with store := { c.store with
      pS := Function.update c.store.pS p st } } :=
  does_modifyData ..

theorem does_setReturn (v : Word) (Q : Unit → Nucleus n → Prop) :
    (setReturn p v).wp NucOp.does Q c ↔ Q () { c with store := { c.store with
      pS := Function.update c.store.pS p ((c.store.pS p).setReg sA1 v) } } :=
  does_modifyData ..

end

/-! ## What can happen to the clock -/

namespace Clock

variable (k : Clock)

/-- A handler is entered and left. -/
def enter (todIn todOut : ℤ) : Clock := { k with todIn := todIn, todOut := todOut }

/-- The time since `startTOD` is deducted from `timeLeft`. -/
def charge : Clock := { k with timeLeft := k.timeLeft - (k.todIn - k.startTOD) }

/-- The time is deducted if somebody runs. -/
def chargeIf (cur : Option (Fin n)) : Clock := if cur.isSome then k.charge else k

/-- `startTOD` is read anew. -/
def restart : Clock := { k with startTOD := k.todOut }

/-- The test of the timer branch for a pseudo-clock tick. -/
def Due : Prop := k.intTimerFlag ∨ k.timeLeft < 0

instance : Decidable k.Due := inferInstanceAs (Decidable (_ ∨ _))

/-- The timer branch reloads the interval timer. -/
def reload : Clock := { k with timer := quantum, timerAt := k.todIn }

/-- A pseudo-clock tick. -/
def tick : Clock := { k.reload with timeLeft := intervalTime, intTimerFlag := false }

/-- The end of `returnFromInterrupt` with the current process, if there is one. -/
def resumeIf (cur : Option (Fin n)) : Clock := if cur.isSome then k.restart else k

/-- `processJob` -/
def dispatch : Clock :=
  let left := max 0 k.timeLeft
  if left < quantum then
    { k.restart with timeLeft := left, timer := left, timerAt := k.todOut, intTimerFlag := true }
  else
    { k.restart with timeLeft := left, timer := quantum, timerAt := k.todOut }

/-- The idle path of `getNewJob`. -/
def idle : Clock := { k with timer := k.timeLeft, timerAt := k.todIn, intTimerFlag := true }

/-- `main` initialises the clock variables. -/
def boot : Clock := { k with
  startTOD := 0, timeLeft := intervalTime, intTimerFlag := false,
  timer := quantum, timerAt := k.todIn }

end Clock

/-- An interrupt ends with the current process, if there is one. -/
def Exit.home (cur : Option (Fin n)) : Exit := if cur.isSome then .ldst else .getNewJob

/-- The request can block the current process. -/
def Request.Blocks : Request → Prop
  | .passeren _ | .waitForClock | .waitForIo _ => True
  | _ => False

/-- What a handler does to the clock. -/
inductive Tally (areas : Fin n → TrapAreas) (cur : Option (Fin n)) (k : Clock) :
    Request → Exit → Clock → Prop where
  /-- a handler goes back without looking at the clock -/
  | stay {r : Request} (hr : ¬ r.Interrupt) (hcur : cur.isSome) : Tally areas cur k r .ldst k
  /-- SYS6 -/
  | time (hcur : cur.isSome) : Tally areas cur k .getCpuTime .ldst k.charge.restart
  /-- the current process is killed -/
  | die {r : Request} {p : Fin n} (hcur : cur = some p) (hfatal : r.Fatal (areas p)) :
    Tally areas cur k r .getNewJob k
  /-- the current process is blocked -/
  | block {r : Request} (hr : r.Blocks) (hcur : cur.isSome) :
    Tally areas cur k r .getNewJob k.charge
  /-- a pseudo-clock tick -/
  | tick (hdue : (k.chargeIf cur).Due) :
    Tally areas cur k .timer (.home cur) ((k.chargeIf cur).tick.resumeIf cur)
  /-- the end of a quantum -/
  | quantum (hdue : ¬ (k.chargeIf cur).Due) :
    Tally areas cur k .timer .getNewJob (k.chargeIf cur).reload
  /-- a device -/
  | device (i : ℕ) (status : Word) (keep : Bool) :
    Tally areas cur k (.device i status keep) (.home cur) ((k.chargeIf cur).resumeIf cur)
  /-- no way back -/
  | stop {r : Request} {exit : Exit} {k' : Clock} (h : exit = .panic ∨ exit = .undefined) :
    Tally areas cur k r exit k'

/-- What `getNewJob` does to the clock. -/
inductive Load (k : Clock) : Verdict → Clock → Prop where
  /-- a process is dispatched -/
  | dispatch : Load k .ldst k.dispatch
  /-- nobody is ready, and somebody waits for a device or the clock -/
  | idle : Load k .wait k.idle
  /-- nothing is loaded -/
  | stop {v : Verdict} (hv : v ≠ .ldst ∧ v ≠ .wait) : Load k v k

/-- The postcondition of a handler. -/
def Tallied (areas : Fin n → TrapAreas) (cur : Option (Fin n)) (k : Clock)
    (r : Request) (exit : Exit)
    (c : Nucleus n) : Prop :=
  Tally areas cur k r exit c.clock ∧ (exit = .ldst → c.currentProcess.isSome)

/-! ## The handlers -/

variable {c : Nucleus n} {p : Fin n} {areas : Fin n → TrapAreas} {r : Request}

theorem does_headBackHome {cur : Option (Fin n)} {k : Clock}
    (h : c.currentProcess.isSome → Tally areas cur k r .ldst c.clock) :
    (headBackHome (n := n)).wp NucOp.does (Tallied areas cur k r) c := by
  simp only [headBackHome, Prog.wp_bind, does_globals]
  split
  · exact ⟨.stop (.inr rfl), by simp⟩
  · rename_i p hp
    have hsome : c.currentProcess.isSome := by simp [hp]
    exact ⟨h hsome, fun _ => hsome⟩

theorem does_chargeTime {Q : Unit → Nucleus n → Prop}
    (h : ∀ c' : Nucleus n, c'.toGlobals = { c.toGlobals with clock := c.clock.charge } → Q () c') :
    (chargeTime p).wp NucOp.does Q c := by
  simp only [chargeTime, Prog.wp_bind, does_globals, does_modifyData, does_modifyClock]
  exact h _ rfl

theorem does_blockCurrent (a : ℕ) {Q : Unit → Nucleus n → Prop}
    (h : ∀ c' : Nucleus n, c'.clock = c.clock.charge → Q () c') :
    (blockCurrent p a).wp NucOp.does Q c := by
  rw [blockCurrent, Prog.wp_bind]
  refine does_chargeTime fun c₁ hc₁ => ?_
  simp only [Prog.wp_bind, does_store, does_modifyGlobals]
  exact fun _ _ _ => h _ (congrArg Globals.clock hc₁)

section

variable {cur : Option (Fin n)} {k : Clock}

theorem Tallied.stop {exit : Exit} (h : exit = .panic ∨ exit = .undefined) :
    Tallied areas cur k r exit c :=
  ⟨.stop h, fun hldst => by rcases h with rfl | rfl <;> cases hldst⟩

theorem Tallied.die (hk : c.clock = k) (hcur : cur = some p) (hfatal : r.Fatal (areas p)) :
    Tallied areas cur k r .getNewJob c :=
  ⟨hk ▸ .die hcur hfatal, fun h => by cases h⟩

theorem Tallied.block (hk : c.clock = k.charge) (hr : r.Blocks) (hcur : cur.isSome) :
    Tallied areas cur k r .getNewJob c :=
  ⟨hk ▸ .block hr hcur, fun h => by cases h⟩

/-- A handler goes back without looking at the clock. -/
theorem does_stay (hk : c.clock = k) (hr : ¬ r.Interrupt) (hcur : cur.isSome) :
    (headBackHome (n := n)).wp NucOp.does (Tallied areas cur k r) c :=
  does_headBackHome fun _ => hk ▸ .stay hr hcur

end

variable [Layout]

/-- The end of the kill does not look at the clock. -/
theorem does_nukeLeaf {Q : Unit → Nucleus n → Prop}
    (h : ∀ c' : Nucleus n, c'.clock = c.clock → Q () c') : (nukeLeaf p).wp NucOp.does Q c := by
  simp only [nukeLeaf, nukeDetach, Prog.wp_bind, Prog.wp_ite, Prog.wp_pure,
    does_globals, does_store,
    does_modifyGlobals, does_addMem]
  split
  · exact fun _ _ _ _ _ _ => h _ rfl
  · rintro a st -
    split
    · exact fun _ _ _ _ _ _ => h _ rfl
    · rintro _ st' - a st'' -
      split
      · exact fun _ _ _ => h _ rfl
      · exact fun _ _ _ => h _ rfl

/-- The kill does not look at the clock. -/
theorem does_nuke {fuel : ℕ} {Q : Unit → Nucleus n → Prop}
    (h : ∀ c' : Nucleus n, c'.clock = c.clock → Q () c') :
    (nukeItTilItPukes fuel p).wp NucOp.does Q c := by
  induction fuel generalizing c p Q with
  | zero =>
    intro b s' hrun
    cases hrun
  | succ fuel ih =>
    simp only [nukeItTilItPukes, Prog.wp_bind, Prog.wp_ite, does_store]
    intro b st _
    split
    · exact does_nukeLeaf h
    · intro b st' _
      split
      · intro b s' hrun
        cases hrun
      · rw [Prog.wp_bind]
        exact ih fun c₁ hc₁ => ih fun c₂ hc₂ => h c₂ (hc₂.trans hc₁)

/-! ### System calls and traps -/

section

variable {cur : Option (Fin n)} {k : Clock}

theorem does_passUpOrDie (type : TrapType) (hk : c.clock = k) (hcur : c.currentProcess = cur)
    (hareas : c.store.trap = areas) :
    (passUpOrDie (n := n) type).wp NucOp.does (Tallied areas cur k (.trap type)) c := by
  subst hk hcur hareas
  simp only [passUpOrDie, Prog.wp_bind, does_globals]
  split
  · exact .stop (.inr rfl)
  · rename_i p hp
    simp only [Prog.wp_bind, does_data, Prog.wp_ite, does_modifyGlobals, does_globals,
      does_setState]
    split
    · exact does_stay rfl (by simp [Request.Interrupt]) (by simp [hp])
    · rename_i h
      exact does_nuke fun c' hc' => .die hc' hp (not_not.mp h)

theorem does_sysFiveFrom (types all : List TrapType) (hk : c.clock = k)
    (hp : c.currentProcess = some p) (hcur : c.currentProcess = cur) (hareas : c.store.trap = areas)
    (hdone : ∀ type ∈ all, (areas p).old type ≠ null ∨ type ∈ types) :
    (sysFiveFrom p types).wp NucOp.does (Tallied areas cur k (.sesv all)) c := by
  subst hk hcur hareas
  induction types with
  | nil =>
    rw [sysFiveFrom, Prog.wp_bind]
    exact does_nuke fun c' hc' => .die hc' hp fun type ht => (hdone type ht).resolve_right (by simp)
  | cons type types ih =>
    simp only [sysFiveFrom, Prog.wp_bind, does_data, Prog.wp_ite, does_globals, does_modifyData]
    split
    · exact does_stay rfl (by simp [Request.Interrupt]) (by simp [hp])
    · rename_i hne
      refine ih fun t ht => ?_
      rcases hdone t ht with h | h
      · exact .inl h
      · rcases List.mem_cons.mp h with rfl | h
        · exact .inl hne
        · exact .inr h

/-- What the system calls do to the clock. -/
theorem does_serve (call : SysCall) {old : State} (hk : c.clock = k)
    (hp : c.currentProcess = some p)
    (hcur : c.currentProcess = cur) (hareas : c.store.trap = areas)
    (hold : c.sysCallOld = old.afterCall) :
    (serve p (some call)).wp NucOp.does (Tallied areas cur k (call.request old)) c := by
  have hsome : cur.isSome := by simp [← hcur, hp]
  cases call with
  | createProcess =>
    simp only [serve, createProcess, Prog.wp_bind, does_store]
    intro b st _
    split
    · simp only [Prog.wp_bind, does_modifyGlobals, does_globals, does_setState, does_store]
      intro _ st' _ _ st'' _
      exact does_stay hk (by simp [SysCall.request, Request.Interrupt]) hsome
    · simp only [Prog.wp_bind, does_modifyGlobals]
      exact does_stay hk (by simp [SysCall.request, Request.Interrupt]) hsome
  | terminateProcess =>
    simp only [serve, terminateProcess, Prog.wp_bind]
    refine does_nuke fun c' hc' => ?_
    simp only [Prog.wp_bind, does_modifyGlobals, Prog.wp_pure]
    exact .die (hc'.trans hk) (hcur ▸ hp) trivial
  | verhogen =>
    simp only [serve, verhogen, Prog.wp_bind, does_globals, Prog.wp_ite, does_addMem]
    split
    · exact .stop (.inr rfl)
    · split
      · simp only [does_store]
        intro b st _
        split
        · exact .stop (.inr rfl)
        · simp only [Prog.wp_bind, does_store]
          intro _ st' _ _ st'' _
          exact does_stay hk (by simp [SysCall.request, Request.Interrupt]) hsome
      · exact does_stay hk (by simp [SysCall.request, Request.Interrupt]) hsome
  | passeren =>
    simp only [serve, passeren, Prog.wp_bind, does_globals, Prog.wp_ite, does_addMem]
    split
    · exact .stop (.inr rfl)
    · split
      · refine does_blockCurrent _ fun c' hc' => ?_
        exact .block (hk ▸ hc') (by simp [SysCall.request, Request.Blocks]) hsome
      · exact does_stay hk (by simp [SysCall.request, Request.Interrupt]) hsome
  | sesv =>
    simp only [serve, sysFiveHandle, Prog.wp_bind, does_globals, hold]
    rw [old.afterCall_sReg (by decide)]
    exact does_sysFiveFrom _ _ hk hp hcur hareas fun _ ht => .inr ht
  | getCpuTime =>
    rw [serve, getCpuTime, Prog.wp_bind]
    refine does_chargeTime fun c₁ hc₁ => ?_
    simp only [Prog.wp_bind, does_data, does_setReturn, does_modifyClock]
    refine does_headBackHome fun _ => ?_
    rw [hc₁, hk]
    exact .time hsome
  | waitForClock =>
    simp only [serve, waitForClock, Prog.wp_bind, does_globals, Prog.wp_ite, does_addMem]
    split
    · refine does_blockCurrent _ fun c' hc' => ?_
      simp only [Prog.wp_bind, does_modifyGlobals, Prog.wp_pure]
      exact .block (hk ▸ hc') (by simp [SysCall.request, Request.Blocks]) hsome
    · exact .stop (.inl rfl)
  | waitForIo =>
    simp only [serve, waitForIo, Prog.wp_bind, does_globals, Prog.wp_ite, does_addMem]
    split
    · exact .stop (.inr rfl)
    · split
      · refine does_blockCurrent _ fun c' hc' => ?_
        simp only [Prog.wp_bind, does_modifyGlobals, Prog.wp_pure]
        exact .block (hk ▸ hc') (by simp [SysCall.request, Request.Blocks]) hsome
      · simp only [does_setReturn]
        exact does_stay hk (by simp [SysCall.request, Request.Interrupt]) hsome

/-- What `sysCallHandler` does to the clock. -/
theorem does_sysCallHandler {old : State} (hk : c.clock = k) (hcur : c.currentProcess = cur)
    (hareas : c.store.trap = areas) (hold : c.sysCallOld = old) :
    (sysCallHandler (n := n)).wp NucOp.does (Tallied areas cur k (Trap.sysCall old).request) c := by
  simp only [sysCallHandler, Prog.wp_bind, does_globals, does_modifyGlobals, hold]
  split
  · exact .stop (.inr rfl)
  · rename_i p hp
    have hcpsr : (old.setReg sPc (old.sReg sPc + 8)).sReg sCpsr = old.sReg sCpsr :=
      old.afterCall_sReg (by decide)
    simp only [Prog.wp_bind, does_setState, hcpsr, Trap.request]
    by_cases hsys : old.sReg sCpsr &&& systemMode = systemMode
    · rw [if_pos hsys, if_pos hsys]
      cases SysCall.ofNum (old.sReg sA1) with
      | none => exact does_passUpOrDie .sysTrap hk hcur hareas
      | some call => exact does_serve call hk hp hcur hareas rfl
    · rw [if_neg hsys, if_neg hsys, Prog.wp_ite]
      split
      · simp only [Prog.wp_bind, does_modifyGlobals]
        exact does_passUpOrDie .progTrap hk hcur hareas
      · exact does_passUpOrDie .sysTrap hk hcur hareas

end

/-! ### Interrupts -/

section

variable {cur : Option (Fin n)} {k : Clock}

omit [Layout] in
/-- The end of an interrupt. -/
theorem does_returnFromInterrupt (hcur : c.currentProcess = cur)
    (h : Tally areas cur k r (.home cur) (c.clock.resumeIf cur)) :
    (returnFromInterrupt (n := n)).wp NucOp.does (Tallied areas cur k r) c := by
  simp only [returnFromInterrupt, Prog.wp_bind, does_globals]
  split
  · rename_i p hp
    obtain rfl : cur = some p := hcur.symm.trans hp
    simp only [Prog.wp_bind, does_modifyClock, Prog.wp_pure]
    exact ⟨h, fun _ => by simp [hp]⟩
  · rename_i hp
    obtain rfl : cur = none := hcur.symm.trans hp
    exact ⟨h, fun hldst => by cases hldst⟩

/-- The loop of a tick does not look at the clock. -/
theorem does_tickLoop {fuel : ℕ} {Q : Unit → Nucleus n → Prop}
    (h : ∀ c' : Nucleus n, c'.clock = c.clock → c'.currentProcess = c.currentProcess → Q () c') :
    (tickLoop (n := n) fuel).wp NucOp.does Q c := by
  induction fuel generalizing c with
  | zero =>
    intro b s' hrun
    cases hrun
  | succ fuel ih =>
    simp only [tickLoop, Prog.wp_bind, does_store]
    intro b st _
    split
    · exact h _ rfl rfl
    · simp only [Prog.wp_bind, does_store, does_modifyGlobals]
      intro _ st' _ _ st'' _
      exact ih fun c' hc' hcur' => h c' hc' hcur'

/-- What the timer branch does to the clock. -/
theorem does_timerInterrupt (hk : c.clock = k.chargeIf cur) (hcur : c.currentProcess = cur) :
    (timerInterrupt (n := n)).wp NucOp.does (Tallied areas cur k .timer) c := by
  simp only [timerInterrupt, Prog.wp_bind, does_globals, Prog.wp_ite]
  split
  · rename_i hdue
    have hdue : (k.chargeIf cur).Due := hk ▸ hdue
    refine does_tickLoop fun c' hc' hcur' => ?_
    simp only [Prog.wp_bind, does_modifyGlobals, does_setTIMER, does_modifyClock]
    refine does_returnFromInterrupt (hcur'.trans hcur) ?_
    have htick : Tally areas cur k .timer (.home cur) ((k.chargeIf cur).tick.resumeIf cur) :=
      .tick hdue
    rw [← hk] at htick
    simp only [Globals.setMem, hc']
    exact htick
  · rename_i hdue
    have hdue : ¬ (k.chargeIf cur).Due := hk ▸ hdue
    have hquantum : Tally areas cur k .timer .getNewJob (k.chargeIf cur).reload := .quantum hdue
    rw [← hk] at hquantum
    split
    · simp only [Prog.wp_bind, does_store, does_modifyGlobals, does_setTIMER, Prog.wp_pure]
      intro _ st _
      exact ⟨hquantum, fun hldst => by cases hldst⟩
    · simp only [Prog.wp_bind, Prog.wp_pure, does_setTIMER]
      exact ⟨hquantum, fun hldst => by cases hldst⟩

omit [Layout] in
/-- What the branches of the devices do to the clock. -/
theorem does_device {i : ℕ} {status : Word} {keep : Bool} (hk : c.clock = k.chargeIf cur)
    (hcur : c.currentProcess = cur) :
    (returnFromInterrupt (n := n)).wp NucOp.does (Tallied areas cur k (.device i status keep)) c :=
  does_returnFromInterrupt hcur (hk ▸ .device i status keep)

theorem does_handleTerminal {devNumber i : ℕ} {status : Word} (hk : c.clock = k.chargeIf cur)
    (hcur : c.currentProcess = cur) :
    (handleTerminal (n := n) devNumber).wp NucOp.does
      (Tallied areas cur k (.device i status false)) c := by
  simp only [handleTerminal, Prog.wp_bind, does_globals, Prog.wp_ite, does_addMem]
  generalize decide ((c.devReg (4 * devPerInt + devNumber)).dData0 &&& 0x0F = ready) = receive
  generalize (if receive then 4 * devPerInt + devNumber
    else 4 * devPerInt + devNumber + devPerInt) = semAdd
  split
  · exact .stop (.inr rfl)
  · split
    · simp only [does_store]
      intro b st _
      split
      · simp only [wakeIo, modifyDev, Prog.wp_bind, does_setReturn, does_modifyGlobals, does_store]
        intro _ st' _ _ st'' _
        exact does_device hk hcur
      · exact does_device hk hcur
    · exact does_device hk hcur

theorem does_deviceInterrupt {lineNum devNum i : ℕ} {status : Word} (hk : c.clock = k.chargeIf cur)
    (hcur : c.currentProcess = cur) :
    (deviceInterrupt (n := n) lineNum devNum).wp NucOp.does
      (Tallied areas cur k (.device i status true)) c := by
  simp only [deviceInterrupt, Prog.wp_bind, does_globals, Prog.wp_ite, does_addMem]
  split
  · exact .stop (.inr rfl)
  · split
    · simp only [does_store]
      intro b st _
      split
      · simp only [wakeIo, modifyDev, Prog.wp_bind, does_setReturn, does_modifyGlobals, does_store]
        intro _ st' _ _ st'' _
        exact does_device hk hcur
      · simp only [modifyDev, Prog.wp_bind, does_modifyGlobals]
        exact does_device hk hcur
    · simp only [modifyDev, does_modifyGlobals]
      exact does_device hk hcur

/-- What the branches of `interruptHandler` do to the clock. -/
theorem does_interruptBranch {old : State} {bitmap : ℕ → Word} {devReg : ℕ → Device}
    (hk : c.clock = k.chargeIf cur) (hcur : c.currentProcess = cur) :
    (interruptBranch (n := n) old bitmap).wp NucOp.does
      (Tallied areas cur k (interruptRequest old bitmap devReg)) c := by
  rw [interruptRequest, interruptBranch]
  by_cases htimer : pendingOn old 0x04
  · rw [if_pos htimer, if_pos htimer]
    exact does_timerInterrupt hk hcur
  · rw [if_neg htimer, if_neg htimer]
    cases interruptLine old with
    | none => exact .stop (.inr rfl)
    | some lineNum =>
      by_cases hterm : lineNum = 7
      · simp only [if_pos hterm]
        split
        · exact does_handleTerminal hk hcur
        · exact does_handleTerminal hk hcur
      · simp only [if_neg hterm]
        exact does_deviceInterrupt hk hcur

/-- What `interruptHandler` does to the clock. -/
theorem does_interruptHandler {old : State} {bitmap : ℕ → Word} (devReg : ℕ → Device)
    (hk : c.clock = k) (hcur : c.currentProcess = cur) (hold : c.intOld = old)
    (hbitmap : c.intBitmap = bitmap) :
    (interruptHandler (n := n)).wp NucOp.does
      (Tallied areas cur k (interruptRequest old bitmap devReg)) c := by
  rw [← old.afterInterrupt_request]
  subst hk hcur
  simp only [interruptHandler, Prog.wp_bind, does_globals, does_modifyGlobals, hold, hbitmap]
  split
  · rename_i p hp
    rw [Prog.wp_bind]
    refine does_chargeTime fun c₁ hc₁ => ?_
    have hcur₁ : c₁.currentProcess = c.currentProcess := by rw [hc₁]
    simp only [Prog.wp_bind, does_setState]
    refine does_interruptBranch ?_ hcur₁
    rw [Clock.chargeIf, hp]
    exact congrArg Globals.clock hc₁
  · rename_i hp
    refine does_interruptBranch ?_ rfl
    rw [Clock.chargeIf, hp]
    rfl

/-- What a handler does to the clock, from its entry on. -/
theorem does_handle (t : Trap) (todIn todOut : ℤ) :
    (t.handle todIn todOut).wp NucOp.does (Tallied c.store.trap c.currentProcess
      (c.clock.enter todIn todOut) t.request) c := by
  simp only [Trap.handle, Prog.wp_bind, does_modifyGlobals, does_modifyClock]
  cases t with
  | sysCall old => exact does_sysCallHandler rfl rfl rfl rfl
  | progTrap old => exact does_passUpOrDie .progTrap rfl rfl rfl
  | tlbTrap old => exact does_passUpOrDie .tlbTrap rfl rfl rfl
  | interrupt old bitmap devReg => exact does_interruptHandler devReg rfl rfl rfl rfl

end

/-! ## The scheduler -/

omit [Layout] in
/-- `removeProcQ` removes the process behind the tail. -/
theorem removeProcQ_head {st st' : Store n} {tp b tail : Option (Fin n)}
    (h : (removeProcQ tp).run st = some ((b, tail), st')) :
    b = tp.bind st.pNext ∧ b.isSome = tp.isSome ∧ (tp = none → tail = none) := by
  cases tp with
  | none =>
    obtain ⟨hb, -⟩ := Prod.mk.inj (Option.some.inj h)
    obtain ⟨rfl, rfl⟩ := Prod.mk.inj hb
    exact ⟨rfl, rfl, fun _ => rfl⟩
  | some t =>
    suffices hb : b = st.pNext t ∧ b.isSome from ⟨hb.1, hb.2, fun h => by cases h⟩
    cases hp : st.pNext t with
    | none => simp [removeProcQ, hp] at h
    | some p =>
      have h : (outProcQ (some t) p).run st = some ((b, tail), st') := by
        simpa [removeProcQ, hp] using h
      by_cases hpt : p = t
      · subst hpt
        have hres : (some p = b ∧ none = tail) ∧ st = st' := by simpa [outProcQ, hp] using h
        simp [← hres.1.1]
      · -- the search finds `p` at once
        obtain ⟨m, rfl⟩ : ∃ m, n = m + 1 := ⟨n - 1, by have := t.isLt; omega⟩
        simp [outProcQ, hpt, outProcQLoop, hp, setNext, setPrev, Option.bind_eq_some_iff] at h
        obtain ⟨-, -, -, -, ⟨rfl, -⟩, -⟩ := h
        exact ⟨rfl, rfl⟩

omit [Layout] in
/-- The ready queue is empty when `getNewJob` finds nobody, and then it stays so. -/
theorem removeReady_run {st st' : Store n} {b : Option (Fin n)}
    (h : (StoreOp.sem _ (.removeReady : StoreOp n _)).run st = some (b, st')) :
    b.isSome = st.readyQueue.isSome ∧ (b = none → st'.readyQueue = none) := by
  change ((removeProcQ st.readyQueue).run st).bind _ = _ at h
  obtain ⟨⟨⟨b', tail⟩, st₁⟩, hrun, hrest⟩ := Option.bind_eq_some_iff.mp h
  obtain ⟨rfl, rfl⟩ := Prod.mk.inj (Option.some.inj hrest)
  obtain ⟨-, hsome, htail⟩ := removeProcQ_head hrun
  refine ⟨hsome, fun hb => htail ?_⟩
  rw [hb] at hsome
  exact Option.not_isSome_iff_eq_none.mp (by simp [← hsome])

omit [Layout] in
/-- What `processJob` does to the clock. -/
theorem does_processJob {Q : Verdict → Nucleus n → Prop}
    (h : ∀ c' : Nucleus n, c'.clock = c.clock.dispatch → c'.currentProcess = some p → Q .ldst c') :
    (processJob p).wp NucOp.does Q c := by
  rw [processJob, Prog.wp_bind, does_modifyGlobals, Prog.wp_bind, does_modifyClock, Prog.wp_bind,
    does_modifyClock, Prog.wp_bind, does_globals]
  -- the clock before the timer is loaded
  generalize hc₁ : ({ c with toGlobals := _ } : Nucleus n) = c₁
  have hclock : c₁.clock = { c.clock.restart with timeLeft := max 0 c.clock.timeLeft } := by
    have hleft : (if c.clock.timeLeft < 0 then { c.clock.restart with timeLeft := 0 }
        else c.clock.restart) = { c.clock.restart with timeLeft := max 0 c.clock.timeLeft } := by
      split
      · rw [max_eq_left (by omega)]
      · rw [max_eq_right (by omega)]
        rfl
    rw [← hc₁]
    exact hleft
  have hcur : c₁.currentProcess = some p := by rw [← hc₁]
  have hdispatch : c.clock.dispatch = if c₁.clock.timeLeft < quantum then
      { c₁.clock with timer := c₁.clock.timeLeft, timerAt := c₁.clock.todOut, intTimerFlag := true }
      else { c₁.clock with timer := quantum, timerAt := c₁.clock.todOut } := by
    rw [hclock]
    rfl
  simp only [Prog.wp_ite, Prog.wp_bind, does_setTIMER, does_modifyClock, Prog.wp_pure]
  split
  · rename_i hlt
    rw [if_pos hlt] at hdispatch
    exact h _ hdispatch.symm hcur
  · rename_i hlt
    rw [if_neg hlt] at hdispatch
    exact h _ hdispatch.symm hcur

omit [Layout] in
/-- What `getNewJob` does to the clock, and what it has found in the ready queue. -/
theorem does_getNewJob :
    (Jaeos.getNewJob (n := n)).wp NucOp.does (fun v c' => Load c.clock v c'.clock ∧
      (v = .ldst → c'.currentProcess.isSome ∧ c.store.readyQueue.isSome) ∧
      (v = .wait → c'.currentProcess = none ∧ c'.store.readyQueue = none)) c := by
  simp only [getNewJob, Prog.wp_bind, does_store]
  intro b st hrun
  obtain ⟨hsome, hnone⟩ := removeReady_run hrun
  split
  · simp only [Prog.wp_bind, does_modifyGlobals, does_globals, Prog.wp_ite, does_setTIMER,
      does_modifyClock, Prog.wp_pure]
    split
    · exact ⟨.stop (by simp), by simp, by simp⟩
    · split
      · split
        · exact ⟨.stop (by simp), by simp, by simp⟩
        · split
          · exact ⟨.idle, by simp, fun _ => ⟨trivial, hnone rfl⟩⟩
          · exact ⟨.stop (by simp), by simp, by simp⟩
      · exact ⟨.stop (by simp), by simp, by simp⟩
  · refine does_processJob fun c' hc' hcur => ⟨?_, fun _ => ⟨by simp [hcur], ?_⟩, by simp⟩
    · rw [hc']
      exact .dispatch
    · rw [← hsome]
      rfl

/-! ## The ready queue while nobody runs -/

omit [Layout] in
/-- A process that `removeBlocked` removes is seen by `headBlocked`. -/
theorem headBlocked_of_removeBlocked {st st' : Store n} {a : ℕ} {p : Fin n}
    (h : (removeBlocked a).run st = some (some p, st')) :
    ∃ q st₁, (headBlocked a).run st = some (some q, st₁) := by
  rw [removeBlocked, StateT.run_bind] at h
  obtain ⟨⟨d, st₁⟩, hprev, h⟩ := Option.bind_eq_some_iff.mp h
  rw [StateT.run_bind] at h
  obtain ⟨⟨found, st₂⟩, hfound, h⟩ := Option.bind_eq_some_iff.mp h
  cases found with
  | none => cases h
  | some d' =>
    have htail : ∃ q, ((headProcQ (st₂.sProcQ d')).run st₂) = some (some q, st₂) := by
      obtain ⟨⟨⟨b, tail⟩, st₃⟩, hrun, h⟩ := Option.bind_eq_some_iff.mp h
      cases htp : st₂.sProcQ d' with
      | none =>
        rw [htp] at hrun
        obtain ⟨hb, -⟩ := Prod.mk.inj (Option.some.inj hrun)
        obtain ⟨rfl, rfl⟩ := Prod.mk.inj hb
        obtain ⟨⟨u, st₄⟩, -, h⟩ := Option.bind_eq_some_iff.mp h
        cases h
      | some t =>
        rw [htp] at hrun
        cases hnext : st₂.pNext t with
        | none =>
          change ((liftM (st₂.pNext t) : StoreM n _) >>= outProcQ (some t)).run st₂ = _ at hrun
          rw [hnext] at hrun
          cases hrun
        | some q => exact ⟨q, by simp [headProcQ, hnext]⟩
    obtain ⟨q, hq⟩ := htail
    refine ⟨q, st₂, ?_⟩
    rw [headBlocked, StateT.run_bind]
    refine Option.bind_eq_some_iff.mpr ⟨_, hprev, ?_⟩
    rw [StateT.run_bind]
    exact Option.bind_eq_some_iff.mpr ⟨_, hfound, hq⟩

/-- A device interrupt on the semaphore `i` would wake a process. -/
def Nucleus.WakesOn (c : Nucleus n) (i : ℕ) : Prop :=
  (c.mem (semArr i) + 1).toInt ≤ 0 ∧ (((headBlocked (semArr i)).run c.store).bind Prod.fst).isSome

instance (c : Nucleus n) (i : ℕ) : Decidable (c.WakesOn i) := inferInstanceAs (Decidable (_ ∧ _))

omit [Layout] in
theorem does_returnFromInterrupt_idle (hready : c.store.readyQueue = none) :
    (returnFromInterrupt (n := n)).wp NucOp.does (fun _ c' => c'.store.readyQueue = none) c := by
  simp only [returnFromInterrupt, Prog.wp_bind, does_globals]
  split
  · simp only [Prog.wp_bind, does_modifyClock, Prog.wp_pure]
    exact hready
  · exact hready

omit [Layout] in
/-- A device interrupt that wakes nobody leaves the ready queue empty. -/
theorem does_removeBlocked_idle {a : ℕ} {Q : Option (Fin n) → Nucleus n → Prop}
    (hready : c.store.readyQueue = none)
    (hnobody : ¬ (((headBlocked a).run c.store).bind Prod.fst).isSome)
    (h : ∀ st, st.readyQueue = none → Q none { c with store := st }) :
    (store (.removeBlocked a)).wp NucOp.does Q c := by
  rw [does_store]
  intro b st hrun
  cases b with
  | none => exact h st ((Blind.readyQueue.queue.removeBlocked _ _ _ _ hrun).trans hready)
  | some p =>
    obtain ⟨q, st₁, hq⟩ := headBlocked_of_removeBlocked hrun
    exact absurd (by rw [hq]; rfl) hnobody

theorem does_handleTerminal_idle {devNumber i : ℕ} (hready : c.store.readyQueue = none)
    (hi : i = if (c.devReg (4 * devPerInt + devNumber)).dData0 &&& 0x0F = ready
      then 4 * devPerInt + devNumber else 4 * devPerInt + devNumber + devPerInt)
    (hwakes : ¬ c.WakesOn i) :
    (handleTerminal (n := n) devNumber).wp NucOp.does
    (fun _ c' => c'.store.readyQueue = none) c := by
  simp only [handleTerminal, Prog.wp_bind, does_globals, Prog.wp_ite, does_addMem,
    decide_eq_true_eq,
    ← hi]
  split
  · exact hready
  · split
    · rename_i hneg
      have hneg : (c.mem (semArr i) + 1).toInt ≤ 0 := by simpa [Globals.setMem] using hneg
      refine does_removeBlocked_idle hready (fun hp => hwakes ⟨hneg, hp⟩) fun st hst => ?_
      exact does_returnFromInterrupt_idle hst
    · exact does_returnFromInterrupt_idle hready

theorem does_deviceInterrupt_idle {lineNum devNum i : ℕ} (hready : c.store.readyQueue = none)
    (hi : i = devPerInt * (lineNum - 3) + devNum) (hwakes : ¬ c.WakesOn i) :
    (deviceInterrupt (n := n) lineNum devNum).wp NucOp.does
      (fun _ c' => c'.store.readyQueue = none) c := by
  simp only [deviceInterrupt, modifyDev, Prog.wp_bind, does_globals, Prog.wp_ite, does_addMem,
    does_modifyGlobals, ← hi]
  split
  · exact hready
  · split
    · rename_i hneg
      have hneg : (c.mem (semArr i) + 1).toInt ≤ 0 := by simpa [Globals.setMem] using hneg
      refine does_removeBlocked_idle hready (fun hp => hwakes ⟨hneg, hp⟩) fun st hst => ?_
      simp only [Prog.wp_bind, does_modifyGlobals]
      exact does_returnFromInterrupt_idle hst
    · exact does_returnFromInterrupt_idle hready

/-- The ready queue stays empty when nobody runs and a device interrupt wakes nobody. -/
theorem does_handle_idle {t : Trap} {i : ℕ} {status : Word} {keep : Bool} (todIn todOut : ℤ)
    (ht : t.request = .device i status keep) (hready : c.store.readyQueue = none)
    (hcur : c.currentProcess = none) (hwakes : ¬ c.WakesOn i) :
    (t.handle todIn todOut).wp NucOp.does (fun _ c' => c'.store.readyQueue = none) c := by
  simp only [Trap.handle, Prog.wp_bind, does_modifyGlobals, does_modifyClock]
  cases t with
  | sysCall old =>
    simp only [Trap.handler, Trap.enter, sysCallHandler, Prog.wp_bind, does_globals,
      does_modifyGlobals, hcur, Prog.wp_pure]
    exact hready
  | progTrap old | tlbTrap old =>
    simp only [Trap.handler, Trap.enter, progTrpHandler, tlbHandler, passUpOrDie, Prog.wp_bind,
      does_globals, hcur, Prog.wp_pure]
    exact hready
  | interrupt old bitmap devReg =>
    have ht : interruptRequest old bitmap devReg = .device i status keep := ht
    rw [← old.afterInterrupt_request, interruptRequest] at ht
    simp only [Trap.handler, Trap.enter, interruptHandler, interruptBranch, Prog.wp_bind,
      does_globals, does_modifyGlobals, hcur]
    rw [State.afterInterrupt] at ht
    by_cases htimer : pendingOn (old.setReg sPc (old.sReg sPc - 4)) 0x04
    · rw [if_pos htimer] at ht
      cases ht
    · rw [if_neg htimer] at ht ⊢
      cases hline : interruptLine (old.setReg sPc (old.sReg sPc - 4)) with
      | none =>
        rw [hline] at ht
        cases ht
      | some lineNum =>
        simp only [hline] at ht ⊢
        by_cases hterm : lineNum = 7
        · simp only [if_pos hterm] at ht ⊢
          refine does_handleTerminal_idle (i := i) hready ?_ hwakes
          simp only
          split at ht
          · rename_i hreceive
            rw [if_pos hreceive]
            exact (Request.device.inj ht).1.symm
          · rename_i hreceive
            rw [if_neg hreceive]
            exact (Request.device.inj ht).1.symm
        · simp only [if_neg hterm] at ht ⊢
          exact does_deviceInterrupt_idle hready (Request.device.inj ht).1.symm hwakes

/-! ## A step -/

/-- How the end of a handler leaves the machine. -/
def Ended (exit : Exit) (nuc : Nucleus n) (c : Config n) : Prop :=
  match exit with
  | .ldst => c.mode = .running ∧ c.nuc = nuc
  | .getNewJob => ∃ v, (Jaeos.getNewJob.run NucOp.sem).run nuc = some (v, c.nuc) ∧ c.mode = v.mode
  | .panic => c.mode = .panicked
  | .undefined => c.mode = .undefined

omit [Layout] in
/-- What follows a handler. -/
theorem Exit.finish_run {exit : Exit} {nuc nuc' : Nucleus n} {mode : Mode}
    (h : (exit.finish.run NucOp.sem).run nuc = some (mode, nuc')) :
        Ended exit nuc ⟨mode, nuc'⟩ := by
  cases exit with
  | ldst =>
    obtain ⟨rfl, rfl⟩ := Prod.mk.inj (Option.some.inj h)
    exact ⟨rfl, rfl⟩
  | panic | undefined =>
    obtain ⟨rfl, rfl⟩ := Prod.mk.inj (Option.some.inj h)
    exact rfl
  | getNewJob =>
    change ((Jaeos.getNewJob >>= fun v => pure v.mode).run NucOp.sem).run nuc = _ at h
    rw [Prog.run_bind, StateT.run_bind] at h
    obtain ⟨⟨v, nuc₁⟩, hjob, hpure⟩ := Option.bind_eq_some_iff.mp h
    obtain ⟨rfl, rfl⟩ := Prod.mk.inj (Option.some.inj hpure)
    exact ⟨v, hjob, rfl⟩

/-- A reaction is a handler and its end. -/
theorem Config.react_ended {c : Config n} {t : Trap} {todIn todOut : ℤ} {exit : Exit} {mode : Mode}
    {nuc' : Nucleus n} (hreact : c.react t todIn todOut = some ((exit, mode), nuc')) :
    ∃ nuc, ((t.handle todIn todOut).run NucOp.sem).run c.nuc = some (exit, nuc) ∧
      Ended exit nuc ⟨mode, nuc'⟩ := by
  rw [Config.react, Trap.react, Prog.run_bind, StateT.run_bind] at hreact
  obtain ⟨⟨exit', nuc⟩, hhandle, hrest⟩ := Option.bind_eq_some_iff.mp hreact
  rw [Prog.run_bind, StateT.run_bind] at hrest
  obtain ⟨⟨mode', nuc''⟩, hfinish, hpure⟩ := Option.bind_eq_some_iff.mp hrest
  obtain ⟨hpair, rfl⟩ := Prod.mk.inj (Option.some.inj hpure)
  obtain ⟨rfl, rfl⟩ := Prod.mk.inj hpair
  exact ⟨nuc, hhandle, Exit.finish_run hfinish⟩

/-- A step on a trap is a reaction. -/
theorem Config.step_react {c c' : Config n} {t : Trap} {todIn todOut : ℤ}
    (hstep : c.step (.trap t todIn todOut) = some c') :
    ∃ exit, c.react t todIn todOut = some ((exit, c'.mode), c'.nuc) := by
  by_cases henabled : t.Enabled c.mode
  · rw [Config.step, if_pos henabled] at hstep
    obtain ⟨⟨⟨exit, mode⟩, nuc'⟩, hreact, rfl⟩ := Option.map_eq_some_iff.mp hstep
    exact ⟨exit, hreact⟩
  · simp [Config.step, henabled] at hstep

/-- What a trap that ends in a live state has done to the clock. -/
theorem Config.step_tally {c c' : Config n} {t : Trap} {todIn todOut : ℤ}
    (hstep : c.step (.trap t todIn todOut) = some c') (hlive : c'.mode.Live) :
    ∃ exit nuc, ((t.handle todIn todOut).run NucOp.sem).run c.nuc = some (exit, nuc) ∧
      Ended exit nuc c' ∧ (exit = .ldst ∨ exit = .getNewJob) ∧
      Tally c.nuc.store.trap c.nuc.currentProcess (c.nuc.clock.enter todIn todOut) t.request exit
        nuc.clock ∧ (exit = .ldst → nuc.currentProcess.isSome) := by
  obtain ⟨exit, hreact⟩ := Config.step_react hstep
  obtain ⟨nuc, hhandle, hended⟩ := Config.react_ended hreact
  obtain ⟨htally, hcur⟩ := Prog.of_liberal (does_handle t todIn todOut) hhandle
  refine ⟨exit, nuc, hhandle, hended, ?_, htally, hcur⟩
  cases exit with
  | ldst => exact .inl rfl
  | getNewJob => exact .inr rfl
  | panic =>
    rw [show c'.mode = _ from hended] at hlive
    simp [Mode.Live] at hlive
  | undefined =>
    rw [show c'.mode = _ from hended] at hlive
    simp [Mode.Live] at hlive

omit [Layout] in
/-- What a call of `getNewJob` has done. -/
theorem getNewJob_load {nuc nuc' : Nucleus n} {v : Verdict}
    (h : (Jaeos.getNewJob.run NucOp.sem).run nuc = some (v, nuc')) : Load nuc.clock v nuc'.clock ∧
      (v = .ldst → nuc'.currentProcess.isSome ∧ nuc.store.readyQueue.isSome) ∧
      (v = .wait → nuc'.currentProcess = none ∧ nuc'.store.readyQueue = none) :=
  Prog.of_liberal (Q := fun v c' => Load nuc.clock v c'.clock ∧
    (v = .ldst → c'.currentProcess.isSome ∧ nuc.store.readyQueue.isSome) ∧
    (v = .wait → c'.currentProcess = none ∧ c'.store.readyQueue = none)) does_getNewJob h

/-! ## The boot -/

theorem does_prepare (b : Boot n) : b.prepare.wp NucOp.does
    (fun exit c' => exit = .undefined ∨ exit = .getNewJob ∧ c'.clock = c.clock.boot) c := by
  simp only [Boot.prepare, Prog.wp_bind, does_modifyGlobals, does_modifyClock, does_store]
  intro start st _
  split
  · exact .inl rfl
  · simp only [Prog.wp_bind, does_setState, does_modifyClock, does_globals, does_setTIMER,
      does_modifyGlobals, does_store, Prog.wp_pure]
    exact fun _ _ _ => .inr ⟨trivial, rfl⟩

/-- The clock when `main` calls the scheduler. -/
theorem Boot.setup_clock {b : Boot n} {exit : Exit} {nuc : Nucleus n}
    (hsetup : b.setup = some (exit, nuc)) :
    exit = .undefined ∨ exit = .getNewJob ∧ nuc.clock = b.vars.clock.boot := by
  obtain ⟨⟨u, st⟩, hinit, hrun⟩ := Option.bind_eq_some_iff.mp hsetup
  have hclock := Prog.of_liberal (Q := fun exit c' => exit = .undefined ∨
    exit = .getNewJob ∧ c'.clock = b.vars.clock.boot) (does_prepare b) hrun
  exact hclock

/-- The first state of a run comes from `main` and its call of the scheduler. -/
theorem Boot.config_setup {b : Boot n} {c : Config n} (hb : b.config = some c) :
    ∃ exit nuc, b.setup = some (exit, nuc) ∧ Ended exit nuc c := by
  obtain ⟨⟨u, st⟩, hinit, hrest⟩ := Option.bind_eq_some_iff.mp hb
  obtain ⟨⟨mode, nuc'⟩, hmain, hc⟩ := Option.bind_eq_some_iff.mp hrest
  obtain rfl := Option.some.inj hc
  rw [Boot.main, Prog.run_bind, StateT.run_bind] at hmain
  obtain ⟨⟨exit, nuc⟩, hprepare, hfinish⟩ := Option.bind_eq_some_iff.mp hmain
  refine ⟨exit, nuc, ?_, Exit.finish_run hfinish⟩
  rw [Boot.setup, hinit]
  exact hprepare

end Jaeos
