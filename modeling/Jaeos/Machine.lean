import Jaeos.Scheduler
import Jaeos.Interrupts
import Jaeos.Lib.Transition

/-!
# The machine

The nucleus reacts to what happens outside it: the current process stores a
word, makes a system call or traps, or an interrupt arrives. Each reaction runs
a handler from its entry to the instruction that hands control back. A run of the
machine is any sequence of such events from a boot.
-/

namespace Jaeos

variable {n : ℕ}

/-- What the processor does when the nucleus is not running. -/
inductive Mode where
  /-- it runs the current process -/
  | running
  /-- it waits for an interrupt -/
  | waiting
  /-- `HALT` -/
  | halted
  /-- `PANIC` -/
  | panicked
  /-- `getNewJob` has returned to its caller -/
  | returned
  /-- a null pointer was followed, or `semaphoreArray` indexed out of bounds -/
  | undefined
  deriving DecidableEq

/-- Control has been handed back, to a process or to `WAIT`. -/
def Mode.Live (m : Mode) : Prop := m = .running ∨ m = .waiting

instance (m : Mode) : Decidable m.Live := inferInstanceAs (Decidable (_ ∨ _))

/-- The mode after `getNewJob`. -/
def Verdict.mode : Verdict → Mode
  | .ldst => .running
  | .halt => .halted
  | .panic => .panicked
  | .wait => .waiting
  | .returns => .returned

/-- What enters the nucleus, with the area the hardware fills. -/
inductive Trap where
  /-- a system call -/
  | sysCall (old : State)
  /-- a program trap -/
  | progTrap (old : State)
  /-- a TLB trap -/
  | tlbTrap (old : State)
  /-- an interrupt, with the interrupting devices bit map and the device registers -/
  | interrupt (old : State) (bitmap : ℕ → Word) (devReg : ℕ → Device)

namespace Trap

/-- Only an interrupt ends `WAIT`. -/
def Enabled : Trap → Mode → Prop
  | .interrupt _ _ _, m => m.Live
  | _, m => m = .running

instance (t : Trap) (m : Mode) : Decidable (t.Enabled m) :=
  match t with
  | .sysCall _ | .progTrap _ | .tlbTrap _ => inferInstanceAs (Decidable (m = .running))
  | .interrupt _ _ _ => inferInstanceAs (Decidable m.Live)

/-- What the hardware stores on the way in. -/
def enter (t : Trap) (g : Globals n) : Globals n :=
  match t with
  | .sysCall old => { g with sysCallOld := old }
  | .progTrap old => { g with progTrpOld := old }
  | .tlbTrap old => { g with tlbOld := old }
  | .interrupt old bitmap devReg => { g with intOld := old, intBitmap := bitmap, devReg := devReg }

variable [Layout]

/-- The handler in the new area. -/
def handler : Trap → NucM n Exit
  | .sysCall _ => sysCallHandler
  | .progTrap _ => progTrpHandler
  | .tlbTrap _ => tlbHandler
  | .interrupt _ _ _ => interruptHandler

end Trap

/-- Where a handler's end leaves the processor. -/
def Exit.finish : Exit → NucM n Mode
  | .ldst => return .running
  | .getNewJob => Verdict.mode <$> Jaeos.getNewJob
  | .panic => return .panicked
  | .undefined => return .undefined

/-- A state of the machine. -/
structure Config (n : ℕ) where
  /-- what the processor does -/
  mode : Mode
  /-- the nucleus -/
  nuc : Nucleus n

/-- An event of a run. -/
inductive Event where
  /-- a store to memory, by the current process or by a device -/
  | write (a : ℕ) (v : Word)
  /-- an entry of the nucleus, with the time of day when it is entered and when it is left -/
  | trap (t : Trap) (todIn todOut : ℤ)

section

variable [Layout]

/-- A handler, from its entry to its end. -/
def Trap.handle (t : Trap) (todIn todOut : ℤ) : NucM n Exit := do
  modifyGlobals t.enter
  modifyClock fun c => { c with todIn := todIn, todOut := todOut }
  t.handler

/-- A handler, from its entry to the end of the scheduler. -/
def Trap.react (t : Trap) (todIn todOut : ℤ) : NucM n (Exit × Mode) := do
  let exit ← t.handle todIn todOut
  let mode ← exit.finish
  return (exit, mode)

/-- A handler, run on the nucleus. -/
def Config.react (c : Config n) (t : Trap) (todIn todOut : ℤ) :
    Option ((Exit × Mode) × Nucleus n) :=
  ((t.react todIn todOut).run NucOp.sem).run c.nuc

/-- The state after an event, if the event can happen and the handler ends. -/
def Config.step (c : Config n) : Event → Option (Config n)
  | .write a v =>
    if c.mode.Live then
      some { c with nuc := { c.nuc with toGlobals := c.nuc.toGlobals.setMem a v } }
    else none
  | .trap t todIn todOut =>
    if t.Enabled c.mode then
      (c.react t todIn todOut).map fun r => ⟨r.1.2, r.2⟩
    else none

/-! ## Booting (`phase2/initial.c`) -/

/-- What `main` finds: whatever is in its variables, the PCB and descriptor tables, and what
the hardware gives it. -/
structure Boot (n : ℕ) where
  /-- the variables before they are initialised -/
  vars : Globals n
  /-- the tables before they are initialised -/
  tables : Store n
  /-- the PCB table is static, so it starts out as zeros -/
  static : ∀ p, tables.pSemAdd p = null
  /-- what `STST` stores -/
  stst : State
  /-- the address of `test` -/
  test : Word
  /-- `ramtop` -/
  ramtop : Word

/-- `initPcbs`, `initASL` and an empty ready queue. -/
def initStore : StoreM n Unit := do
  initPcbs
  initASL
  modify fun st => { st with readyQueue := mkEmptyProcQ }

/-- The loop of `main` over `semaphoreArray`. -/
def clearSems (mem : ℕ → Word) : ℕ → Word :=
  (List.range maxSema).foldl (fun m i => Function.update m (semArr i) 0) mem

/-- The state the first process starts in. -/
def Boot.startState (b : Boot n) : State :=
  ((b.stst.setReg sPc b.test).setReg sSp (b.ramtop - 2 * 4096)).setReg sCpsr systemMode

/-- `main`, after the tables are initialised and before the scheduler. -/
def Boot.prepare (b : Boot n) : NucM n Exit := do
  modifyGlobals fun g => { g with
    mem := clearSems g.mem
    devStatus := fun i => if i < maxSema then 0 else g.devStatus i
    processCount := 0
    softBlockCount := 0
    currentProcess := none }
  modifyClock fun c => { c with startTOD := 0 }
  match ← store .allocPcb with
  | none => return .undefined
  | some start =>
    setState start b.startState
    modifyClock fun c => { c with timeLeft := intervalTime, intTimerFlag := false }
    setTIMER quantum (← globals).clock.todIn
    modifyGlobals fun g => { g with processCount := g.processCount + 1 }
    store (.insertReady start)
    return .getNewJob

/-- `main`, after the tables are initialised. -/
def Boot.main (b : Boot n) : NucM n Mode := do
  let exit ← b.prepare
  exit.finish

/-- The state in which `main` calls the scheduler. -/
def Boot.setup (b : Boot n) : Option (Exit × Nucleus n) := do
  let (_, st) ← initStore.run b.tables
  (b.prepare.run NucOp.sem).run { b.vars with store := st }

/-- The first state of a run. -/
def Boot.config (b : Boot n) : Option (Config n) := do
  let (_, st) ← initStore.run b.tables
  let (mode, nuc) ← (b.main.run NucOp.sem).run { b.vars with store := st }
  return ⟨mode, nuc⟩

/-- The runs of the machine: the events of a run, each with the state it happened in, the
last one first, and the state they lead to. -/
abbrev Run (tr : List (Config n × Event)) (c : Config n) : Prop :=
  Transition.Run (fun c => ∃ b : Boot n, b.config = some c) (fun c e c' => c.step e = some c') tr c

/-- The runs of the machine from one boot. -/
abbrev Boot.RunsTo (b : Boot n) (tr : List (Config n × Event)) (c : Config n) : Prop :=
  Transition.Run (fun c => b.config = some c) (fun c e c' => c.step e = some c') tr c

theorem Boot.RunsTo.run {b : Boot n} {tr : List (Config n × Event)} {c : Config n}
    (hrun : b.RunsTo tr c) : Run tr c := hrun.mono fun _ h => ⟨b, h⟩

end

end Jaeos
