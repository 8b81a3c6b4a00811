import Jaeos.Machine

/-!
# The operations that the handlers call

An interrupt handler takes processes out of the queues of semaphores and makes them
ready (`NucOp.Interrupting`). Apart from SYS1 and SYS5, no handler hands out a PCB or writes the
areas of one (`NucOp.KeepsAreas`).
-/

namespace Jaeos

variable {n : ℕ}

/-! ## Interrupt handlers -/

/-- The calls of interrupt handlers into `pcb.c` and `asl.c`. -/
def StoreOp.Interrupting : ∀ {β : Type}, StoreOp n β → Prop
  | _, .modifyData f => ∀ d, (f d).trap = d.trap
  | _, .data | _, .semAdd _ | _, .clearSemAdd _ | _, .insertReady _ | _, .removeBlocked _ => True
  | _, _ => False

/-- The operations of interrupt handlers. -/
def NucOp.Interrupting : ∀ β, NucOp n β → Prop
  | _, .globals | _, .modify _ | _, .stuck => True
  | _, .store o => o.Interrupting

namespace Interrupting

open Prog

theorem globals : (Jaeos.globals (n := n)).Only NucOp.Interrupting := .op trivial

theorem modifyGlobals (f : Globals n → Globals n) :
    (Jaeos.modifyGlobals f).Only NucOp.Interrupting := .op trivial

theorem store {β : Type} {o : StoreOp n β} (ho : o.Interrupting) :
    (Jaeos.store o).Only NucOp.Interrupting := .op ho

theorem returnFromInterrupt : (Jaeos.returnFromInterrupt (n := n)).Only NucOp.Interrupting := by
  refine globals.bind fun g => ?_
  split
  · exact (modifyGlobals _).bind fun _ => .pure _
  · exact .pure _

theorem data : (Jaeos.store (n := n) .data).Only NucOp.Interrupting := store trivial

theorem modifyData {f : PcbData n → PcbData n} (hf : ∀ d, (f d).trap = d.trap) :
    (Jaeos.store (.modifyData f)).Only NucOp.Interrupting := store hf

theorem setState (p : Fin n) (st : State) : (Jaeos.setState p st).Only NucOp.Interrupting :=
  modifyData fun _ => rfl

theorem setReturn (p : Fin n) (v : Word) : (Jaeos.setReturn p v).Only NucOp.Interrupting :=
  modifyData fun _ => rfl

theorem chargeTime (p : Fin n) : (Jaeos.chargeTime p).Only NucOp.Interrupting := by
  refine globals.bind fun _ => ?_
  refine (modifyData ?_).bind fun _ => modifyGlobals _
  exact fun _ => rfl

theorem clearSemAdd (p : Fin n) : (Jaeos.store (.clearSemAdd p)).Only NucOp.Interrupting :=
  store trivial

theorem insertReady (p : Fin n) : (Jaeos.store (.insertReady p)).Only NucOp.Interrupting :=
  store trivial

theorem removeBlocked (a : ℕ) : (Jaeos.store (n := n) (.removeBlocked a)).Only NucOp.Interrupting :=
  store trivial

theorem wakeIo (p : Fin n) (status : Word) : (Jaeos.wakeIo p status).Only NucOp.Interrupting := by
  refine (clearSemAdd p).bind fun _ => (setReturn p _).bind fun _ => ?_
  exact (modifyGlobals _).bind fun _ => insertReady p

variable [Layout]

theorem tickLoop (fuel : ℕ) : (Jaeos.tickLoop (n := n) fuel).Only NucOp.Interrupting := by
  induction fuel with
  | zero => exact .op trivial
  | succ fuel ih =>
    refine (removeBlocked _).bind fun r => ?_
    cases r with
    | none => exact .pure _
    | some p =>
      refine (clearSemAdd p).bind fun _ => (modifyGlobals _).bind fun _ => ?_
      exact (insertReady p).bind fun _ => ih

theorem timerInterrupt : (Jaeos.timerInterrupt (n := n)).Only NucOp.Interrupting := by
  refine globals.bind fun g => ?_
  dsimp only
  split
  · refine (tickLoop _).bind fun _ => (modifyGlobals _).bind fun _ => ?_
    exact (modifyGlobals _).bind fun _ => (modifyGlobals _).bind fun _ => returnFromInterrupt
  · refine globals.bind fun g => ?_
    split
    · refine (insertReady _).bind fun _ => (modifyGlobals _).bind fun _ => ?_
      exact (modifyGlobals _).bind fun _ => .pure _
    · exact (modifyGlobals _).bind fun _ => .pure _

theorem handleTerminal (devNumber : ℕ) :
    (Jaeos.handleTerminal (n := n) devNumber).Only NucOp.Interrupting := by
  refine globals.bind fun g => ?_
  dsimp only
  refine .ite (.pure _) ((modifyGlobals _).bind fun _ => globals.bind fun g => ?_)
  refine .ite ((removeBlocked _).bind fun r => ?_) returnFromInterrupt
  cases r with
  | none => exact returnFromInterrupt
  | some p => exact (wakeIo p _).bind fun _ => (modifyGlobals _).bind fun _ => returnFromInterrupt

theorem deviceInterrupt (lineNum devNum : ℕ) :
    (Jaeos.deviceInterrupt (n := n) lineNum devNum).Only NucOp.Interrupting := by
  have hrest : (do
      modifyDev (n := n) (devPerInt * (lineNum - 3) + devNum) fun d => { d with dCommand := ack }
      Jaeos.returnFromInterrupt).Only NucOp.Interrupting :=
    (modifyGlobals _).bind fun _ => returnFromInterrupt
  dsimp only [Jaeos.deviceInterrupt]
  refine .ite (.pure _) (globals.bind fun g => (modifyGlobals _).bind fun _ => ?_)
  refine globals.bind fun g => .ite ((removeBlocked _).bind fun r => ?_) hrest
  cases r with
  | none => exact (modifyGlobals _).bind fun _ => hrest
  | some p => exact (wakeIo p _).bind fun _ => hrest

theorem interruptBranch (old : State) (bitmap : ℕ → Word) :
    (Jaeos.interruptBranch (n := n) old bitmap).Only NucOp.Interrupting := by
  refine .ite timerInterrupt ?_
  cases interruptLine old with
  | none => exact .pure _
  | some lineNum => exact .ite (handleTerminal _) (deviceInterrupt _ _)

theorem interruptHandler : (Jaeos.interruptHandler (n := n)).Only NucOp.Interrupting := by
  refine (modifyGlobals _).bind fun _ => globals.bind fun g => ?_
  dsimp only
  split
  · exact (chargeTime _).bind fun _ => (setState _ _).bind fun _ => interruptBranch _ _
  · exact interruptBranch _ _

end Interrupting

/-! ## Handlers that leave the areas of living processes alone -/

/-- The calls that hand out no PCB and write no areas, except those of a PCB that is freed. -/
def StoreOp.KeepsAreas : ∀ {β : Type}, StoreOp n β → Prop
  | _, .allocPcb => False
  | _, .modifyData f => ∀ d, (f d).trap = d.trap
  | _, _ => True

/-- The operations that hand out no PCB and write no areas, except those of a PCB that is freed. -/
def NucOp.KeepsAreas : ∀ β, NucOp n β → Prop
  | _, .globals | _, .modify _ | _, .stuck => True
  | _, .store o => o.KeepsAreas

theorem NucOp.Interrupting.keepsAreas {β : Type} {o : NucOp n β} (ho : o.Interrupting) :
    o.KeepsAreas := by
  cases o with
  | globals | modify f | stuck => trivial
  | store o =>
    cases o with
    | modifyData f => exact ho
    | data | semAdd p | clearSemAdd p | insertReady p | removeBlocked a => trivial
    | _ => exact ho.elim

namespace KeepsAreas

open Prog

theorem globals : (Jaeos.globals (n := n)).Only NucOp.KeepsAreas := .op trivial

theorem modifyGlobals (f : Globals n → Globals n) :
    (Jaeos.modifyGlobals f).Only NucOp.KeepsAreas := .op trivial

theorem store {β : Type} {o : StoreOp n β} (ho : o.KeepsAreas) :
    (Jaeos.store o).Only NucOp.KeepsAreas := .op ho

theorem data : (Jaeos.store (n := n) .data).Only NucOp.KeepsAreas := store trivial

theorem semAdd (p : Fin n) : (Jaeos.store (.semAdd p)).Only NucOp.KeepsAreas := store trivial

theorem clearSemAdd (p : Fin n) : (Jaeos.store (.clearSemAdd p)).Only NucOp.KeepsAreas :=
  store trivial

theorem insertReady (p : Fin n) : (Jaeos.store (.insertReady p)).Only NucOp.KeepsAreas :=
  store trivial

theorem removeReady : (Jaeos.store (n := n) .removeReady).Only NucOp.KeepsAreas := store trivial

theorem outReady (p : Fin n) : (Jaeos.store (.outReady p)).Only NucOp.KeepsAreas := store trivial

theorem insertBlocked (a : ℕ) (p : Fin n) :
    (Jaeos.store (.insertBlocked a p)).Only NucOp.KeepsAreas :=
  store trivial

theorem removeBlocked (a : ℕ) : (Jaeos.store (n := n) (.removeBlocked a)).Only NucOp.KeepsAreas :=
  store trivial

theorem outBlocked (p : Fin n) : (Jaeos.store (.outBlocked p)).Only NucOp.KeepsAreas :=
    store trivial

theorem emptyChild (p : Fin n) : (Jaeos.store (.emptyChild p)).Only NucOp.KeepsAreas :=
    store trivial

theorem removeChild (p : Fin n) : (Jaeos.store (.removeChild p)).Only NucOp.KeepsAreas :=
    store trivial

theorem outChild (p : Fin n) : (Jaeos.store (.outChild p)).Only NucOp.KeepsAreas := store trivial

theorem freePcb (p : Fin n) : (Jaeos.store (.freePcb p)).Only NucOp.KeepsAreas := store trivial

theorem setState (p : Fin n) (st : State) : (Jaeos.setState p st).Only NucOp.KeepsAreas :=
  store fun _ => rfl

theorem setReturn (p : Fin n) (v : Word) : (Jaeos.setReturn p v).Only NucOp.KeepsAreas :=
  store fun _ => rfl

theorem chargeTime (p : Fin n) : (Jaeos.chargeTime p).Only NucOp.KeepsAreas :=
  (Interrupting.chargeTime p).mono fun _ ho => ho.keepsAreas

theorem headBackHome : (Jaeos.headBackHome (n := n)).Only NucOp.KeepsAreas := by
  refine globals.bind fun g => ?_
  split
  · exact .pure _
  · exact .pure _

theorem blockCurrent (p : Fin n) (a : ℕ) : (Jaeos.blockCurrent p a).Only NucOp.KeepsAreas := by
  refine (chargeTime p).bind fun _ => ?_
  exact (insertBlocked a p).bind fun _ => modifyGlobals _

theorem getCpuTime (p : Fin n) : (Jaeos.getCpuTime p).Only NucOp.KeepsAreas := by
  refine (chargeTime p).bind fun _ => data.bind fun _ => ?_
  exact (setReturn p _).bind fun _ => (modifyGlobals _).bind fun _ => headBackHome

theorem verhogen : (Jaeos.verhogen (n := n)).Only NucOp.KeepsAreas := by
  refine globals.bind fun g => .ite (.pure _) ((modifyGlobals _).bind fun _ => ?_)
  refine globals.bind fun g => .ite ((removeBlocked _).bind fun r => ?_) headBackHome
  cases r with
  | none => exact .pure _
  | some p =>
    refine (clearSemAdd p).bind fun _ => ?_
    exact (insertReady p).bind fun _ => headBackHome

theorem passeren (p : Fin n) : (Jaeos.passeren p).Only NucOp.KeepsAreas := by
  refine globals.bind fun g => .ite (.pure _) ((modifyGlobals _).bind fun _ => ?_)
  refine globals.bind fun g => .ite ?_ headBackHome
  exact (blockCurrent p _).bind fun _ => .pure _

theorem processJob (p : Fin n) : (Jaeos.processJob p).Only NucOp.KeepsAreas := by
  refine (modifyGlobals _).bind fun _ => (modifyGlobals _).bind fun _ => ?_
  refine (modifyGlobals _).bind fun _ => globals.bind fun g => ?_
  dsimp only
  apply Only.ite
  · refine (modifyGlobals _).bind fun _ => ?_
    exact (modifyGlobals _).bind fun _ => .pure _
  · exact (modifyGlobals _).bind fun _ => .pure _

theorem getNewJob : (Jaeos.getNewJob (n := n)).Only NucOp.KeepsAreas := by
  refine removeReady.bind fun r => ?_
  cases r with
  | some p => exact processJob p
  | none =>
    refine (modifyGlobals _).bind fun _ => globals.bind fun g => ?_
    apply Only.ite (.pure _)
    apply Only.ite
    · refine .ite (.pure _) (.ite ?_ (.pure _))
      exact (modifyGlobals _).bind fun _ => (modifyGlobals _).bind fun _ => .pure _
    · exact .pure _

theorem finish (exit : Exit) : (exit.finish (n := n)).Only NucOp.KeepsAreas := by
  cases exit with
  | ldst | panic | undefined => exact .pure _
  | getNewJob => exact getNewJob.bind fun _ => .pure _

variable [Layout]

theorem nukeLeaf (p : Fin n) : (Jaeos.nukeLeaf p).Only NucOp.KeepsAreas := by
  have hdetach : (nukeDetach p).Only NucOp.KeepsAreas := by
    refine globals.bind fun g => ?_
    apply Only.ite ((outChild p).bind fun _ => .pure _)
    refine (semAdd p).bind fun a => ?_
    apply Only.ite ((outReady p).bind fun _ => .pure _)
    refine (outBlocked p).bind fun _ => (semAdd p).bind fun a => ?_
    exact .ite (modifyGlobals _) (modifyGlobals _)
  exact hdetach.bind fun _ => (freePcb p).bind fun _ => modifyGlobals _

/-- Freeing a process and its subtree. -/
theorem nuke (fuel : ℕ) (p : Fin n) : (nukeItTilItPukes fuel p).Only NucOp.KeepsAreas := by
  induction fuel generalizing p with
  | zero => exact .op trivial
  | succ fuel ih =>
    refine (emptyChild p).bind fun leaf => .ite (nukeLeaf p) ?_
    refine (removeChild p).bind fun r => ?_
    cases r with
    | none => exact .op trivial
    | some child => exact (ih child).bind fun _ => ih p

theorem passUpOrDie (type : TrapType) :
    (Jaeos.passUpOrDie (n := n) type).Only NucOp.KeepsAreas := by
  refine globals.bind fun g => ?_
  split
  · exact .pure _
  · rename_i p _
    refine data.bind fun d => ?_
    apply Only.ite
    · refine (modifyGlobals _).bind fun _ => globals.bind fun g => ?_
      exact (setState p _).bind fun _ => headBackHome
    · exact (nuke _ p).bind fun _ => .pure _

theorem terminateProcess (p : Fin n) : (Jaeos.terminateProcess p).Only NucOp.KeepsAreas :=
  (nuke _ p).bind fun _ => (modifyGlobals _).bind fun _ => .pure _

theorem waitForClock (p : Fin n) : (Jaeos.waitForClock p).Only NucOp.KeepsAreas := by
  refine (modifyGlobals _).bind fun _ => globals.bind fun g => .ite ?_ (.pure _)
  exact (blockCurrent p _).bind fun _ => (modifyGlobals _).bind fun _ => .pure _

theorem waitForIo (p : Fin n) : (Jaeos.waitForIo p).Only NucOp.KeepsAreas := by
  refine globals.bind fun g => .ite (.pure _) ((modifyGlobals _).bind fun _ => ?_)
  refine globals.bind fun g => .ite ?_ ((setReturn p _).bind fun _ => headBackHome)
  exact (blockCurrent p _).bind fun _ => (modifyGlobals _).bind fun _ => .pure _

theorem interruptHandler : (Jaeos.interruptHandler (n := n)).Only NucOp.KeepsAreas :=
  Interrupting.interruptHandler.mono fun _ ho => ho.keepsAreas

/-- SYS1 and SYS5 apart, every system call. -/
theorem serve (p : Fin n) {call : Option SysCall} (hcreate : call ≠ some .createProcess)
    (hsesv : call ≠ some .sesv) : (Jaeos.serve p call).Only NucOp.KeepsAreas := by
  match call with
  | none => exact passUpOrDie .sysTrap
  | some .createProcess => exact absurd rfl hcreate
  | some .terminateProcess => exact terminateProcess p
  | some .verhogen => exact verhogen
  | some .passeren => exact passeren p
  | some .sesv => exact absurd rfl hsesv
  | some .getCpuTime => exact getCpuTime p
  | some .waitForClock => exact waitForClock p
  | some .waitForIo => exact waitForIo p

end KeepsAreas

end Jaeos
