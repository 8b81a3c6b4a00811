import Jaeos.Asl
import Jaeos.Lib.Prog

/-!
# The nucleus: its state and the operations its code calls

`Globals` holds the variables of `initial.c`, the words of memory the nucleus
reads and writes, the old areas and the device registers. The handlers of
`scheduler.c`, `exceptions.c` and `interrupts.c` are programs over two kinds of
operations: reading and writing the globals, and the calls into `pcb.c` and
`asl.c` of `StoreOp`. `Nucleus` puts the globals and the store together, and
`NucOp.sem` says what each operation does there.
-/

namespace Jaeos

/-! ## State -/

/-- The clock variables, the interval timer and the time-of-day clock. -/
structure Clock where
  /-- `startTOD` -/
  startTOD : ℤ
  /-- `timeLeft` -/
  timeLeft : ℤ
  /-- `intTimerFlag` -/
  intTimerFlag : Bool
  /-- the value last loaded with `setTIMER` -/
  timer : ℤ
  /-- the time of day before that load -/
  timerAt : ℤ
  /-- the time of day when the handler was entered -/
  todIn : ℤ
  /-- the time of day when the handler leaves -/
  todOut : ℤ

/-- The state of the nucleus outside the PCBs and the semaphore descriptors. -/
structure Globals (n : ℕ) where
  /-- the words of memory, those of `semaphoreArray` among them -/
  mem : ℕ → Word
  /-- the area at `SYSCALLOLDADDR` -/
  sysCallOld : State
  /-- the area at `PROGTRPOLDADDR` -/
  progTrpOld : State
  /-- the area at `TLBOLDADDR` -/
  tlbOld : State
  /-- the area at `INTERRUPTOLDADDR` -/
  intOld : State
  /-- `processCount` -/
  processCount : ℤ
  /-- `softBlockCount` -/
  softBlockCount : ℤ
  /-- `currentProcess` -/
  currentProcess : Option (Fin n)
  /-- `devStatus` -/
  devStatus : ℕ → Word
  /-- the device registers, by device index -/
  devReg : ℕ → Device
  /-- the interrupting devices bit map, by line from `DISKINT` on -/
  intBitmap : ℕ → Word
  /-- `startTOD`, `timeLeft`, `intTimerFlag` and the hardware clocks -/
  clock : Clock

namespace Globals

variable {n : ℕ} (g : Globals n)

/-- Write one word of memory. -/
def setMem (a : ℕ) (v : Word) : Globals n := { g with mem := Function.update g.mem a v }

/-- The old area of a trap type. -/
def oldArea : TrapType → State
  | .tlbTrap => g.tlbOld
  | .progTrap => g.progTrpOld
  | .sysTrap => g.sysCallOld

end Globals

/-- The whole nucleus. -/
structure Nucleus (n : ℕ) extends Globals n where
  /-- the data of `pcb.c` and `asl.c` -/
  store : Store n

/-! ## Operations -/

/-- What the handlers do to the PCBs, the queues and the process tree. -/
inductive StoreOp (n : ℕ) : Type → Type where
  /-- read the fields of the PCBs -/
  | data : StoreOp n (PcbData n)
  /-- write fields of the PCBs -/
  | modifyData (f : PcbData n → PcbData n) : StoreOp n Unit
  /-- `p->p_semAdd` -/
  | semAdd (p : Fin n) : StoreOp n ℕ
  /-- `p->p_semAdd = NULL` -/
  | clearSemAdd (p : Fin n) : StoreOp n Unit
  /-- `allocPcb()` -/
  | allocPcb : StoreOp n (Option (Fin n))
  /-- `freePcb(p)` -/
  | freePcb (p : Fin n) : StoreOp n Unit
  /-- `emptyChild(p)` -/
  | emptyChild (p : Fin n) : StoreOp n Bool
  /-- `insertChild(prnt, p)` -/
  | insertChild (prnt p : Fin n) : StoreOp n Unit
  /-- `removeChild(prnt)` -/
  | removeChild (prnt : Fin n) : StoreOp n (Option (Fin n))
  /-- `outChild(p)` -/
  | outChild (p : Fin n) : StoreOp n (Option (Fin n))
  /-- `insertProcQ(&readyQueue, p)` -/
  | insertReady (p : Fin n) : StoreOp n Unit
  /-- `removeProcQ(&readyQueue)` -/
  | removeReady : StoreOp n (Option (Fin n))
  /-- `outProcQ(&readyQueue, p)` -/
  | outReady (p : Fin n) : StoreOp n (Option (Fin n))
  /-- `insertBlocked(a, p)` -/
  | insertBlocked (a : ℕ) (p : Fin n) : StoreOp n Bool
  /-- `removeBlocked(a)` -/
  | removeBlocked (a : ℕ) : StoreOp n (Option (Fin n))
  /-- `outBlocked(p)` -/
  | outBlocked (p : Fin n) : StoreOp n (Option (Fin n))

/-- The calls, made on the store. -/
def StoreOp.sem {n : ℕ} : ∀ β, StoreOp n β → StoreM n β
  | _, .data => do return (← get).toPcbData
  | _, .modifyData f => modify fun st => { st with toPcbData := f st.toPcbData }
  | _, .semAdd p => do return (← get).pSemAdd p
  | _, .clearSemAdd p => setSemAdd p null
  | _, .allocPcb => Jaeos.allocPcb
  | _, .freePcb p => Jaeos.freePcb p
  | _, .emptyChild p => Jaeos.emptyChild p
  | _, .insertChild prnt p => Jaeos.insertChild prnt p
  | _, .removeChild prnt => Jaeos.removeChild prnt
  | _, .outChild p => Jaeos.outChild p
  | _, .insertReady p => do
    let tail ← insertProcQ (← get).readyQueue p
    modify fun st => { st with readyQueue := tail }
  | _, .removeReady => do
    let (p, tail) ← removeProcQ (← get).readyQueue
    modify fun st => { st with readyQueue := tail }
    return p
  | _, .outReady p => do
    let (q, tail) ← outProcQ (← get).readyQueue p
    modify fun st => { st with readyQueue := tail }
    return q
  | _, .insertBlocked a p => Jaeos.insertBlocked a p
  | _, .removeBlocked a => Jaeos.removeBlocked a
  | _, .outBlocked p => Jaeos.outBlocked p

/-- The operations of the handlers. -/
inductive NucOp (n : ℕ) : Type → Type 1 where
  /-- read the globals -/
  | globals : NucOp n (Globals n)
  /-- write globals -/
  | modify (f : Globals n → Globals n) : NucOp n Unit
  /-- a call into `pcb.c` or `asl.c` -/
  | store {β : Type} (o : StoreOp n β) : NucOp n β
  /-- no result: a null pointer is followed inside a list, or a loop does not end -/
  | stuck : NucOp n Unit

/-- What the operations do to the nucleus. -/
def NucOp.sem {n : ℕ} : ∀ β, NucOp n β → StateT (Nucleus n) Option β
  | _, .globals => do return (← get).toGlobals
  | _, .modify f => MonadState.modifyGet fun s => ((), { s with toGlobals := f s.toGlobals })
  | _, .store o => fun s => do
    let (b, st) ← (StoreOp.sem _ o).run s.store
    return (b, { s with store := st })
  | _, .stuck => failure

/-- Programs of the nucleus. -/
abbrev NucM (n : ℕ) : Type → Type 1 := Prog (NucOp n)

section

variable {n : ℕ}

/-- Read the globals. -/
def globals : NucM n (Globals n) := Prog.op .globals

/-- Write globals. -/
def modifyGlobals (f : Globals n → Globals n) : NucM n Unit := Prog.op (.modify f)

/-- Write the clock variables. -/
def modifyClock (f : Clock → Clock) : NucM n Unit :=
  modifyGlobals fun g => { g with clock := f g.clock }

/-- Call into `pcb.c` or `asl.c`. -/
def store {β : Type} (o : StoreOp n β) : NucM n β := Prog.op (.store o)

/-- Stop without a result. -/
def stuck : NucM n Unit := Prog.op .stuck

/-- `*a = *a + d`, for an `int *a`. -/
def addMem (a : ℕ) (d : Word) : NucM n Unit :=
  modifyGlobals fun g => g.setMem a (g.mem a + d)

/-- `moveState(s, &(p->p_s))` -/
def setState (p : Fin n) (s : State) : NucM n Unit :=
  store (.modifyData fun d => { d with pS := Function.update d.pS p s })

/-- `p->p_s.s_a1 = v` -/
def setReturn (p : Fin n) (v : Word) : NucM n Unit :=
  store (.modifyData fun d => { d with pS := Function.update d.pS p ((d.pS p).setReg sA1 v) })

/-- `setTIMER(v)`, after the clock has last been read as `tod`. -/
def setTIMER (v tod : ℤ) : NucM n Unit :=
  modifyClock fun c => { c with timer := v, timerAt := tod }

end

/-! ## How a handler ends -/

/-- How a handler ends. -/
inductive Exit where
  /-- `LDST` of the current process -/
  | ldst
  /-- a last call to `getNewJob` -/
  | getNewJob
  /-- `PANIC` -/
  | panic
  /-- it follows a null pointer or indexes `semaphoreArray` out of bounds -/
  | undefined
  deriving DecidableEq

/-- How `getNewJob` ends. -/
inductive Verdict where
  /-- `LDST` of the new job -/
  | ldst
  /-- `HALT` -/
  | halt
  /-- `PANIC` -/
  | panic
  /-- `WAIT` -/
  | wait
  /-- it returns to its caller -/
  | returns
  deriving DecidableEq

end Jaeos
