import Jaeos.Lib.Locals
import Jaeos.Support.Hardware
import Mathlib.Tactic.IntervalCases

/-!
# `uProcInit` and its stack

`test` gives all user processes the same stack, the page below its own. So the variables of
`uProcInit` are the same words of memory for every process that is in it. `Stack.uProcInit` is the
function with its variables in memory, where they are read and written one by one; a process for
which they keep their values does what `uProcInit` does (`Stack.mirrors_uProcInit`). The frames of
the functions that `uProcInit` calls are not modelled.
-/

namespace Jaeos

/-- The page of the stack of `test`. -/
def testStack [Support] : Word := Support.ramtop - 3 * pageSize

/-- The page of the stack of `uProcInit`. -/
def initStack [Support] : Word := Support.ramtop - 4 * pageSize

theorem toNat_ramtop_sub [Support] {n : Word} (hn : n.toNat ≤ 4)
    (h : n.toNat * 4096 ≤ Support.ramtop.toNat) :
    (Support.ramtop - n * pageSize).toNat = Support.ramtop.toNat - n.toNat * 4096 := by
  have hlt := Support.ramtop.isLt
  have hpage : pageSize.toNat = 4096 := rfl
  rw [BitVec.toNat_sub, BitVec.toNat_mul, hpage]
  omega

/-- A variable of `uProcInit`, or a register in `newStartState`. -/
inductive InitVar where
  /-- `i` -/
  | i
  /-- `newStartState` -/
  | newStartState (r : Fin stateRegNum)
  /-- `tapeStatus` -/
  | tapeStatus
  /-- `diskStatus` -/
  | diskStatus
  /-- `TLBTOP` -/
  | tlbTop
  /-- `PROGTOP` -/
  | progTop
  /-- `SYSTOP` -/
  | sysTop
  /-- `diskDevice` -/
  | diskDevice
  /-- `tapeDevice` -/
  | tapeDevice
  /-- `oldState` -/
  | oldState
  /-- `newState` -/
  | newState
  /-- `currentBlock` -/
  | currentBlock
  /-- `finished` -/
  | finished
  /-- `procID` -/
  | procID
  /-- `devNumber` -/
  | devNumber
  /-- `procExecStkTop` -/
  | procExecStkTop
  deriving DecidableEq

/-- The operations of `uProcInit` with its variables in memory. -/
abbrev StackOp : Type → Type 1 := LocalOp InitVar Word SupOp

/-- Programs with the variables of `uProcInit` in memory. -/
abbrev StackM : Type → Type 1 := ExceptT End (Prog StackOp)

namespace Stack

/-- A variable is read. -/
def get (v : InitVar) : StackM Word := ExceptT.lift (Prog.op (.get v))

/-- A variable is written. -/
def set (v : InitVar) (w : Word) : StackM Unit := ExceptT.lift (Prog.op (.set v w))

/-- Another operation. -/
def sys {α : Type} (o : SupOp α) : StackM α := ExceptT.lift (Prog.op (.op o))

/-- A function is called. -/
def call {α : Type} (m : SupM α) : StackM α := ExceptT.mk m.run.embed

/-- The trap type with this number. -/
def trapType (i : Word) : Option TrapType :=
  if i = 0 then some .tlbTrap else if i = 1 then some .progTrap
  else if i = 2 then some .sysTrap else none

/-- `&(uProcs[procID - 1].Tnew_trap[i])`, or the old area, counted in areas. -/
def area (procID i : Word) : Word := procID * 3 + i

/-- The process and the type of an area. -/
def areaOf (a : Word) : Option (ℤ × TrapType) :=
  (trapType (a % 3)).map fun type => ((a / 3).toInt, type)

/-- `newState->s_reg[r] = v` -/
def writeNewState (r : Fin stateRegNum) (v : Word) : StackM Unit := do
  match areaOf (← get .newState) with
  | some (procID, type) => sys (.writeNew procID type r v)
  | none => throw .stuck

/-- The branches of `uProcInit` on the type of the trap. -/
def writeEntry (pc : Handler → Word) : StackM Unit := do
  if (← get .i) = 0 then
    writeNewState sSp (← get .tlbTop)
    writeNewState sPc (pc .vmMemHandler)
  else if (← get .i) = 1 then
    writeNewState sSp (← get .progTop)
    writeNewState sPc (pc .vmPrgmHandler)
  else if (← get .i) = 2 then
    writeNewState sSp (← get .sysTop)
    writeNewState sPc (pc .vmSysHandler)

/-- `SYSCALL(SESV, i, oldState, newState)`. It is not followed if these are not the areas of one
process for traps of type `i`. -/
def specify : StackM Unit := do
  match trapType (← get .i), areaOf (← get .oldState), areaOf (← get .newState) with
  | some type, some old, some new =>
    if old = new ∧ old.2 = type then sys (.sesv type old.1) else throw .stuck
  | _, _, _ => throw .stuck

/-- A round of the first loop of `uProcInit`. -/
def setUpTrap (pc : Handler → Word) : StackM Unit := do
  set .newState (area (← get .procID) (← get .i))
  set .oldState (area (← get .procID) (← get .i))
  writeNewState sEntryHi ((← get .procID) <<< asidShift)
  writeNewState sCpsr allOff
  writeNewState sControl (allOff ||| vmOn)
  writeEntry pc
  specify

/-- The first loop, for at most `fuel` rounds. -/
def setUpTraps (pc : Handler → Word) : ℕ → StackM Unit
  | 0 => throw .stuck
  | fuel + 1 => do
    if (← get .i).toInt < 3 then
      setUpTrap pc
      set .i ((← get .i) + 1)
      setUpTraps pc fuel

/-- `(tapeStatus == READY) && !finished` -/
def goesOn : StackM Bool := do
  if (← get .tapeStatus) = ready then
    return (← get .finished) = 0
  else
    return false

/-- `tapeDevice->f = v` -/
def writeTape (f : DevField) (v : Word) : StackM Unit := do
  sys (.writeDev (← get .tapeDevice).toInt f v)

/-- `diskDevice->f = v` -/
def writeDisk (f : DevField) (v : Word) : StackM Unit := do
  sys (.writeDev (← get .diskDevice).toInt f v)

/-- The block in the buffer is written to the backing store. -/
def storeBlock : StackM Unit := do
  call (enableInterrupts false)
  writeDisk .dData0 (tapeBuffer (← get .procID).toInt)
  writeDisk .dCommand ((word ((← get .procID).toInt - 1) <<< sectorShift) ||| writeBlk)
  set .diskStatus (← sys (.waitForIo diskInt backingStore 0))
  call (enableInterrupts true)

/-- A round of the loop that reads the tape. -/
def loadBlock : StackM Unit := do
  call (enableInterrupts false)
  writeTape .dData0 (tapeBuffer (← get .procID).toInt)
  writeTape .dCommand readBlk
  set .tapeStatus (← sys (.waitForIo tapeInt ((← get .procID).toInt - 1) 0))
  call (enableInterrupts true)
  sys (.passeren (.mutexSemArray backingStore))
  call (enableInterrupts false)
  writeDisk .dCommand (((← get .currentBlock) <<< seekShift) ||| diskSeek)
  set .diskStatus (← sys (.waitForIo diskInt backingStore 0))
  call (enableInterrupts true)
  (if (← get .diskStatus) = ready then storeBlock else pure ())
  sys (.verhogen (.mutexSemArray backingStore))
  (if (← sys (.readDev (← get .tapeDevice).toInt .dData1)) ≠ eob then set .finished 1 else pure ())
  set .currentBlock ((← get .currentBlock) + 1)

/-- The loop of `uProcInit` that reads the tape, for at most `fuel` rounds. -/
def loadTape : ℕ → StackM Unit
  | 0 => do
    if ← goesOn then throw .stuck
  | fuel + 1 => do
    if ← goesOn then
      loadBlock
      loadTape fuel

/-- `STST(&newStartState)` -/
def storeState (st : State) : List (Fin stateRegNum) → StackM Unit
  | [] => pure ()
  | r :: rs => do
    set (.newStartState r) (st.sReg r)
    storeState st rs

/-- What `LDST(&newStartState)` loads. -/
def loadState : List (Fin stateRegNum) → State → StackM State
  | [], st => pure st
  | r :: rs, st => do
    loadState rs (st.setReg r (← get (.newStartState r)))

/-- The statements of `uProcInit`, whose loops are followed for so many rounds. -/
def body [Support] (pc : Handler → Word) (fuel : ℕ) : StackM Unit := do
  set .currentBlock 0
  set .finished 0
  set .procID (word (asid (← sys .getEntryHi)))
  set .devNumber (word (tapeDev (← get .procID).toInt))
  set .procExecStkTop (procExecStkTop (← get .procID).toInt)
  let top ← get .procExecStkTop
  set .progTop top
  set .sysTop top
  set .tlbTop ((← get .sysTop) - pageSize)
  set .i 0
  setUpTraps pc (fuel + 4)
  set .finished 0
  set .currentBlock 0
  sys (.passeren (.mutexSemArray (← get .devNumber).toInt))
  set .diskDevice 0
  set .tapeDevice (← get .devNumber)
  set .tapeStatus ready
  set .diskStatus ready
  loadTape fuel
  sys (.verhogen (.mutexSemArray (← get .devNumber).toInt))
  storeState (← sys .stst) (List.finRange stateRegNum)
  set (.newStartState sEntryHi) ((← get .procID) <<< asidShift)
  set (.newStartState sSp) kUseg3Addr
  set (.newStartState sCpsr) (allOff ||| userMode)
  set (.newStartState sControl) vmOn
  set (.newStartState sPc) 0x800000B0
  let newStartState ← loadState (List.finRange stateRegNum) .zero
  ExceptT.lift (Prog.op .leave)
  throw (.start newStartState)

/-- `uProcInit` with its variables in memory. -/
def uProcInit [Support] (pc : Handler → Word) (fuel : ℕ) : StackM Unit := do
  ExceptT.lift (Prog.op .enter)
  body pc fuel

/-- A process has waited for the processor when it writes the result of SYS8. -/
def waits : InitVar → Bool
  | .tapeStatus | .diskStatus => true
  | _ => false

/-- Where the variables are: the compiler has chosen a word of the stack for each. -/
def frame [Support] (slot : InitVar ↪ Fin 1024) : Frame Ram InitVar Word where
  read m v := m (wordAt initStack (slot v))
  write p m := m.store (wordAt initStack (slot p.1)) p.2
  waits := waits
  read_write p m := by
    funext v
    by_cases hv : v = p.1
    · rw [hv, Ram.store, Function.update_self, Function.update_self]
    · rw [Ram.store, Function.update_of_ne hv, Function.update_of_ne]
      exact fun he => hv (slot.injective (wordAt_left_inj he))

/-! ## A process that has its stack for itself -/

section

/-- The operations of `uProcInit` that are not SYSCALLs. None of them touches memory. -/
def Quiet : ∀ β, SupOp β → Prop
  | _, .getEntryHi | _, .setSTATUS _ | _, .stst | _, .readDev _ _ | _, .writeDev _ _ _
  | _, .writeNew _ _ _ _ => True
  | _, _ => False

/-- The operations before which a process may lose the processor in any case. -/
def Always (β : Type) (o : SupOp β) : Prop := Hardware.atSyscall o = true

/-- With these variables, the first program does what the second one does. -/
abbrev Mirrors {α : Type} (env : InitVar → Word) (m : StackM α) (m' : SupM α) : Prop :=
  Prog.Mirrors Quiet Always waits (some env) m.run m'.run

variable {α β : Type} {env : InitVar → Word} {v : InitVar} {w : Word} {m' : SupM β}

theorem mirrors_get {f : Word → StackM β} (h : Mirrors env (f (env v)) m') :
    Mirrors env (get v >>= f) m' := .get h

theorem mirrors_set {f : Unit → StackM β} (hv : waits v = false)
    (h : Mirrors (Function.update env v w) (f ()) m') : Mirrors env (set v w >>= f) m' :=
  .set (fun hw => absurd (hv.symm.trans hw) Bool.false_ne_true) h

/-- A variable is written after a SYS8. -/
theorem mirrors_setStatus {f : Unit → StackM β} (hm : m'.run.Opens Always)
    (h : Mirrors (Function.update env v w) (f ()) m') : Mirrors env (set v w >>= f) m' :=
  .set (fun _ => hm) h

theorem mirrors_sys {o : SupOp α} {f : α → StackM β} {f' : α → SupM β}
    (ho : Quiet α o ∨ Always α o)
    (h : ∀ a, Mirrors env (f a) (f' a)) : Mirrors env (sys o >>= f) (sup o >>= f') :=
  .op (fun _ => ho) h

/-- A function is called that does not touch the variables. -/
theorem mirrors_call {m : SupM α} {f : α → StackM β} {f' : α → SupM β}
    (hm : Prog.Only (fun β o => Quiet β o ∨ Always β o) m.run) (h : ∀ a, Mirrors env (f a) (f' a)) :
    Mirrors env (call m >>= f) (m >>= f') := by
  change Prog.Mirrors Quiet Always waits (some env) (m.run.embed >>= ExceptT.bindCont f)
    (m.run >>= ExceptT.bindCont f')
  generalize m.run = p at hm
  induction hm with
  | ret r =>
    cases r with
    | ok a => exact h a
    | error e => exact .ret _ _
  | call ho _ ih => exact .op (fun _ => ho) ih

theorem mirrors_enableInterrupts {on : Bool} {f : Unit → StackM β} {f' : Unit → SupM β}
    (h : Mirrors env (f ()) (f' ())) :
    Mirrors env (call (enableInterrupts on) >>= f) (enableInterrupts on >>= f') := by
  refine mirrors_call ?_ fun _ => h
  exact .call (.inr rfl) fun _ => .call (.inl trivial) fun _ => .ret _

theorem opens_enableInterrupts (on : Bool) (f' : Unit → SupM β) :
    (enableInterrupts on >>= f').run.Opens Always := rfl

theorem mirrors_throw (e : End) :
    Mirrors env (throw e : StackM β) (throw e) := .ret _ _

/-! ### What the process keeps in its variables -/

/-- The variables that `uProcInit` sets once, of the process with this number. -/
structure Holds [Support] (p : ℤ) (env : InitVar → Word) : Prop where
  /-- `procID` -/
  procID : env .procID = word p
  /-- `devNumber` -/
  devNumber : env .devNumber = word (tapeDev p)
  /-- `TLBTOP` -/
  tlbTop : env .tlbTop = Jaeos.procExecStkTop p - pageSize
  /-- `PROGTOP` -/
  progTop : env .progTop = Jaeos.procExecStkTop p
  /-- `SYSTOP` -/
  sysTop : env .sysTop = Jaeos.procExecStkTop p

/-- They are. -/
def held : List InitVar := [.procID, .devNumber, .tlbTop, .progTop, .sysTop]

/-- Other variables may change. -/
theorem Holds.congr [Support] {p : ℤ} {env' : InitVar → Word} (h : Holds p env)
    (heq : ∀ v ∈ held, env' v = env v) : Holds p env' where
  procID := (heq _ (by decide)).trans h.procID
  devNumber := (heq _ (by decide)).trans h.devNumber
  tlbTop := (heq _ (by decide)).trans h.tlbTop
  progTop := (heq _ (by decide)).trans h.progTop
  sysTop := (heq _ (by decide)).trans h.sysTop

theorem Holds.set [Support] {p : ℤ} (h : Holds p env) (hv : v ∉ held) :
    Holds p (Function.update env v w) :=
  h.congr fun _ hx => Function.update_of_ne (ne_of_mem_of_not_mem hx hv) ..

/-- The number of a trap type. -/
def number : TrapType → Word
  | .tlbTrap => 0
  | .progTrap => 1
  | .sysTrap => 2

theorem trapType_number (type : TrapType) : trapType (number type) = some type := by
  cases type <;> rfl

theorem toInt_word {p : ℤ} (h0 : 0 ≤ p) (h64 : p < 128) : (word p).toInt = p := by
  rw [BitVec.toInt_ofInt, Int.bmod_eq_of_le]
  · omega
  · omega

/-- Each area has an address of its own. -/
theorem areaOf_area {p : ℤ} (h0 : 0 ≤ p) (h64 : p < 64) (type : TrapType) :
    areaOf (area (word p) (number type)) = some (p, type) := by
  interval_cases p <;> cases type <;> rfl

/-! ### The traps -/

variable [Support] {p : ℤ} {type : TrapType}

omit [Support] in
theorem mirrors_writeNewState {r : Fin stateRegNum} {f : Unit → StackM β} {f' : Unit → SupM β}
    (ha : areaOf (env .newState) = some (p, type)) (h : Mirrors env (f ()) (f' ())) :
    Mirrors env (writeNewState r w >>= f) (sup (.writeNew p type r w) >>= f') := by
  rw [writeNewState, bind_assoc]
  apply mirrors_get
  rw [ha]
  exact mirrors_sys (.inl trivial) fun _ => h

/-- The stack pointer and the program counter of the handler. -/
theorem mirrors_writeEntry {pc : Handler → Word} {f : Unit → StackM β} (hp : Holds p env)
    (hi : env .i = number type) (ha : areaOf (env .newState) = some (p, type))
    (h : Mirrors env (f ()) m') :
    Mirrors env (writeEntry pc >>= f) (do
      let top := Jaeos.procExecStkTop p
      sup (.writeNew p type sSp (if type = .tlbTrap then top - pageSize else top))
      sup (.writeNew p type sPc (pc type.handler))
      m') := by
  rw [writeEntry, bind_assoc]
  apply mirrors_get
  cases type with
  | tlbTrap =>
    have hi : env .i = 0 := hi
    rw [if_pos hi, bind_assoc]
    apply mirrors_get
    rw [bind_assoc, hp.tlbTop]
    refine mirrors_writeNewState ha ?_
    exact mirrors_writeNewState ha h
  | progTrap =>
    have hi : env .i = 1 := hi
    rw [if_neg (by rw [hi]; decide), bind_assoc]
    apply mirrors_get
    rw [if_pos hi, bind_assoc]
    apply mirrors_get
    rw [bind_assoc, hp.progTop]
    refine mirrors_writeNewState ha ?_
    exact mirrors_writeNewState ha h
  | sysTrap =>
    have hi : env .i = 2 := hi
    rw [if_neg (by rw [hi]; decide), bind_assoc]
    apply mirrors_get
    rw [if_neg (by rw [hi]; decide), bind_assoc]
    apply mirrors_get
    rw [if_pos hi, bind_assoc]
    apply mirrors_get
    rw [bind_assoc, hp.sysTop]
    refine mirrors_writeNewState ha ?_
    exact mirrors_writeNewState ha h

omit [Support] in
theorem mirrors_specify {f : Unit → StackM β} {f' : Unit → SupM β} (hi : env .i = number type)
    (hold : areaOf (env .oldState) = some (p, type))
    (hnew : areaOf (env .newState) = some (p, type)) (h : Mirrors env (f ()) (f' ())) :
    Mirrors env (specify >>= f) (sup (.sesv type p) >>= f') := by
  rw [specify, bind_assoc]
  apply mirrors_get
  rw [bind_assoc]
  apply mirrors_get
  rw [bind_assoc]
  apply mirrors_get
  rw [hi, trapType_number, hold, hnew]
  dsimp only
  rw [if_pos ⟨rfl, rfl⟩]
  exact mirrors_sys (.inr rfl) fun _ => h

/-- A round of the first loop. -/
theorem mirrors_setUpTrap {pc : Handler → Word} {f : Unit → StackM β} {f' : Unit → SupM β}
    (h0 : 0 ≤ p) (h64 : p < 64) (hp : Holds p env) (hi : env .i = number type)
    (h : ∀ env', (∀ v, v ≠ .newState → v ≠ .oldState → env' v = env v) →
      Mirrors env' (f ()) (f' ())) :
    Mirrors env (setUpTrap pc >>= f) (Jaeos.setUpTrap pc p type >>= f') := by
  simp only [setUpTrap, Jaeos.setUpTrap, bind_assoc]
  apply mirrors_get
  apply mirrors_get
  apply mirrors_set rfl
  apply mirrors_get
  apply mirrors_get
  apply mirrors_set rfl
  simp only [ne_eq, reduceCtorEq, not_false_eq_true, Function.update_of_ne, hp.procID, hi]
  set env₁ := Function.update (Function.update env .newState (area (word p) (number type)))
    .oldState (area (word p) (number type)) with henv₁
  have hnew : areaOf (env₁ .newState) = some (p, type) := by
    rw [henv₁, Function.update_of_ne (by decide), Function.update_self, areaOf_area h0 h64]
  have hold : areaOf (env₁ .oldState) = some (p, type) := by
    rw [henv₁, Function.update_self, areaOf_area h0 h64]
  have hi₁ : env₁ .i = number type := hi
  have hp₁ : Holds p env₁ := (hp.set (by decide)).set (by decide)
  apply mirrors_get
  rw [hp₁.procID]
  apply mirrors_writeNewState hnew
  apply mirrors_writeNewState hnew
  apply mirrors_writeNewState hnew
  apply mirrors_writeEntry hp₁ hi₁ hnew
  apply mirrors_specify hi₁ hold hnew
  exact h env₁ fun v hv hv' => by rw [henv₁, Function.update_of_ne hv', Function.update_of_ne hv]

/-- A round of the first loop, and the others. -/
theorem mirrors_setUpTraps {pc : Handler → Word} {fuel : ℕ} {f : Unit → StackM β}
    {f' : Unit → SupM β} (h0 : 0 ≤ p) (h64 : p < 64) (hp : Holds p env)
    (hi : env .i = number type)
    (h : ∀ env', Holds p env' → env' .i = number type + 1 →
      Mirrors env' (setUpTraps pc fuel >>= f) (f' ())) :
    Mirrors env (setUpTraps pc (fuel + 1) >>= f) (Jaeos.setUpTrap pc p type >>= f') := by
  rw [setUpTraps, bind_assoc]
  apply mirrors_get
  have hlt : (env .i).toInt < 3 := by
    rw [hi]
    cases type <;> decide
  rw [if_pos hlt]
  simp only [bind_assoc]
  refine mirrors_setUpTrap h0 h64 hp hi fun env' henv => ?_
  have hp' : Holds p env' := hp.congr fun v hv =>
    henv v (fun e => by simp [e, held] at hv) fun e => by simp [e, held] at hv
  apply mirrors_get
  apply mirrors_set rfl
  refine h _ (hp'.set (by decide)) ?_
  rw [Function.update_self, henv .i (by decide) (by decide), hi]

omit [Support] in
/-- The first loop ends. -/
theorem mirrors_setUpTraps_done {pc : Handler → Word} {fuel : ℕ} {f : Unit → StackM β}
    {m' : SupM β} (hi : env .i = 3) (h : Mirrors env (f ()) m') :
    Mirrors env (setUpTraps pc (fuel + 1) >>= f) m' := by
  rw [setUpTraps, bind_assoc]
  apply mirrors_get
  rw [if_neg (by rw [hi]; decide)]
  exact h

/-! ### The tape -/

/-- The variables of the loop that reads the tape. -/
structure Loads (p b : ℤ) (env : InitVar → Word) : Prop extends Holds p env where
  /-- `diskDevice` -/
  diskDevice : env .diskDevice = 0
  /-- `tapeDevice` -/
  tapeDevice : env .tapeDevice = word (tapeDev p)
  /-- `currentBlock` -/
  currentBlock : env .currentBlock = word b
  /-- `finished` -/
  finished : env .finished = 0

/-- They are. -/
def loading : List InitVar := [.diskDevice, .tapeDevice, .currentBlock, .finished]

theorem Loads.congr {b : ℤ} {env' : InitVar → Word} (h : Loads p b env)
    (heq : ∀ v ∈ held ++ loading, env' v = env v) : Loads p b env' where
  toHolds := h.toHolds.congr fun v hv => heq v (List.mem_append_left _ hv)
  diskDevice := (heq _ (by decide)).trans h.diskDevice
  tapeDevice := (heq _ (by decide)).trans h.tapeDevice
  currentBlock := (heq _ (by decide)).trans h.currentBlock
  finished := (heq _ (by decide)).trans h.finished

theorem Loads.set {b : ℤ} (h : Loads p b env) (hv : v ∉ held ++ loading) :
    Loads p b (Function.update env v w) :=
  h.congr fun _ hx => Function.update_of_ne (ne_of_mem_of_not_mem hx hv) ..

omit [Support] in
theorem mirrors_goesOn {f : Bool → StackM β} {m' : SupM β}
    (h : Mirrors env (f (decide (env .tapeStatus = ready ∧ env .finished = 0))) m') :
    Mirrors env (goesOn >>= f) m' := by
  rw [goesOn, bind_assoc]
  apply mirrors_get
  by_cases htape : env .tapeStatus = ready
  · rw [if_pos htape, bind_assoc]
    apply mirrors_get
    rw [pure_bind]
    simpa only [htape, true_and] using h
  · rw [if_neg htape, pure_bind]
    simpa only [htape, false_and, decide_false] using h

omit [Support] in
/-- The loop ends. -/
theorem mirrors_loadTape_done {fuel : ℕ} {f : Unit → StackM β} {m' : SupM β}
    (hdone : ¬ (env .tapeStatus = ready ∧ env .finished = 0)) (h : Mirrors env (f ()) m') :
    Mirrors env (loadTape fuel >>= f) m' := by
  cases fuel with
  | zero =>
    rw [loadTape, bind_assoc]
    apply mirrors_goesOn
    rw [decide_eq_false hdone, if_neg Bool.false_ne_true]
    exact h
  | succ fuel =>
    rw [loadTape, bind_assoc]
    apply mirrors_goesOn
    rw [decide_eq_false hdone, if_neg Bool.false_ne_true]
    exact h

/-- The block is written. -/
theorem mirrors_storeBlock {b : ℤ} {f : Unit → StackM β} {f' : Unit → SupM β} (h0 : 0 ≤ p)
    (h64 : p < 64) (hl : Loads p b env)
    (h : ∀ env', Loads p b env' → env' .tapeStatus = env .tapeStatus →
      Mirrors env' (f ()) (f' ())) :
    Mirrors env (storeBlock >>= f) ((do
      enableInterrupts false
      sup (.writeDev 0 .dData0 (tapeBuffer p))
      sup (.writeDev 0 .dCommand ((word (p - 1) <<< sectorShift) ||| writeBlk))
      let _ ← sup (.waitForIo diskInt backingStore 0)
      enableInterrupts true) >>= f') := by
  have hp : (env .procID).toInt = p := by rw [hl.procID, toInt_word h0 (by omega)]
  have hdisk : (env .diskDevice).toInt = 0 := by rw [hl.diskDevice]; rfl
  simp only [storeBlock, writeDisk, bind_assoc]
  apply mirrors_enableInterrupts
  apply mirrors_get
  apply mirrors_get
  rw [hp, hdisk]
  refine mirrors_sys (.inl trivial) fun _ => ?_
  apply mirrors_get
  apply mirrors_get
  rw [hp, hdisk]
  refine mirrors_sys (.inl trivial) fun _ => ?_
  refine mirrors_sys (.inr rfl) fun _ => ?_
  apply mirrors_setStatus (opens_enableInterrupts ..)
  apply mirrors_enableInterrupts
  exact h _ (hl.set (by decide)) (Function.update_of_ne (by decide) ..)

/-- If the disk has found the cylinder. -/
theorem mirrors_storeBlock_of {b : ℤ} {diskStatus : Word} {f : Unit → StackM β}
    {f' : Unit → SupM β} (h0 : 0 ≤ p) (h64 : p < 64) (hl : Loads p b env)
    (h : ∀ env', Loads p b env' → env' .tapeStatus = env .tapeStatus →
      Mirrors env' (f ()) (f' ())) :
    Mirrors env ((if diskStatus = ready then storeBlock else pure ()) >>= f)
      ((if diskStatus = ready then do
        enableInterrupts false
        sup (.writeDev 0 .dData0 (tapeBuffer p))
        sup (.writeDev 0 .dCommand ((word (p - 1) <<< sectorShift) ||| writeBlk))
        let _ ← sup (.waitForIo diskInt backingStore 0)
        enableInterrupts true
      else pure ()) >>= f') := by
  by_cases hseek : diskStatus = ready
  · rw [if_pos hseek, if_pos hseek]
    exact mirrors_storeBlock h0 h64 hl h
  · rw [if_neg hseek, if_neg hseek]
    exact h env hl rfl

omit [Support] in
theorem opens_loadTape (p : ℤ) (fuel : ℕ) (b : ℤ) (f' : Unit → SupM β) :
    (Jaeos.loadTape p fuel b >>= f').run.Opens Always := by
  cases fuel with
  | zero => trivial
  | succ fuel => rfl

/-- The loop, for a tape that is ready. -/
theorem mirrors_loadTape {fuel : ℕ} {b : ℤ} {f : Unit → StackM β} {f' : Unit → SupM β}
    (h0 : 0 ≤ p) (h64 : p < 64) (hl : Loads p b env) (hready : env .tapeStatus = ready)
    (h : ∀ env', Holds p env' → Mirrors env' (f ()) (f' ())) :
    Mirrors env (loadTape fuel >>= f) (Jaeos.loadTape p fuel b >>= f') := by
  induction fuel generalizing b env with
  | zero =>
    rw [loadTape, bind_assoc]
    apply mirrors_goesOn
    rw [decide_eq_true ⟨hready, hl.finished⟩, if_pos rfl]
    exact mirrors_throw _
  | succ fuel ih =>
    rw [loadTape, bind_assoc]
    apply mirrors_goesOn
    rw [decide_eq_true ⟨hready, hl.finished⟩, if_pos rfl]
    have hp : (env .procID).toInt = p := by rw [hl.procID, toInt_word h0 (by omega)]
    have htape : (env .tapeDevice).toInt = tapeDev p := by
      have hdev : tapeDev p = (4 - 3) * 8 + (p - 1) := rfl
      rw [hl.tapeDevice, toInt_word (by omega) (by omega)]
    simp only [loadBlock, Jaeos.loadTape, writeTape, writeDisk, bind_assoc]
    -- the block is read from the tape
    apply mirrors_enableInterrupts
    apply mirrors_get
    apply mirrors_get
    rw [hp, htape]
    refine mirrors_sys (.inl trivial) fun _ => ?_
    apply mirrors_get
    rw [htape]
    refine mirrors_sys (.inl trivial) fun _ => ?_
    apply mirrors_get
    rw [hp]
    refine mirrors_sys (.inr rfl) fun tapeStatus => ?_
    apply mirrors_setStatus (opens_enableInterrupts ..)
    apply mirrors_enableInterrupts
    -- the disk seeks
    refine mirrors_sys (.inr rfl) fun _ => ?_
    apply mirrors_enableInterrupts
    have hl₁ : Loads p b (Function.update env .tapeStatus tapeStatus) := hl.set (by decide)
    have hstatus : Function.update env .tapeStatus tapeStatus .tapeStatus = tapeStatus :=
      Function.update_self ..
    generalize Function.update env .tapeStatus tapeStatus = env₁ at hl₁ hstatus
    apply mirrors_get
    apply mirrors_get
    rw [hl₁.diskDevice, hl₁.currentBlock]
    refine mirrors_sys (.inl trivial) fun _ => ?_
    refine mirrors_sys (.inr rfl) fun diskStatus => ?_
    apply mirrors_setStatus (opens_enableInterrupts ..)
    apply mirrors_enableInterrupts
    apply mirrors_get
    rw [Function.update_self]
    have hl₂ : Loads p b (Function.update env₁ .diskStatus diskStatus) := hl₁.set (by decide)
    have hstatus₂ : Function.update env₁ .diskStatus diskStatus .tapeStatus = tapeStatus :=
      (Function.update_of_ne (by decide) ..).trans hstatus
    generalize Function.update env₁ .diskStatus diskStatus = env₂ at hl₂ hstatus₂
    refine mirrors_storeBlock_of h0 h64 hl₂ fun env₃ hl₃ hstatus₃ => ?_
    -- the next block
    refine mirrors_sys (.inr rfl) fun _ => ?_
    apply mirrors_get
    rw [hl₃.tapeDevice, ← hl.tapeDevice, htape]
    refine mirrors_sys (.inl trivial) fun marker => ?_
    by_cases hmarker : marker ≠ eob
    · rw [if_pos hmarker, if_neg fun h => h.2 hmarker]
      apply mirrors_set rfl
      apply mirrors_get
      apply mirrors_set rfl
      refine mirrors_loadTape_done ?_ (h _ ((hl₃.toHolds.set (by decide)).set (by decide)))
      rintro ⟨-, hno⟩
      rw [Function.update_of_ne (by decide), Function.update_self] at hno
      exact absurd hno (by decide)
    · rw [if_neg hmarker]
      apply mirrors_get
      apply mirrors_set rfl
      have hblock : word b + 1 = word (b + 1) := (BitVec.ofInt_add b 1).symm
      rw [hl₃.currentBlock, hblock]
      have hl₄ : Loads p (b + 1) (Function.update env₃ .currentBlock (word (b + 1))) :=
        { toHolds := hl₃.toHolds.set (by decide)
          diskDevice := hl₃.diskDevice
          tapeDevice := hl₃.tapeDevice
          currentBlock := Function.update_self ..
          finished := hl₃.finished }
      have hstatus₄ : Function.update env₃ .currentBlock (word (b + 1)) .tapeStatus = tapeStatus :=
        hstatus₃.trans hstatus₂
      by_cases htapeStatus : tapeStatus = ready
      · rw [if_pos ⟨htapeStatus, hmarker⟩]
        exact ih hl₄ (hstatus₄.trans htapeStatus)
      · rw [if_neg fun h => htapeStatus h.1]
        refine mirrors_loadTape_done ?_ (h _ hl₄.toHolds)
        rintro ⟨hyes, -⟩
        exact htapeStatus (hstatus₄ ▸ hyes)

/-! ### The state in which the process starts -/

omit [Support] in
/-- The state is stored, register by register. -/
theorem mirrors_storeState {st : State} {rs : List (Fin stateRegNum)} {f : Unit → StackM β}
    {m' : SupM β} (hstored : ∀ r, r ∈ rs ∨ env (.newStartState r) = st.sReg r)
    (h : ∀ env', (∀ r, env' (.newStartState r) = st.sReg r) →
      (∀ v ∈ held, env' v = env v) → Mirrors env' (f ()) m') :
    Mirrors env (storeState st rs >>= f) m' := by
  induction rs generalizing env with
  | nil => exact h env (fun r => (hstored r).resolve_left List.not_mem_nil) fun _ _ => rfl
  | cons r rs ih =>
    rw [storeState, bind_assoc]
    apply mirrors_set rfl
    refine ih (fun x => ?_) fun env' henv hheld => h env' henv fun v hv => ?_
    · by_cases hx : x = r
      · subst hx
        exact .inr (Function.update_self ..)
      · rw [Function.update_of_ne fun e => hx (InitVar.newStartState.inj e)]
        exact (hstored x).imp_left fun hin => (List.mem_cons.mp hin).resolve_left hx
    · rw [hheld v hv, Function.update_of_ne]
      rintro rfl
      simp [held] at hv

omit [Support] in
/-- The state is loaded. -/
theorem mirrors_loadState {st : State} {rs : List (Fin stateRegNum)} {f : State → StackM β}
    {m' : SupM β}
    (h : ∀ st', (∀ r, st'.sReg r = if r ∈ rs then env (.newStartState r) else st.sReg r) →
      Mirrors env (f st') m') :
    Mirrors env (loadState rs st >>= f) m' := by
  induction rs generalizing st with
  | nil => exact h st fun _ => rfl
  | cons r rs ih =>
    rw [loadState, bind_assoc]
    apply mirrors_get
    refine ih fun st' hst' => h st' fun x => ?_
    rw [hst']
    by_cases hx : x = r
    · subst hx
      by_cases hin : x ∈ rs <;> simp [hin]
    · simp [hx]

/-- A process that has the variables for itself does what `uProcInit` does. -/
theorem mirrors_uProcInit (pc : Handler → Word) (fuel : ℕ) :
    Prog.Mirrors Quiet Always waits none (uProcInit pc fuel).run (Jaeos.uProcInit pc fuel).run := by
  refine .enter fun env => ?_
  change Mirrors env (body pc fuel) (Jaeos.uProcInit pc fuel)
  rw [body, Jaeos.uProcInit]
  apply mirrors_set rfl
  apply mirrors_set rfl
  refine mirrors_sys (.inl trivial) fun entryHi => ?_
  have h0 := asid_nonneg entryHi
  have h64 := asid_lt entryHi
  generalize asid entryHi = p at h0 h64
  apply mirrors_set rfl
  apply mirrors_get
  apply mirrors_set rfl
  apply mirrors_get
  apply mirrors_set rfl
  apply mirrors_get
  apply mirrors_set rfl
  apply mirrors_set rfl
  apply mirrors_get
  apply mirrors_set rfl
  apply mirrors_set rfl
  have hword : (word p).toInt = p := toInt_word h0 (by omega)
  simp only [ne_eq, reduceCtorEq, not_false_eq_true, Function.update_of_ne, Function.update_self,
    hword]
  generalize htower : Function.update (_ : InitVar → Word) .i 0 = env₁
  have hp : Holds p env₁ := by
    subst htower
    exact ⟨rfl, rfl, rfl, rfl, rfl⟩
  have hi : env₁ .i = 0 := htower ▸ Function.update_self ..
  -- the traps
  refine mirrors_setUpTraps h0 h64 hp hi fun env₂ hp₂ hi₂ => ?_
  refine mirrors_setUpTraps h0 h64 hp₂ hi₂ fun env₃ hp₃ hi₃ => ?_
  refine mirrors_setUpTraps h0 h64 hp₃ hi₃ fun env₄ hp₄ hi₄ => ?_
  refine mirrors_setUpTraps_done hi₄ ?_
  -- the tape
  have htape : (word (tapeDev p)).toInt = tapeDev p := by
    have hdev : tapeDev p = (4 - 3) * 8 + (p - 1) := rfl
    rw [toInt_word (by omega) (by omega)]
  apply mirrors_set rfl
  apply mirrors_set rfl
  apply mirrors_get
  simp only [ne_eq, reduceCtorEq, not_false_eq_true, Function.update_of_ne, hp₄.devNumber, htape]
  refine mirrors_sys (.inr rfl) fun _ => ?_
  apply mirrors_set rfl
  apply mirrors_get
  apply mirrors_set rfl
  apply mirrors_setStatus (opens_loadTape ..)
  apply mirrors_setStatus (opens_loadTape ..)
  refine mirrors_loadTape h0 h64 ?_ rfl fun env₅ hp₅ => ?_
  · exact ⟨⟨hp₄.procID, hp₄.devNumber, hp₄.tlbTop, hp₄.progTop, hp₄.sysTop⟩, rfl, hp₄.devNumber,
      rfl, rfl⟩
  apply mirrors_get
  rw [hp₅.devNumber, htape]
  refine mirrors_sys (.inr rfl) fun _ => ?_
  -- the state
  refine mirrors_sys (.inl trivial) fun st => ?_
  refine mirrors_storeState (fun r => .inl (List.mem_finRange r)) fun env₆ hst hheld => ?_
  have hp₆ : Holds p env₆ := hp₅.congr hheld
  apply mirrors_get
  apply mirrors_set rfl
  apply mirrors_set rfl
  apply mirrors_set rfl
  apply mirrors_set rfl
  apply mirrors_set rfl
  refine mirrors_loadState fun st' hst' => ?_
  have heq : st' = ((((st.setReg sEntryHi (word p <<< asidShift)).setReg sSp
      kUseg3Addr).setReg sCpsr (allOff ||| userMode)).setReg sControl vmOn).setReg sPc
        0x800000B0 := by
    have hinj : Function.Injective InitVar.newStartState := fun _ _ => InitVar.newStartState.inj
    simp only [List.mem_finRange, if_true] at hst'
    have hregs := funext hst'
    rw [hp₆.procID] at hregs
    ext1
    simp only [Function.update_comp_eq_of_injective' _ hinj, hst] at hregs
    exact hregs
  rw [← heq]
  exact .leave (.ret _ _)

/-- The processes are in front of `uProcInit`. -/
theorem mirrors_start (pc : Handler → Word) (fuel : ℤ → ℕ) (i : ℤ) (e : End) :
    Prog.Mirrors Quiet Always waits none
      (if IsUser i then (uProcInit pc (fuel i)).run else .ret (.error e))
      (if IsUser i then (Jaeos.uProcInit pc (fuel i)).run else .ret (.error e)) := by
  split
  · exact mirrors_uProcInit pc (fuel i)
  · exact .ret _ _

end

/-! ## A small system -/

/-- A number for each variable. -/
def index : InitVar → Fin 1024
  | .i => 0
  | .tapeStatus => 1
  | .diskStatus => 2
  | .tlbTop => 3
  | .progTop => 4
  | .sysTop => 5
  | .diskDevice => 6
  | .tapeDevice => 7
  | .oldState => 8
  | .newState => 9
  | .currentBlock => 10
  | .finished => 11
  | .procID => 12
  | .devNumber => 13
  | .procExecStkTop => 14
  | .newStartState r => ⟨r + 15, (Nat.add_lt_add_right r.isLt 15).trans_le (by decide)⟩

/-- The variable with this number. -/
def ofIndex : ℕ → InitVar
  | 0 => .i
  | 1 => .tapeStatus
  | 2 => .diskStatus
  | 3 => .tlbTop
  | 4 => .progTop
  | 5 => .sysTop
  | 6 => .diskDevice
  | 7 => .tapeDevice
  | 8 => .oldState
  | 9 => .newState
  | 10 => .currentBlock
  | 11 => .finished
  | 12 => .procID
  | 13 => .devNumber
  | 14 => .procExecStkTop
  | r + 15 => .newStartState (Fin.ofNat _ r)

theorem ofIndex_index (v : InitVar) : ofIndex (index v) = v := by
  cases v with
  | newStartState r => exact congrArg InitVar.newStartState (Fin.ofNat_val_eq_self r)
  | _ => rfl

/-- A place for each variable. -/
def sampleSlot : InitVar ↪ Fin 1024 where
  toFun := index
  inj' v w h := by rw [← ofIndex_index v, h, ofIndex_index]

/-- A system with two user processes and four frames. -/
abbrev sampleSystem : Support where
  maxUserProc := 2
  swapSize := 4
  ramtop := 0x20100000
  tpSem procID := 0x20000000 + word procID

end Stack

end Jaeos
