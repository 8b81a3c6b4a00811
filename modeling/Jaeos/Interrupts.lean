import Jaeos.Exceptions

/-!
# Interrupts (`phase2/interrupts.c`)
-/

namespace Jaeos

variable {n : ℕ}

/-- The test `(pendingDevice & bit) == bit`. -/
def pendingOn (oldInt : State) (bit : Word) : Bool :=
  (oldInt.sReg sCause).sshiftRight 24 &&& bit = bit

/-- The device line of an interrupt: the first pending one of lines 3 to 7. -/
def interruptLine (oldInt : State) : Option ℕ :=
  if pendingOn oldInt 0x08 then some 3
  else if pendingOn oldInt 0x10 then some 4
  else if pendingOn oldInt 0x20 then some 5
  else if pendingOn oldInt 0x40 then some 6
  else if pendingOn oldInt 0x80 then some 7
  else none

/-- The search of `getDeviceNumber`. After 32 shifts `currentDevice` is zero and the
test succeeds. -/
def getDeviceNumberLoop (devBitMap : Word) : ℕ → Word → ℕ → ℕ
  | 0, _, devNum => devNum
  | fuel + 1, currentDevice, devNum =>
    if currentDevice &&& devBitMap = currentDevice then devNum
    else getDeviceNumberLoop devBitMap fuel (currentDevice <<< 1) (devNum + 1)

/-- `getDeviceNumber` -/
def getDeviceNumber (devBitMap : Word) : ℕ := getDeviceNumberLoop devBitMap 32 1 0

/-- `returnFromInterrupt` -/
def returnFromInterrupt : NucM n Exit := do
  match (← globals).currentProcess with
  | some _ =>
    modifyClock fun c => { c with startTOD := c.todOut }
    return .ldst
  | none => return .getNewJob

/-- Wake the process that a device interrupt has unblocked. -/
def wakeIo (process : Fin n) (status : Word) : NucM n Unit := do
  store (.clearSemAdd process)
  setReturn process status
  modifyGlobals fun g => { g with softBlockCount := g.softBlockCount - 1 }
  store (.insertReady process)

/-- Write the registers of a device. -/
def modifyDev (index : ℕ) (f : Device → Device) : NucM n Unit :=
  modifyGlobals fun g => { g with devReg := Function.update g.devReg index (f (g.devReg index)) }

variable [Layout]

/-- The loop of a pseudo-clock tick. The ring of `CLCKTIMER` has at most `n` processes. -/
def tickLoop : ℕ → NucM n Unit
  | 0 => stuck
  | fuel + 1 => do
    match ← store (.removeBlocked (semArr clckTimer)) with
    | none => return ()
    | some process =>
      store (.clearSemAdd process)
      modifyGlobals fun g => { g with softBlockCount := g.softBlockCount - 1 }
      store (.insertReady process)
      tickLoop fuel

/-- The branch of the interval timer. -/
def timerInterrupt : NucM n Exit := do
  let c := (← globals).clock
  if c.intTimerFlag ∨ c.timeLeft < 0 then
    tickLoop (n + 1)
    modifyGlobals fun g => g.setMem (semArr clckTimer) 0
    setTIMER quantum c.todIn
    modifyClock fun c => { c with timeLeft := intervalTime, intTimerFlag := false }
    returnFromInterrupt
  else
    match (← globals).currentProcess with
    | some cur =>
      store (.insertReady cur)
      modifyGlobals fun g => { g with currentProcess := none }
    | none => pure ()
    setTIMER quantum c.todIn
    return .getNewJob

/-- `handleTerminal` -/
def handleTerminal (devNumber : ℕ) : NucM n Exit := do
  let index := 4 * devPerInt + devNumber
  let dev := (← globals).devReg index
  let receive : Bool := dev.dData0 &&& 0x0F = ready
  let semAdd := if receive then index else index + devPerInt
  if maxSema ≤ semAdd then
    return .undefined
  else
    addMem (semArr semAdd) 1
    if ((← globals).mem (semArr semAdd)).toInt ≤ 0 then
      match ← store (.removeBlocked (semArr semAdd)) with
      | some process =>
        wakeIo process (if receive then dev.dStatus else dev.dData0)
        modifyDev index fun d =>
          if receive then { d with dCommand := ack } else { d with dData1 := ack }
      | none => pure ()
    returnFromInterrupt

/-- The branch of the disk, tape, network and printer lines. -/
def deviceInterrupt (lineNum devNum : ℕ) : NucM n Exit := do
  let deviceIndex := devPerInt * (lineNum - 3) + devNum
  if maxSema ≤ deviceIndex then
    return .undefined
  else
    let dev := (← globals).devReg deviceIndex
    addMem (semArr deviceIndex) 1
    if ((← globals).mem (semArr deviceIndex)).toInt ≤ 0 then
      match ← store (.removeBlocked (semArr deviceIndex)) with
      | some process => wakeIo process dev.dStatus
      | none =>
        modifyGlobals fun g => { g with
          devStatus := Function.update g.devStatus deviceIndex dev.dStatus }
    modifyDev deviceIndex fun d => { d with dCommand := ack }
    returnFromInterrupt

/-- The branches of `interruptHandler`, once the current process is saved. -/
def interruptBranch (old : State) (bitmap : ℕ → Word) : NucM n Exit :=
  if pendingOn old 0x04 then
    timerInterrupt
  else
    match interruptLine old with
    | none => return .undefined
    | some lineNum =>
      let devNum := getDeviceNumber (bitmap (lineNum - 3))
      if lineNum = 7 then
        handleTerminal devNum
      else
        deviceInterrupt lineNum devNum

/-- `interruptHandler` -/
def interruptHandler : NucM n Exit := do
  modifyGlobals fun g => { g with intOld := g.intOld.setReg sPc (g.intOld.sReg sPc - 4) }
  let g ← globals
  match g.currentProcess with
  | some cur =>
    chargeTime cur
    setState cur g.intOld
  | none => pure ()
  interruptBranch g.intOld g.intBitmap

end Jaeos
