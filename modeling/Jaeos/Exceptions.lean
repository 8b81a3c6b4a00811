import Jaeos.Nucleus

/-!
# Exceptions (`phase2/exceptions.c`)

The handlers of system calls and traps. `headBackHome` loads the current process
and does not come back, and neither does `getNewJob`; a handler that reaches one
of them ends there.
-/

namespace Jaeos

variable {n : ℕ}

/-- The system calls the nucleus serves. -/
inductive SysCall where
  /-- `CREATEPROCESS` -/
  | createProcess
  /-- `TERMINATEPROCESS` -/
  | terminateProcess
  /-- `VERHOGEN` -/
  | verhogen
  /-- `PASSEREN` -/
  | passeren
  /-- `SESV` -/
  | sesv
  /-- `GETCPUTIME` -/
  | getCpuTime
  /-- `WAITFORCLOCK` -/
  | waitForClock
  /-- `WAITFORIO` -/
  | waitForIo
  deriving DecidableEq

/-- The system call with a number, if it is one of 1 to 8. -/
def SysCall.ofNum (num : Word) : Option SysCall :=
  match num.toInt with
  | 1 => some .createProcess
  | 2 => some .terminateProcess
  | 3 => some .verhogen
  | 4 => some .passeren
  | 5 => some .sesv
  | 6 => some .getCpuTime
  | 7 => some .waitForClock
  | 8 => some .waitForIo
  | _ => none

/-! ## Helpers -/

/-- `headBackHome` -/
def headBackHome : NucM n Exit := do
  match (← globals).currentProcess with
  | none => return .undefined
  | some _ => return .ldst

/-- Read the clock, and charge the time since `startTOD` to `p` and to `timeLeft`. -/
def chargeTime (p : Fin n) : NucM n Unit := do
  let c := (← globals).clock
  let elapsedTime := c.todIn - c.startTOD
  store (.modifyData fun d =>
      { d with pTime := Function.update d.pTime p (d.pTime p + elapsedTime) })
  modifyClock fun c => { c with timeLeft := c.timeLeft - elapsedTime }

/-- The recursion depth that is enough for any forest of `n` processes. -/
def nukeFuel (n : ℕ) : ℕ := (n + 1) * (n + 1)

variable [Layout]

/-- The `if` of `nukeItTilItPukes`: out of the tree, the ready queue or the ASL. -/
def nukeDetach (parent : Fin n) : NucM n Unit := do
  if (← globals).currentProcess = some parent then
    let _ ← store (.outChild parent)
  else if (← store (.semAdd parent)) = null then
    let _ ← store (.outReady parent)
  else
    let _ ← store (.outBlocked parent)
    let semAdd ← store (.semAdd parent)
    if IsDevSem semAdd then
      modifyGlobals fun g => { g with softBlockCount := g.softBlockCount - 1 }
    else
      addMem semAdd 1

/-- The end of `nukeItTilItPukes`, for a process without children. -/
def nukeLeaf (parent : Fin n) : NucM n Unit := do
  nukeDetach parent
  store (.freePcb parent)
  modifyGlobals fun g => { g with processCount := g.processCount - 1 }

/-- `nukeItTilItPukes`. A round of its loop is a call for the youngest child and then
the same call again. -/
def nukeItTilItPukes : ℕ → Fin n → NucM n Unit
  | 0, _ => stuck
  | fuel + 1, parent => do
    if ← store (.emptyChild parent) then
      nukeLeaf parent
    else
      match ← store (.removeChild parent) with
      | none => stuck
      | some child =>
        nukeItTilItPukes fuel child
        nukeItTilItPukes fuel parent

/-- `passUpOrDie` -/
def passUpOrDie (type : TrapType) : NucM n Exit := do
  match (← globals).currentProcess with
  | none => return .undefined
  | some cur =>
    let areas := (← store .data).trap cur
    if areas.old type ≠ null then
      modifyGlobals fun g => { g with mem := writeState g.mem (areas.old type) (g.oldArea type) }
      setState cur (readState (← globals).mem (areas.new type))
      headBackHome
    else
      nukeItTilItPukes (nukeFuel n) cur
      return .getNewJob

/-- `progTrpHandler` -/
def progTrpHandler : NucM n Exit := passUpOrDie .progTrap

/-- `tlbHandler` -/
def tlbHandler : NucM n Exit := passUpOrDie .tlbTrap

/-- The cases of `sysFiveHandle` from the first of `types` on: each falls through to the
next one when its area has been populated, and the last one to the kill. -/
def sysFiveFrom (cur : Fin n) : List TrapType → NucM n Exit
  | [] => do
    nukeItTilItPukes (nukeFuel n) cur
    return .getNewJob
  | type :: types => do
    let areas := (← store .data).trap cur
    if areas.old type = null then
      let old := (← globals).sysCallOld
      let installed := areas.install type (old.sReg sA3).toNat (old.sReg sA4).toNat
      store (.modifyData fun d => { d with trap := Function.update d.trap cur installed })
      headBackHome
    else
      sysFiveFrom cur types

/-- The cases of `sysFiveHandle` from the one for a type on. -/
def sysFiveCases (type : Word) : List TrapType :=
  match type.toInt with
  | 0 => [.tlbTrap, .progTrap, .sysTrap]
  | 1 => [.progTrap, .sysTrap]
  | 2 => [.sysTrap]
  | _ => []

/-- `sysFiveHandle` -/
def sysFiveHandle (cur : Fin n) (type : Word) : NucM n Exit := sysFiveFrom cur (sysFiveCases type)

/-! ## System calls -/

/-- `CREATEPROCESS`. The result goes to the old area, not to the current process. -/
def createProcess (cur : Fin n) : NucM n Exit := do
  match ← store .allocPcb with
  | some newPcb =>
    modifyGlobals fun g => { g with
      sysCallOld := g.sysCallOld.setReg sA1 success
      processCount := g.processCount + 1 }
    let g ← globals
    setState newPcb (readState g.mem (g.sysCallOld.sReg sA2).toNat)
    store (.insertChild cur newPcb)
    store (.insertReady newPcb)
  | none =>
    modifyGlobals fun g => { g with sysCallOld := g.sysCallOld.setReg sA1 failed }
  headBackHome

/-- `TERMINATEPROCESS` -/
def terminateProcess (cur : Fin n) : NucM n Exit := do
  nukeItTilItPukes (nukeFuel n) cur
  modifyGlobals fun g => { g with currentProcess := none }
  return .getNewJob

/-- `VERHOGEN` -/
def verhogen : NucM n Exit := do
  let semAdd := ((← globals).sysCallOld.sReg sA2).toNat
  if semAdd = null then
    return .undefined
  else
    addMem semAdd 1
    if ((← globals).mem semAdd).toInt ≤ 0 then
      match ← store (.removeBlocked semAdd) with
      | none => return .undefined
      | some process =>
        store (.clearSemAdd process)
        store (.insertReady process)
        headBackHome
    else
      headBackHome

/-- Charge the time of the current process, block it on `semAdd` and leave no current
process. -/
def blockCurrent (cur : Fin n) (semAdd : ℕ) : NucM n Unit := do
  chargeTime cur
  let _ ← store (.insertBlocked semAdd cur)
  modifyGlobals fun g => { g with currentProcess := none }

/-- `PASSEREN` -/
def passeren (cur : Fin n) : NucM n Exit := do
  let semAdd := ((← globals).sysCallOld.sReg sA2).toNat
  if semAdd = null then
    return .undefined
  else
    addMem semAdd (-1)
    if ((← globals).mem semAdd).toInt < 0 then
      blockCurrent cur semAdd
      return .getNewJob
    else
      headBackHome

/-- `GETCPUTIME` -/
def getCpuTime (cur : Fin n) : NucM n Exit := do
  chargeTime cur
  setReturn cur (BitVec.ofInt 32 ((← store .data).pTime cur))
  modifyClock fun c => { c with startTOD := c.todOut }
  headBackHome

/-- `WAITFORCLOCK` -/
def waitForClock (cur : Fin n) : NucM n Exit := do
  addMem (semArr clckTimer) (-1)
  if ((← globals).mem (semArr clckTimer)).toInt < 0 then
    blockCurrent cur (semArr clckTimer)
    modifyGlobals fun g => { g with softBlockCount := g.softBlockCount + 1 }
    return .getNewJob
  else
    return .panic

/-- The device number of `WAITFORIO`. -/
def ioSemDev (old : State) : Word :=
  let semDev := 8 * (old.sReg sA2 - 3) + old.sReg sA3
  if old.sReg sA4 = 0 ∧ old.sReg sA2 = 7 then semDev + 8 else semDev

/-- `WAITFORIO` -/
def waitForIo (cur : Fin n) : NucM n Exit := do
  let semDev := (ioSemDev (← globals).sysCallOld).toNat
  if maxSema ≤ semDev then
    return .undefined
  else
    addMem (semArr semDev) (-1)
    let g ← globals
    if (g.mem (semArr semDev)).toInt < 0 then
      blockCurrent cur (semArr semDev)
      modifyGlobals fun g => { g with softBlockCount := g.softBlockCount + 1 }
      return .getNewJob
    else
      setReturn cur (g.devStatus semDev)
      headBackHome

/-- The `switch` of `sysCallHandler`, in system mode. -/
def serve (cur : Fin n) : Option SysCall → NucM n Exit
  | some .createProcess => createProcess cur
  | some .terminateProcess => terminateProcess cur
  | some .verhogen => verhogen
  | some .passeren => passeren cur
  | some .sesv => do sysFiveHandle cur ((← globals).sysCallOld.sReg sA2)
  | some .getCpuTime => getCpuTime cur
  | some .waitForClock => waitForClock cur
  | some .waitForIo => waitForIo cur
  | none => passUpOrDie .sysTrap

/-- `sysCallHandler` -/
def sysCallHandler : NucM n Exit := do
  let sysCallNum := SysCall.ofNum ((← globals).sysCallOld.sReg sA1)
  modifyGlobals fun g => { g with
    sysCallOld := g.sysCallOld.setReg sPc (g.sysCallOld.sReg sPc + 8) }
  let old := (← globals).sysCallOld
  match (← globals).currentProcess with
  | none => return .undefined
  | some cur =>
    setState cur old
    if old.sReg sCpsr &&& systemMode = systemMode then
      serve cur sysCallNum
    else if sysCallNum.isSome then
      -- a privileged call in user mode becomes a program trap
      modifyGlobals fun g => { g with progTrpOld := g.sysCallOld.setReg sCause reserved }
      progTrpHandler
    else
      passUpOrDie .sysTrap

end Jaeos
