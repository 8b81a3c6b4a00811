import Jaeos.ProcQueue
import Jaeos.Lib.LinkedList

/-!
# The active semaphore list (`phase1/asl.c`)

The functions of `asl.c` on the store, in the monad of `Jaeos.Pcb`. The list
behind the dummy node is sorted by `s_semAdd`; each node owns a process queue.
-/

namespace Jaeos

open LinkedRing LinkedList

variable {n : ℕ}

/-! ## Field writes -/

/-- `semd->s_next = v` -/
def setSNext (d : SemdPtr) (v : Option SemdPtr) : StoreM n Unit :=
  modify fun st => { st with sNext := Function.update st.sNext d v }

/-- `semd->s_semAdd = v` -/
def setSSemAdd (d : SemdPtr) (v : ℕ) : StoreM n Unit :=
  modify fun st => { st with sSemAdd := Function.update st.sSemAdd d v }

/-- `semd->s_procQ = v` -/
def setSProcQ (d : SemdPtr) (v : Option (Fin n)) : StoreM n Unit :=
  modify fun st => { st with sProcQ := Function.update st.sProcQ d v }

/-! ## The free list -/

/-- `freeSemd` -/
def freeSemd (semd : SemdPtr) : StoreM n Unit := do
  match (← get).semdListH with
  | none =>
    modify fun st => { st with semdListH := some semd }
    setSNext semd none
  | some h =>
    setSNext semd (some h)
    modify fun st => { st with semdListH := some semd }

/-- `allocSemd` -/
def allocSemd : StoreM n (Option SemdPtr) := do
  match (← get).semdListH with
  | none => return none
  | some retSemd =>
    match (← get).sNext retSemd with
    | none => modify fun st => { st with semdListH := none }
    | some h =>
      modify fun st => { st with semdListH := some h }
      setSNext retSemd none
    setSProcQ retSemd none
    setSNext retSemd none
    setSSemAdd retSemd null
    return some retSemd

/-- `initASL`: every descriptor goes on the free list, and the last one comes off
again as the dummy. -/
def initASL : StoreM n Unit := do
  modify fun st => { st with semdListH := none }
  (List.finRange (maxProc + 1)).forM freeSemd
  let dummy ← (← allocSemd)
  setSNext dummy none
  setSSemAdd dummy 0
  modify fun st => { st with activeSemdListH := some dummy }

/-! ## The active list -/

/-- `getPrevSemd` -/
def getPrevSemd (semAdd : ℕ) : StoreM n SemdPtr := do
  let st ← get
  let h ← st.activeSemdListH
  findPrev st.sNext (fun d => st.sSemAdd d < semAdd) (maxProc + 1) h

/-- The active node for `semAdd` behind `prevSemd`, if there is one: the test every
function of the list makes first. -/
def foundSemd (prevSemd : SemdPtr) (semAdd : ℕ) : StoreM n (Option SemdPtr) := do
  match (← get).sNext prevSemd with
  | none => return none
  | some d => if (← get).sSemAdd d ≠ semAdd then return none else return some d

/-- Unweave the active node `d` behind `prevSemd` when its queue has become empty. -/
def unweaveEmpty (prevSemd d : SemdPtr) : StoreM n Unit := do
  if emptyProcQ ((← get).sProcQ d) then
    setSNext prevSemd ((← get).sNext d)
    setSNext d none
    freeSemd d

/-- `insertBlocked`: `true` when no descriptor is left for a new semaphore. -/
def insertBlocked (semAdd : ℕ) (p : Fin n) : StoreM n Bool := do
  let prevSemd ← getPrevSemd semAdd
  match ← foundSemd prevSemd semAdd with
  | none =>
    match ← allocSemd with
    | none => return true
    | some newSemd =>
      setSSemAdd newSemd semAdd
      setSProcQ newSemd mkEmptyProcQ
      setSemAdd p ((← get).sSemAdd newSemd)
      setSProcQ newSemd (← insertProcQ ((← get).sProcQ newSemd) p)
      setSNext newSemd ((← get).sNext prevSemd)
      setSNext prevSemd (some newSemd)
      return false
  | some d =>
    setSProcQ d (← insertProcQ ((← get).sProcQ d) p)
    setSemAdd p semAdd
    return false

/-- `removeBlocked` -/
def removeBlocked (semAdd : ℕ) : StoreM n (Option (Fin n)) := do
  let prevSemd ← getPrevSemd semAdd
  match ← foundSemd prevSemd semAdd with
  | none => return none
  | some d =>
    let (retPcb, tail) ← removeProcQ ((← get).sProcQ d)
    setSProcQ d tail
    unweaveEmpty prevSemd d
    return retPcb

/-- `outBlocked` -/
def outBlocked (p : Fin n) : StoreM n (Option (Fin n)) := do
  let prevSemd ← getPrevSemd ((← get).pSemAdd p)
  match ← foundSemd prevSemd ((← get).pSemAdd p) with
  | none => return none
  | some d =>
    let (retPcb, tail) ← outProcQ ((← get).sProcQ d) p
    setSProcQ d tail
    match retPcb with
    | none => return none
    | some q =>
      unweaveEmpty prevSemd d
      return some q

/-- `headBlocked` -/
def headBlocked (semAdd : ℕ) : StoreM n (Option (Fin n)) := do
  let prevSemd ← getPrevSemd semAdd
  match ← foundSemd prevSemd semAdd with
  | none => return none
  | some d => headProcQ ((← get).sProcQ d)

/-! ## What the store holds

The lists a reader of the store sees by following its pointers. -/

namespace Store

variable (st : Store n)

/-- The PCB free list. -/
def freeList : List (Fin n) := st.procQ st.pcbListH

/-- The ready queue. -/
def readyList : List (Fin n) := st.procQ st.readyQueue

/-- The nodes of the active semaphore list, behind the dummy. -/
def activeSemds : List SemdPtr :=
  match st.activeSemdListH with
  | none => []
  | some h => toList st.sNext (maxProc + 2) (st.sNext h)

/-- The semaphore descriptor free list. -/
def freeSemds : List SemdPtr := toList st.sNext (maxProc + 2) st.semdListH

/-- The processes blocked on the semaphore at `semAdd`, oldest first. -/
def blockedOn (semAdd : ℕ) : List (Fin n) :=
  match st.activeSemds.find? fun d => st.sSemAdd d = semAdd with
  | none => []
  | some d => st.procQ (st.sProcQ d)

end Store

end Jaeos
