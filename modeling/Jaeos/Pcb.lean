import Jaeos.Types
import Jaeos.Lib.LinkedRing

/-!
# Process control blocks (`phase1/pcb.c`)

The store holds the static data of `pcb.c` and `asl.c`: the table of `n` PCBs
with the PCB free list, and the table of semaphore descriptors with its two
lists. A pointer is an index into its table, `none` for `NULL`; every field of
a record is a map of its own, so that writes to different fields cannot alias.

The functions are the source's, statement by statement, in a state monad over
`Option`: a program that follows a null pointer, or whose loop does not end,
has no result. Where the source takes the address of a tail pointer, the
function takes its value and returns the new one.
-/

namespace Jaeos

open LinkedRing

/-- A semaphore descriptor of `semdTable`. -/
abbrev SemdPtr : Type := Fin (maxProc + 1)

/-- The fields of a PCB that carry no links. -/
structure PcbData (n : ℕ) where
  /-- the areas specified by SYS5 -/
  trap : Fin n → TrapAreas
  /-- `p_s` -/
  pS : Fin n → State
  /-- `p_time` -/
  pTime : Fin n → ℤ

/-- The static data of `asl.c`. -/
structure AslData (n : ℕ) where
  /-- `s_next` -/
  sNext : SemdPtr → Option SemdPtr
  /-- `s_semAdd` -/
  sSemAdd : SemdPtr → ℕ
  /-- `s_procQ` -/
  sProcQ : SemdPtr → Option (Fin n)
  /-- `semdList_h` -/
  semdListH : Option SemdPtr
  /-- `activeSemdList_h` -/
  activeSemdListH : Option SemdPtr

/-- The static data of `pcb.c` and `asl.c`. -/
structure Store (n : ℕ) extends PcbData n, AslData n where
  /-- `p_next` -/
  pNext : Fin n → Option (Fin n)
  /-- `p_prev` -/
  pPrev : Fin n → Option (Fin n)
  /-- `p_prnt` -/
  pPrnt : Fin n → Option (Fin n)
  /-- `p_child` -/
  pChild : Fin n → Option (Fin n)
  /-- `p_nextSib` -/
  pNextSib : Fin n → Option (Fin n)
  /-- `p_prevSib` -/
  pPrevSib : Fin n → Option (Fin n)
  /-- `p_semAdd` -/
  pSemAdd : Fin n → ℕ
  /-- `pcbList_h` -/
  pcbListH : Option (Fin n)
  /-- `readyQueue` -/
  readyQueue : Option (Fin n)

/-- Static storage before it is initialised. -/
def Store.zero : Store n where
  trap _ := TrapAreas.none
  pS _ := .zero
  pTime _ := 0
  sNext _ := none
  sSemAdd _ := 0
  sProcQ _ := none
  semdListH := none
  activeSemdListH := none
  pNext _ := none
  pPrev _ := none
  pPrnt _ := none
  pChild _ := none
  pNextSib _ := none
  pPrevSib _ := none
  pSemAdd _ := null
  pcbListH := none
  readyQueue := none

/-- Programs over the store. -/
abbrev StoreM (n : ℕ) : Type → Type := StateT (Store n) Option

variable {n : ℕ}

/-! ## Field writes -/

/-- `p->p_next = v` -/
def setNext (p : Fin n) (v : Option (Fin n)) : StoreM n Unit :=
  modify fun st => { st with pNext := Function.update st.pNext p v }

/-- `p->p_prev = v` -/
def setPrev (p : Fin n) (v : Option (Fin n)) : StoreM n Unit :=
  modify fun st => { st with pPrev := Function.update st.pPrev p v }

/-- `p->p_prnt = v` -/
def setPrnt (p : Fin n) (v : Option (Fin n)) : StoreM n Unit :=
  modify fun st => { st with pPrnt := Function.update st.pPrnt p v }

/-- `p->p_child = v` -/
def setChild (p : Fin n) (v : Option (Fin n)) : StoreM n Unit :=
  modify fun st => { st with pChild := Function.update st.pChild p v }

/-- `p->p_nextSib = v` -/
def setNextSib (p : Fin n) (v : Option (Fin n)) : StoreM n Unit :=
  modify fun st => { st with pNextSib := Function.update st.pNextSib p v }

/-- `p->p_prevSib = v` -/
def setPrevSib (p : Fin n) (v : Option (Fin n)) : StoreM n Unit :=
  modify fun st => { st with pPrevSib := Function.update st.pPrevSib p v }

/-- `p->p_semAdd = v` -/
def setSemAdd (p : Fin n) (v : ℕ) : StoreM n Unit :=
  modify fun st => { st with pSemAdd := Function.update st.pSemAdd p v }

/-! ## Process queues -/

/-- `mkEmptyProcQ` -/
def mkEmptyProcQ : Option (Fin n) := none

/-- `emptyProcQ` -/
def emptyProcQ (tp : Option (Fin n)) : Bool := tp.isNone

/-- `insertProcQ`: the new tail pointer. -/
def insertProcQ (tp : Option (Fin n)) (p : Fin n) : StoreM n (Option (Fin n)) := do
  match tp with
  | none =>
    setNext p (some p)
    setPrev p (some p)
  | some t =>
    setNext p ((← get).pNext t)
    setPrev (← (← get).pNext t) (some p)
    setNext t (some p)
    setPrev p (some t)
  return some p

/-- `headProcQ` -/
def headProcQ (tp : Option (Fin n)) : StoreM n (Option (Fin n)) := do
  match tp with
  | none => return none
  | some t => return (← get).pNext t

/-- The search of `outProcQ` from `retPcb` to the tail `t`. A ring has at most `n`
nodes, so a search that is still going after `n` of them never ends. -/
def outProcQLoop (t p : Fin n) : ℕ → Option (Fin n) → StoreM n (Option (Fin n))
  | 0, _ => failure
  | fuel + 1, retPcb => do
    if retPcb = some t then
      return none
    else if retPcb = some p then
      setNext (← (← get).pPrev p) ((← get).pNext p)
      setPrev (← (← get).pNext p) ((← get).pPrev p)
      setPrev p none
      setNext p none
      return some p
    else
      outProcQLoop t p fuel ((← get).pNext (← retPcb))

/-- `outProcQ`: the PCB removed, if any, and the new tail pointer. -/
def outProcQ (tp : Option (Fin n)) (p : Fin n) :
    StoreM n (Option (Fin n) × Option (Fin n)) := do
  match tp with
  | none => return (none, none)
  | some t =>
    if p = t then
      if (← get).pNext t ≠ some t then
        setNext (← (← get).pPrev t) ((← get).pNext t)
        setPrev (← (← get).pNext t) ((← get).pPrev t)
        return (some p, (← get).pPrev t)
      else
        return (some p, none)
    else
      return (← outProcQLoop t p n ((← get).pNext t), some t)

/-- `removeProcQ`: the PCB removed, if any, and the new tail pointer. -/
def removeProcQ (tp : Option (Fin n)) : StoreM n (Option (Fin n) × Option (Fin n)) := do
  match tp with
  | none => return (none, none)
  | some t => outProcQ tp (← (← get).pNext t)

/-! ## The PCB free list -/

/-- Wash the dishes: clear the links, the time and the trap areas of a PCB. -/
def washPcb (p : Fin n) : StoreM n Unit := do
  setNext p none
  setPrev p none
  setPrnt p none
  setChild p none
  setNextSib p none
  setPrevSib p none
  modify fun st => { st with
    pTime := Function.update st.pTime p 0
    trap := Function.update st.trap p TrapAreas.none }

/-- `freePcb`. It leaves `p_semAdd` as it is. -/
def freePcb (p : Fin n) : StoreM n Unit := do
  washPcb p
  let tail ← insertProcQ (← get).pcbListH p
  modify fun st => { st with pcbListH := tail }

/-- `allocPcb`. It leaves `p_semAdd` as it is. -/
def allocPcb : StoreM n (Option (Fin n)) := do
  let (retPcb, tail) ← removeProcQ (← get).pcbListH
  modify fun st => { st with pcbListH := tail }
  match retPcb with
  | none => return none
  | some p =>
    washPcb p
    return some p

/-- `initPcbs`: put every PCB of the table on the free list, in order. -/
def initPcbs : StoreM n Unit := do
  modify fun st => { st with pcbListH := mkEmptyProcQ }
  (List.finRange n).forM freePcb

/-! ## The process tree -/

/-- `emptyChild` -/
def emptyChild (p : Fin n) : StoreM n Bool := do
  return ((← get).pChild p).isNone

/-- `insertChild` -/
def insertChild (prnt p : Fin n) : StoreM n Unit := do
  if ← emptyChild prnt then
    setPrevSib p none
  else
    setNextSib (← (← get).pChild prnt) (some p)
    setPrevSib p ((← get).pChild prnt)
  setNextSib p none
  setChild prnt (some p)
  setPrnt p (some prnt)

/-- `removeChild` -/
def removeChild (prnt : Fin n) : StoreM n (Option (Fin n)) := do
  match (← get).pChild prnt with
  | none => return none
  | some retPcb =>
    match (← get).pPrevSib retPcb with
    | none =>
      setPrnt retPcb none
      setChild prnt none
      return some retPcb
    | some prev =>
      setChild prnt (some prev)
      setNextSib prev none
      setPrevSib retPcb none
      setPrnt retPcb none
      return some retPcb

/-- `outChild` -/
def outChild (p : Fin n) : StoreM n (Option (Fin n)) := do
  match (← get).pPrnt p with
  | none => return none
  | some prnt =>
    if some p = (← get).pChild prnt then
      removeChild prnt
    else
      match (← get).pPrevSib p with
      | none =>
        setPrevSib (← (← get).pNextSib p) none
      | some prev =>
        setPrevSib (← (← get).pNextSib p) (some prev)
        setNextSib prev ((← get).pNextSib p)
        setPrevSib p none
      setNextSib p none
      setPrnt p none
      return some p

end Jaeos
