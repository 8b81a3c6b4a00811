import Jaeos.Support.VmIo

/-!
# Starting the user processes (`phase3/initProc.c`)

`test` sets up the tables, creates the user processes and waits for their end. `uProcInit` sets
up the areas of a process and copies its tape to the backing store. Here both have their variables
for themselves; `Stack.uProcInit` has them in memory. `delayDaemon` never ends; a round is what it
does for one call of SYS7.
-/

namespace Jaeos

variable [Support]

/-! ## `test` -/

/-- The operations of `test`. -/
inductive TestOp : Type → Type where
  /-- write `header` -/
  | setHeader (t : PageTable) (v : Word) : TestOp Unit
  /-- write `pteTable[i].pte_entryHI` -/
  | setEntryHI (t : PageTable) (i : ℕ) (v : Word) : TestOp Unit
  /-- write `pteTable[i].pte_entryLO` -/
  | setEntryLO (t : PageTable) (i : ℕ) (v : Word) : TestOp Unit
  /-- write `swapPool[i].sw_asid` -/
  | setSwAsid (i : ℕ) (v : ℤ) : TestOp Unit
  /-- write `swapPool[i].sw_pte` -/
  | setSwPte (i : ℕ) (v : Option PteRef) : TestOp Unit
  /-- write a semaphore -/
  | setSem (s : Sem) (v : ℤ) : TestOp Unit
  /-- write a pointer of the segment table at `a` -/
  | setSegTbl (a : Word) (seg : Segment) (t : PageTable) : TestOp Unit
  /-- SYS1, and whether the nucleus has a PCB for the new process, which `test` does not learn -/
  | createProcess (st : State) : TestOp Bool
  /-- SYS4 -/
  | passeren (s : Sem) : TestOp Unit

/-- A single operation. -/
def tst {α : Type} (o : TestOp α) : ExceptT End (Prog TestOp) α := ExceptT.lift (Prog.op o)

omit [Support] in
/-- `header` of a page table with this many entries. -/
def pteHeader (size : ℤ) : Word := (pteMagicNo <<< magicNoShift) ||| word size

/-- `procState` for a process; what `test` does not set has been on its stack. -/
def procState (uProcInit : Word) (stack : State) (i : ℤ) : State :=
  (((stack.setReg sEntryHi (word i <<< asidShift)).setReg sSp
    (Support.ramtop - 3 * pageSize)).setReg sPc uProcInit).setReg sCpsr (allOff ||| systemMode)

/-- A round of the loop of `test` over the processes. -/
def setUpProcess (uProcInit : Word) (stack : State) (i : ℤ) :
    ExceptT End (Prog TestOp) Unit := do
  tst (.setHeader (.tpPte i) (pteHeader kUsegPteSize))
  (List.range 32).forM fun j => do
    tst (.setEntryHI (.tpPte i) j
      (((0x80000 + word j) <<< entryHiShift) ||| (word i <<< asidShift)))
    tst (.setEntryLO (.tpPte i) j (allOff ||| dirty))
  tst (.setEntryHI (.tpPte i) 31 (((0xBFFFF : Word) <<< entryHiShift) ||| (word i <<< asidShift)))
  let segTable := segTblStart + word i * segTblWidth
  tst (.setSegTbl segTable .ksegOS .kSegOS)
  tst (.setSegTbl segTable .kUseg2 (.tpPte i))
  tst (.setSegTbl segTable .kUseg3 .kUSeg3)
  tst (.setSem (.tpSem i) 0)
  let _ ← tst (.createProcess (procState uProcInit stack i))

/-- `test`, with the address of `uProcInit` and what has been on its stack, as long as nobody else
writes to this stack. -/
def test (uProcInit : Word) (stack : State) : ExceptT End (Prog TestOp) Unit := do
  tst (.setHeader .kSegOS (pteHeader kSegOsPteSize))
  (List.range 64).forM fun i => do
    tst (.setEntryHI .kSegOS i ((0x20000 + word i) <<< entryHiShift))
    tst (.setEntryLO .kSegOS i
      (((0x20000 + word i) <<< entryHiShift) ||| dirty ||| valid ||| global))
  tst (.setHeader .kUSeg3 (pteHeader kUsegPteSize))
  (List.range 32).forM fun i => do
    tst (.setEntryHI .kUSeg3 i ((0xC0000 + word i) <<< entryHiShift))
    tst (.setEntryLO .kUSeg3 i (allOff ||| dirty ||| global))
  (List.range Support.swapSize).forM fun i => do
    tst (.setSwAsid i (-1))
    tst (.setSwPte i none)
  tst (.setSem .swapSem 1)
  (List.range maxSema).forM fun i => tst (.setSem (.mutexSemArray i) 1)
  tst (.setSem .masterSem 0)
  (List.range Support.maxUserProc).forM fun k =>
    setUpProcess uProcInit stack (k + 1)
  -- the state of the delay daemon is set up too, but the daemon is not created
  (List.range Support.maxUserProc).forM fun _ => tst (.passeren .masterSem)
  throw .terminated

/-! ## `uProcInit` -/

omit [Support] in
/-- `devNumber` -/
def tapeDev (procID : ℤ) : ℤ := (tapeInt - diskInt) * 8 + (procID - 1)

omit [Support] in
/-- The buffer of a tape in `uProcInit`. -/
def tapeBuffer (procID : ℤ) : Word := osCodeTop + word (procID - 1) * pageSize

/-- `EXECTOP - ((procID - 1) * UPROCSTCKSIZE)` -/
def procExecStkTop (procID : ℤ) : Word :=
  osCodeTop + 16 * pageSize + BitVec.ofNat 32 Support.maxUserProc * 2 * pageSize -
    word (procID - 1) * (2 * pageSize)

/-- The address of a handler. -/
inductive Handler where
  /-- `vmMemHandler` -/
  | vmMemHandler
  /-- `vmPrgmHandler` -/
  | vmPrgmHandler
  /-- `vmSysHandler` -/
  | vmSysHandler

omit [Support] in
/-- The handler of a trap type. -/
def TrapType.handler : TrapType → Handler
  | .tlbTrap => .vmMemHandler
  | .progTrap => .vmPrgmHandler
  | .sysTrap => .vmSysHandler

/-- What runs at the address of a handler. -/
def Handler.program (fuel : ℕ) : Handler → SupM Unit
  | .vmMemHandler => Jaeos.vmMemHandler
  | .vmPrgmHandler => Jaeos.vmPrgmHandler
  | .vmSysHandler => Jaeos.vmSysHandler fuel

/-- A round of the first loop of `uProcInit`. -/
def setUpTrap (pc : Handler → Word) (procID : ℤ) (type : TrapType) : SupM Unit := do
  sup (.writeNew procID type sEntryHi (word procID <<< asidShift))
  sup (.writeNew procID type sCpsr allOff)
  sup (.writeNew procID type sControl (allOff ||| vmOn))
  let top := procExecStkTop procID
  sup (.writeNew procID type sSp (if type = .tlbTrap then top - pageSize else top))
  sup (.writeNew procID type sPc (pc type.handler))
  sup (.sesv type procID)

omit [Support] in
/-- The loop of `uProcInit` that reads the tape, for at most `fuel` blocks. -/
def loadTape (procID : ℤ) : ℕ → ℤ → SupM Unit
  | 0, _ => throw .stuck
  | fuel + 1, currentBlock => do
    enableInterrupts false
    sup (.writeDev (tapeDev procID) .dData0 (tapeBuffer procID))
    sup (.writeDev (tapeDev procID) .dCommand readBlk)
    let tapeStatus ← sup (.waitForIo tapeInt (procID - 1) 0)
    enableInterrupts true
    sup (.passeren (.mutexSemArray backingStore))
    enableInterrupts false
    sup (.writeDev 0 .dCommand ((word currentBlock <<< seekShift) ||| diskSeek))
    let diskStatus ← sup (.waitForIo diskInt backingStore 0)
    enableInterrupts true
    (if diskStatus = ready then do
      enableInterrupts false
      sup (.writeDev 0 .dData0 (tapeBuffer procID))
      sup (.writeDev 0 .dCommand ((word (procID - 1) <<< sectorShift) ||| writeBlk))
      let _ ← sup (.waitForIo diskInt backingStore 0)
      enableInterrupts true
    else pure ())
    sup (.verhogen (.mutexSemArray backingStore))
    let finished := (← sup (.readDev (tapeDev procID) .dData1)) ≠ eob
    if tapeStatus = ready ∧ ¬ finished then
      loadTape procID fuel (currentBlock + 1)

/-- `uProcInit`, with the addresses of the handlers and the number of blocks its tape is followed
for, in a process that has the stack to itself. -/
def uProcInit (pc : Handler → Word) (fuel : ℕ) : SupM Unit := do
  let procID := asid (← sup .getEntryHi)
  setUpTrap pc procID .tlbTrap
  setUpTrap pc procID .progTrap
  setUpTrap pc procID .sysTrap
  sup (.passeren (.mutexSemArray (tapeDev procID)))
  loadTape procID fuel 0
  sup (.verhogen (.mutexSemArray (tapeDev procID)))
  let newStartState ← sup .stst
  throw (.start (((((newStartState.setReg sEntryHi (word procID <<< asidShift)).setReg sSp
    kUseg3Addr).setReg sCpsr (allOff ||| userMode)).setReg sControl vmOn).setReg sPc 0x800000B0))

/-! ## `delayDaemon` -/

omit [Support] in
/-- The inner loop of `delayDaemon`, for at most `fuel` processes. -/
def wakeDelayed (currentTime : Word) : ℕ → SupM Unit
  | 0 => throw .stuck
  | fuel + 1 => do
    if (← sup .headDelaydTime).toInt ≤ currentTime.toInt then
      if (← sup .headDelaydTime) ≠ failed then
        let procID ← sup .removeDelay
        if procID = -1 then
          throw .panic
        sup (.verhogen (.tpSem procID))
        wakeDelayed currentTime fuel

/-- A round of `delayDaemon`. -/
def delayDaemon : SupM Unit := do
  sup .waitForClock
  let currentTime ← sup .stck
  -- the list has at most one node for each entry of its table
  wakeDelayed currentTime (Support.maxUserProc + 2)

end Jaeos
