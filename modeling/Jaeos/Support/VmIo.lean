import Jaeos.Support.Ops

/-!
# Virtual memory and I/O support (`phase3/vmIOsupport.c`)

A handler ends in `LDST`, SYS2 or `PANIC` and does not come back (`End`). The loops over
the characters of a terminal that only the terminal can end take the number of rounds
they are followed for.
-/

namespace Jaeos

variable [Support]

/-! ## Helpers -/

/-- `chooseFrame` -/
def chooseFrame : SupM ℕ := do
  let nextFrame := ((← sup .nextFrame) + 1) % Support.swapSize
  sup (.setNextFrame nextFrame)
  return nextFrame

omit [Support] in
/-- `readWriteBacking` -/
def readWriteBacking (cylinder sector : ℤ) (head readWriteComm address : Word) : SupM Unit := do
  if readWriteComm ≠ writeBlk ∧ readWriteComm ≠ readBlk then
    throw .panic
  sup (.passeren (.mutexSemArray backingStore))
  enableInterrupts false
  sup (.writeDev 0 .dCommand ((word cylinder <<< seekShift) ||| diskSeek))
  let diskStatus ← sup (.waitForIo diskInt backingStore 0)
  enableInterrupts true
  if diskStatus = ready then
    enableInterrupts false
    sup (.writeDev 0 .dData0 address)
    sup (.writeDev 0 .dCommand
      ((head <<< headShift) ||| (word (sector - 1) <<< sectorShift) ||| readWriteComm))
    let _ ← sup (.waitForIo diskInt backingStore 0)
    enableInterrupts true
  sup (.verhogen (.mutexSemArray backingStore))

/-- The loop of `virtualDeath` from frame `i` on, for as many frames: whether something was
modified. It sets all bits of the entry but `VALID`. -/
def invalidateFrames (procID : ℤ) : ℕ → ℕ → Bool → SupM Bool
  | 0, _, modified => return modified
  | k + 1, i, modified => do
    let frame ← sup (.swapPool i)
    if frame.swAsid = procID then
      match frame.swPte with
      | none => throw .stuck
      | some pte =>
        sup (.setPteEntryLO pte ((← sup (.pteEntryLO pte)) ||| ~~~valid))
        sup (.setSwapPool i { frame with swAsid := -1 })
        invalidateFrames procID k (i + 1) true
    else
      invalidateFrames procID k (i + 1) modified

/-- `virtualDeath` -/
def virtualDeath {α : Type} (procID : ℤ) : SupM α := do
  sup (.passeren .swapSem)
  enableInterrupts false
  if ← invalidateFrames procID Support.swapSize 0 false then
    sup .tlbclr
  enableInterrupts true
  sup (.verhogen .swapSem)
  sup (.verhogen .masterSem)
  throw .terminated

/-! ## Devices -/

section

omit [Support]

/-- The loop of `writeTerminal`, with `k` characters to go. -/
def writeTerminalLoop (devNum procID : ℤ) : ℕ → Word → SupM Unit
  | 0, _ => return ()
  | k + 1, virtAddr => do
    enableInterrupts false
    let c ← sup (.loadByte virtAddr)
    sup (.writeDev devNum .dData1 (transChar ||| (c.zeroExtend 32 <<< charShift)))
    let status ← sup (.waitForIo termInt (procID - 1) writeTerm)
    enableInterrupts true
    if status &&& 0xFF ≠ transmitChar then
      throw .panic
    writeTerminalLoop devNum procID k (virtAddr + 1)

/-- `writeTerminal` -/
def writeTerminal (virtAddr : Word) (len procID : ℤ) : SupM Unit := do
  let devNum := term0Dev + (procID - 1)
  sup (.passeren (.mutexSemArray (termWriteSem + (procID - 1))))
  writeTerminalLoop devNum procID len.toNat virtAddr
  sup (.verhogen (.mutexSemArray (termWriteSem + (procID - 1))))

/-- The loop of `readTerminal`, for at most `fuel` characters: the count. -/
def readTerminalLoop (devNum procID : ℤ) : ℕ → Word → Word → SupM Word
  | 0, _, _ => throw .stuck
  | fuel + 1, addr, count => do
    enableInterrupts false
    sup (.writeDev devNum .dCommand recvChar)
    let status ← sup (.waitForIo termInt (procID - 1) readTerm)
    enableInterrupts true
    let c := (status &&& 0xFF00) >>> 8
    if c = 0x0A then
      if status &&& 0xFF ≠ receiveChar then
        throw .panic
      return count
    else
      sup (.storeByte addr (c.truncate 8))
      if status &&& 0xFF ≠ receiveChar then
        throw .panic
      readTerminalLoop devNum procID fuel (addr + 1) (count + 1)

/-- `readTerminal` -/
def readTerminal (fuel : ℕ) (addr : Word) (procID : ℤ) : SupM Unit := do
  let devNum := term0Dev + (procID - 1)
  sup (.passeren (.mutexSemArray (termReadSem + (procID - 1))))
  let count ← readTerminalLoop devNum procID fuel addr 0
  sup (.writeOld procID .sysTrap sA1 count)
  sup (.verhogen (.mutexSemArray (termReadSem + (procID - 1))))

/-- The loop of `writePrinter`, with `k` characters to go. -/
def writePrinterLoop (devNum procID : ℤ) : ℕ → Word → SupM Unit
  | 0, _ => return ()
  | k + 1, virtAddr => do
    enableInterrupts false
    let c ← sup (.loadByte virtAddr)
    sup (.writeDev devNum .dData0 (c.zeroExtend 32))
    sup (.writeDev devNum .dCommand printChar)
    let status ← sup (.waitForIo prntInt (procID - 1) 0)
    enableInterrupts true
    if status &&& 0xFF ≠ ready then
      throw .panic
    writePrinterLoop devNum procID k (virtAddr + 1)

/-- `writePrinter` -/
def writePrinter (virtAddr : Word) (len procID : ℤ) : SupM Unit := do
  let devNum := print0Dev + (procID - 1)
  sup (.passeren (.mutexSemArray devNum))
  writePrinterLoop devNum procID len.toNat virtAddr
  sup (.verhogen (.mutexSemArray devNum))

end

/-- The buffer of a disk in `diskIo`. -/
def diskBuffer (diskNo : Word) : Word := osCodeTop + diskNo * pageSize

/-- The seek and the transfer of `diskIo`: the status. After the second SYS8 it calls
`enableInterrupts(FALSE)`. -/
def diskTransfer (diskNo head cylinder sector readWrite : Word) : SupM Word := do
  enableInterrupts false
  sup (.writeDev diskNo.toInt .dCommand ((cylinder <<< seekShift) ||| diskSeek))
  let diskStatus ← sup (.waitForIo diskInt diskNo.toInt 0)
  enableInterrupts true
  if diskStatus = ready then
    enableInterrupts false
    sup (.writeDev diskNo.toInt .dData0 (diskBuffer diskNo))
    sup (.writeDev diskNo.toInt .dCommand
      ((head <<< headShift) ||| (sector <<< sectorShift) ||| readWrite))
    let diskStatus ← sup (.waitForIo diskInt diskNo.toInt 0)
    enableInterrupts false
    return diskStatus
  else
    return diskStatus

/-- `diskIO` -/
def diskIo (blockAddr diskNo sectNo readWrite : Word) (procID : ℤ) : SupM Unit := do
  if diskNo.toInt ≤ 0 ∨ blockAddr < kUseg2Addr then
    virtualDeath procID
  let head := sectNo.srem 2
  let sectNo := sectNo.sdiv 2
  let sector := sectNo.srem 8
  let cylinder := sectNo.sdiv 8
  if readWrite ≠ writeBlk ∧ readWrite ≠ readBlk then
    throw .panic
  sup (.passeren (.mutexSemArray diskNo.toInt))
  (if readWrite = writeBlk then copyPage blockAddr (diskBuffer diskNo) else pure ())
  let diskStatus ← diskTransfer diskNo head cylinder sector readWrite
  (if readWrite = readBlk then copyPage (diskBuffer diskNo) blockAddr else pure ())
  sup (.writeOld procID .sysTrap sA1 diskStatus)
  sup (.verhogen (.mutexSemArray diskNo.toInt))

/-! ## The handlers -/

/-- `vmPrgmHandler` -/
def vmPrgmHandler : SupM Unit := do
  let procID := asid (← sup .getEntryHi)
  virtualDeath procID

/-- `missingSegNum` -/
def missingSegNum (entryHi : Word) : ℤ := (entryHi.sshiftRight 30).toInt

/-- `missingPageNum`, clipped to the size of the table. -/
def missingPageNum (entryHi : Word) : ℤ :=
  let page := ((entryHi &&& 0x3FFFF000) >>> 12).toNat
  if page ≥ kUsegPteSize then kUsegPteSize - 1 else page

/-- `vmMemHandler` -/
def vmMemHandler : SupM Unit := do
  let missingProcID := asid (← sup .getEntryHi)
  let cause ← sup (.readOld missingProcID .tlbTrap sCause)
  if cause ≠ tlbl ∧ cause ≠ tlbs then
    virtualDeath missingProcID
  let entryHi ← sup (.readOld missingProcID .tlbTrap sEntryHi)
  let segNum := missingSegNum entryHi
  let pageNum := missingPageNum entryHi
  sup (.passeren .swapSem)
  let frameNumber ← chooseFrame
  let swapAddr := swapAddr frameNumber
  let frame ← sup (.swapPool frameNumber)
  if frame.swAsid ≠ -1 then
    enableInterrupts false
    match frame.swPte with
    | none => throw .stuck
    | some pte => sup (.setPteEntryLO pte ((← sup (.pteEntryLO pte)) &&& ~~~valid))
    sup .tlbclr
    enableInterrupts true
    let frame ← sup (.swapPool frameNumber)
    readWriteBacking frame.swPageNo frame.swAsid userProcHead writeBlk swapAddr
  readWriteBacking pageNum missingProcID userProcHead readBlk swapAddr
  enableInterrupts false
  if segNum = kUseg3 then
    sup (.setSwapPool frameNumber ⟨missingProcID, segNum, pageNum, some (.kUSeg3 pageNum)⟩)
    sup (.setPteEntryLO (.kUSeg3 pageNum) (swapAddr ||| valid ||| dirty ||| global))
  else
    sup (.setSwapPool frameNumber
      ⟨missingProcID, segNum, pageNum, some (.uProc missingProcID pageNum)⟩)
    sup (.setPteEntryLO (.uProc missingProcID pageNum) (swapAddr ||| valid ||| dirty))
  sup .tlbclr
  enableInterrupts true
  sup (.verhogen .swapSem)
  throw (.ldst missingProcID .tlbTrap)

/-- `VSEMVIRT` -/
def vSemVirt (procID : ℤ) (vSemAdd : Word) : SupM Unit := do
  sup (.storeWord vSemAdd ((← sup (.loadWord vSemAdd)) + 1))
  if (← sup (.loadWord vSemAdd)).toInt ≤ 0 then
    let retProcID ← sup (.vRemoveBlocked vSemAdd)
    if retProcID = -1 then
      virtualDeath procID
    sup (.verhogen (.tpSem retProcID))

omit [Support] in
/-- `PSEMVIRT` -/
def pSemVirt (procID : ℤ) (vSemAdd : Word) : SupM Unit := do
  sup (.storeWord vSemAdd ((← sup (.loadWord vSemAdd)) - 1))
  if (← sup (.loadWord vSemAdd)).toInt < 0 then
    let _ ← sup (.vInsertBlocked vSemAdd procID)
    sup (.passeren (.tpSem procID))

/-- `DELAY` -/
def delay (procID : ℤ) (seconds : Word) : SupM Unit := do
  let delayTime := seconds * timeScale
  let _ ← sup (.vInsertBlocked (Support.tpSem procID) procID)
  let delayTime := (← sup .stck) + delayTime
  let _ ← sup (.insertDelay delayTime procID)
  sup (.passeren (.tpSem procID))

/-- `vmSysHandler`. A `READTERMINAL` is followed for `fuel` characters. -/
def vmSysHandler (fuel : ℕ) : SupM Unit := do
  let procID := asid (← sup .getEntryHi)
  let reg := fun r => sup (.readOld procID .sysTrap r)
  match (← reg sA1).toInt with
  | 9 => readTerminal fuel (← reg sA2) procID
  | 10 => writeTerminal (← reg sA2) (← reg sA3).toInt procID
  | 11 => vSemVirt procID (← reg sA2)
  | 12 => pSemVirt procID (← reg sA2)
  | 13 => delay procID (← reg sA2)
  | 14 => diskIo (← reg sA2) (← reg sA3) (← reg sA4) writeBlk procID
  | 15 => diskIo (← reg sA2) (← reg sA3) (← reg sA4) readBlk procID
  | 16 => writePrinter (← reg sA1) (← reg sA2).toInt procID
  | 17 => sup (.writeOld procID .sysTrap sA1 (← sup .stck))
  | 18 => virtualDeath procID
  | _ => pure ()
  throw (.ldst procID .sysTrap)

end Jaeos
