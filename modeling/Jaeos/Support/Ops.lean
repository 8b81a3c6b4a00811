import Jaeos.Support.Types
import Jaeos.Lib.Trace

/-!
# The operations of the support level

The functions of `phase3` are programs over `SupOp`: what they ask of the nucleus,
of the hardware, of `avsl.c` and `adl.c`, and the variables they share. Different
results give the operations different meanings, and read the same programs.
-/

namespace Jaeos

/-- The operations of the support level. -/
inductive SupOp : Type → Type where
  /-- `getEntryHi()` -/
  | getEntryHi : SupOp Word
  /-- `getSTATUS()` -/
  | getSTATUS : SupOp Word
  /-- `setSTATUS(status)` -/
  | setSTATUS (status : Word) : SupOp Unit
  /-- `TLBCLR()` -/
  | tlbclr : SupOp Unit
  /-- `STCK` -/
  | stck : SupOp Word
  /-- `STST` -/
  | stst : SupOp State
  /-- SYS3 -/
  | verhogen (s : Sem) : SupOp Unit
  /-- SYS4 -/
  | passeren (s : Sem) : SupOp Unit
  /-- SYS5, with the areas of the process -/
  | sesv (type : TrapType) (procID : ℤ) : SupOp Unit
  /-- SYS7 -/
  | waitForClock : SupOp Unit
  /-- SYS8 -/
  | waitForIo (line dev term : ℤ) : SupOp Word
  /-- `uProcs[procID - 1].Told_trap[type].s_reg[r]` -/
  | readOld (procID : ℤ) (type : TrapType) (r : Fin stateRegNum) : SupOp Word
  /-- `uProcs[procID - 1].Told_trap[type].s_reg[r] = v` -/
  | writeOld (procID : ℤ) (type : TrapType) (r : Fin stateRegNum) (v : Word) : SupOp Unit
  /-- `uProcs[procID - 1].Tnew_trap[type].s_reg[r] = v` -/
  | writeNew (procID : ℤ) (type : TrapType) (r : Fin stateRegNum) (v : Word) : SupOp Unit
  /-- read a register of the device with this index in the register area -/
  | readDev (dev : ℤ) (f : DevField) : SupOp Word
  /-- write a register of a device -/
  | writeDev (dev : ℤ) (f : DevField) (v : Word) : SupOp Unit
  /-- read a byte of memory -/
  | loadByte (a : Word) : SupOp (BitVec 8)
  /-- write a byte of memory -/
  | storeByte (a : Word) (v : BitVec 8) : SupOp Unit
  /-- read a word of memory -/
  | loadWord (a : Word) : SupOp Word
  /-- write a word of memory -/
  | storeWord (a v : Word) : SupOp Unit
  /-- `nextFrame`, the static variable of `chooseFrame` -/
  | nextFrame : SupOp ℕ
  /-- write `nextFrame` -/
  | setNextFrame (i : ℕ) : SupOp Unit
  /-- `swapPool[i]` -/
  | swapPool (i : ℕ) : SupOp Swap
  /-- write `swapPool[i]` -/
  | setSwapPool (i : ℕ) (s : Swap) : SupOp Unit
  /-- `pte->pte_entryLO` -/
  | pteEntryLO (pte : PteRef) : SupOp Word
  /-- `pte->pte_entryLO = v` -/
  | setPteEntryLO (pte : PteRef) (v : Word) : SupOp Unit
  /-- `vInsertBlocked(vSemAdd, procID)` -/
  | vInsertBlocked (vSemAdd : Word) (procID : ℤ) : SupOp Bool
  /-- `vRemoveBlocked(vSemAdd)` -/
  | vRemoveBlocked (vSemAdd : Word) : SupOp ℤ
  /-- `headDelaydTime()` -/
  | headDelaydTime : SupOp Word
  /-- `insertDelay(wakeTime, procID)` -/
  | insertDelay (wakeTime : Word) (procID : ℤ) : SupOp Bool
  /-- `removeDelay()` -/
  | removeDelay : SupOp ℤ

/-- How a program of the support level ends early. -/
inductive End where
  /-- `LDST` of the old area of a process -/
  | ldst (procID : ℤ) (type : TrapType)
  /-- `LDST` of a new state -/
  | start (st : State)
  /-- SYS2 -/
  | terminated
  /-- `PANIC` -/
  | panic
  /-- a null pointer is followed, or a loop does not end -/
  | stuck

/-- Programs of the support level. -/
abbrev SupM : Type → Type 1 := ExceptT End (Prog SupOp)

/-- A single operation. -/
def sup {α : Type} (o : SupOp α) : SupM α := ExceptT.lift (Prog.op o)

theorem wpx_sup {A α : Type} {spec : Prog.Contract SupOp A} (o : SupOp α) {Q : α → A → Prop}
    {E : End → A → Prop} : Prog.wpx spec (sup o) Q E = spec α o Q := rfl

/-! ## Helpers of `initProc.c` -/

/-- `enableInterrupts` -/
def enableInterrupts (onOff : Bool) : SupM Unit := do
  let status ← sup .getSTATUS
  sup (.setSTATUS (if onOff then status &&& allIntEnabled else status ||| allIntDisabled))

/-- The loop of `copyPage`. -/
def copyWords : ℕ → Word → Word → SupM Unit
  | 0, _, _ => return ()
  | i + 1, source, target => do
    sup (.storeWord target (← sup (.loadWord source)))
    copyWords i (source + 4) (target + 4)

/-- `copyPage` -/
def copyPage (source target : Word) : SupM Unit := copyWords 1024 source target

/-- `((getEntryHi() & ENTRYMASK) >> ASIDSHIFT)` -/
def asid (entryHi : Word) : ℤ := ((entryHi &&& entryMask) >>> asidShift).toNat

theorem asid_nonneg (entryHi : Word) : 0 ≤ asid entryHi := Int.natCast_nonneg _

theorem asid_lt (entryHi : Word) : asid entryHi < 64 := by
  have hand : (entryHi &&& entryMask).toNat ≤ 0xFC0 := by
    rw [BitVec.toNat_and]
    exact Nat.and_le_right
  have hshift : ((entryHi &&& entryMask) >>> asidShift).toNat =
      (entryHi &&& entryMask).toNat / 2 ^ 6 := by
    rw [BitVec.toNat_ushiftRight, Nat.shiftRight_eq_div_pow]
  rw [asid, hshift]
  omega

end Jaeos
