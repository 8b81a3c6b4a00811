import Jaeos.Types

/-!
# Constants and types of the support level

The parts of `h/const.h` and `h/types.h` that `phase3` works with. `MAXUSERPROC`
and the addresses the linker chooses are parameters. A process is known by its
number (`procID`, from 1 on); an `int` that counts is an integer, and one that ends up
in a register or an address is a word.
-/

namespace Jaeos

/-! ## Constants -/

/-- `PAGESIZE` -/
abbrev pageSize : Word := 4096

/-- `KUSEG2ADDR` -/
abbrev kUseg2Addr : Word := 0x80000000

/-- `KUSEG3ADDR` -/
abbrev kUseg3Addr : Word := 0xC0000000

/-- `OSCODETOP` -/
abbrev osCodeTop : Word := 0x20000000 + 32 * pageSize

/-- `KUSEGPTESIZE` -/
abbrev kUsegPteSize : ℤ := 32

/-- `KSEGOSPTESIZE` -/
abbrev kSegOsPteSize : ℤ := 64

/-- `PTEMAGICNO` -/
abbrev pteMagicNo : Word := 0x2A

/-- `MAGICNOSHIFT` -/
abbrev magicNoShift : ℕ := 24

/-- `ENTRYHISHIFT` -/
abbrev entryHiShift : ℕ := 12

/-- `SEGTBLSTART` -/
abbrev segTblStart : Word := 0x7600

/-- `SEGTBLWIDTH` -/
abbrev segTblWidth : Word := 0xC

/-- `KUSEG3`, a segment number. -/
abbrev kUseg3 : ℤ := 3

/-- `ENTRYMASK` -/
abbrev entryMask : Word := 0xFC0

/-- `ASIDSHIFT` -/
abbrev asidShift : ℕ := 6

/-- `SECTORSHIFT` -/
abbrev sectorShift : ℕ := 8

/-- `HEADSHIFT` -/
abbrev headShift : ℕ := 16

/-- `SEEKSHIFT` -/
abbrev seekShift : ℕ := 8

/-- `CHARSHIFT` -/
abbrev charShift : ℕ := 8

/-- `TIMESCALE` -/
abbrev timeScale : Word := 1000000

/-- `ALLINTENABLED` -/
abbrev allIntEnabled : Word := 0xFFFFFF3F

/-- `ALLINTDISABLED` -/
abbrev allIntDisabled : Word := 0xC0

/-- `ALLOFF` -/
abbrev allOff : Word := 0

/-- `MODEMASK` -/
abbrev modeMask : Word := 0x1F

/-- `USERMODE` -/
abbrev userMode : Word := 0x10

/-- `VMON` -/
abbrev vmOn : Word := 1

/-- `DIRTY` -/
abbrev dirty : Word := 1 <<< 10

/-- `VALID` -/
abbrev valid : Word := 1 <<< 9

/-- `GLOBAL` -/
abbrev global : Word := 1 <<< 8

/-- `TLBL`, a cause. -/
abbrev tlbl : Word := 14

/-- `TLBS`, a cause. -/
abbrev tlbs : Word := 15

/-- `DISKSEEK`, a device command. -/
abbrev diskSeek : Word := 2

/-- `READBLK`, a device command. -/
abbrev readBlk : Word := 3

/-- `WRITEBLK`, a device command. -/
abbrev writeBlk : Word := 4

/-- `TRANSCHAR`, a device command. -/
abbrev transChar : Word := 2

/-- `RECVCHAR`, a device command. -/
abbrev recvChar : Word := 2

/-- `PRINTCHAR`, a device command. -/
abbrev printChar : Word := 2

/-- `TRANSMITCHAR`, a device status. -/
abbrev transmitChar : Word := 5

/-- `RECEIVECHAR`, a device status. -/
abbrev receiveChar : Word := 5

/-- `EOB`, a tape marker. -/
abbrev eob : Word := 2

/-- `USERPROCHEAD` -/
abbrev userProcHead : Word := 0

/-- `BACKINGSTORE`, a disk. -/
abbrev backingStore : ℤ := 0

/-- `PRINT0DEV` -/
abbrev print0Dev : ℤ := 24

/-- `TERM0DEV` -/
abbrev term0Dev : ℤ := 32

/-- `TERMREADSEM` -/
abbrev termReadSem : ℤ := 32

/-- `TERMWRITESEM` -/
abbrev termWriteSem : ℤ := 40

/-- `DISKINT`, an interrupt line. -/
abbrev diskInt : ℤ := 3

/-- `TAPEINT`, an interrupt line. -/
abbrev tapeInt : ℤ := 4

/-- `PRNTINT`, an interrupt line. -/
abbrev prntInt : ℤ := 6

/-- `TERMINT`, an interrupt line. -/
abbrev termInt : ℤ := 7

/-- `READTERM`, the last argument of SYS8. -/
abbrev readTerm : ℤ := 1

/-- `WRITETERM`, the last argument of SYS8. -/
abbrev writeTerm : ℤ := 0

/-- An `int` in a register. -/
abbrev word (i : ℤ) : Word := BitVec.ofInt 32 i

/-- `s_CP15_Control` -/
abbrev sControl : Fin stateRegNum := 17

/-- `s_CP15_EntryHi` -/
abbrev sEntryHi : Fin stateRegNum := 18

/-! ## What the code names by address -/

/-- A register of a device. -/
inductive DevField where
  /-- `d_status` -/
  | dStatus
  /-- `d_command`, `t_recv_command` -/
  | dCommand
  /-- `d_data0` -/
  | dData0
  /-- `d_data1`, `t_transm_command` -/
  | dData1
  deriving DecidableEq

/-- A semaphore of the support level. -/
inductive Sem where
  /-- `swapSem` -/
  | swapSem
  /-- `mutexSemArray[i]` -/
  | mutexSemArray (i : ℤ)
  /-- `masterSem` -/
  | masterSem
  /-- `uProcs[procID - 1].Tp_sem` -/
  | tpSem (procID : ℤ)
  deriving DecidableEq

/-- A page table entry of a user page. -/
inductive PteRef where
  /-- `uProcs[procID - 1].Tp_pte.pteTable[page]` -/
  | uProc (procID page : ℤ)
  /-- `kUSeg3.pteTable[page]` -/
  | kUSeg3 (page : ℤ)
  deriving DecidableEq

/-- A page table. -/
inductive PageTable where
  /-- `kSegOS` -/
  | kSegOS
  /-- `kUSeg3` -/
  | kUSeg3
  /-- `uProcs[procID - 1].Tp_pte` -/
  | tpPte (procID : ℤ)
  deriving DecidableEq

/-- A field of `segTbl_t`. -/
inductive Segment where
  /-- `ksegOS` -/
  | ksegOS
  /-- `kUseg2` -/
  | kUseg2
  /-- `kUseg3` -/
  | kUseg3
  deriving DecidableEq

/-- `swap_t` -/
structure Swap where
  /-- `sw_asid` -/
  swAsid : ℤ
  /-- `sw_segNo` -/
  swSegNo : ℤ
  /-- `sw_pageNo` -/
  swPageNo : ℤ
  /-- `sw_pte` -/
  swPte : Option PteRef
  deriving DecidableEq

/-- What the support level is built with. -/
class Support where
  /-- `MAXUSERPROC` -/
  maxUserProc : ℕ
  /-- `SWAPSIZE` -/
  swapSize : ℕ
  /-- `devReg->ramtop` -/
  ramtop : Word
  /-- `&uProcs[procID - 1].Tp_sem` -/
  tpSem : ℤ → Word

/-- A user process. -/
def IsUser [Support] (p : ℤ) : Prop := 1 ≤ p ∧ p ≤ Support.maxUserProc

instance [Support] (p : ℤ) : Decidable (IsUser p) := inferInstanceAs (Decidable (_ ∧ _))

/-- `SWAPPOOLSTART + frameNumber * PAGESIZE` -/
def swapAddr [Support] (frameNumber : ℕ) : Word :=
  Support.ramtop - 2 * pageSize - BitVec.ofNat 32 Support.swapSize * pageSize +
    BitVec.ofNat 32 frameNumber * pageSize

end Jaeos
