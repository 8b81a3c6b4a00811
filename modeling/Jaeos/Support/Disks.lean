import Jaeos.Support.DiskRead
import Jaeos.Support.PagerLoader

/-!
# Disk requests and tapes as a system

The user processes write and read sectors with SYS14 and SYS15, while others still copy their tapes
to the backing store with `uProcInit`. All of this goes through buffers in memory: one for each
disk and one for each tape. A process may lose the processor at its SYSCALLs.
-/

namespace Jaeos

/-! ## The state -/

/-- The address is in kUseg2, which each process has for itself. -/
def Word.Private (a : Word) : Prop := kUseg2Addr ≤ a ∧ a < kUseg3Addr

instance decidablePrivate (a : Word) : Decidable (Word.Private a) :=
  inferInstanceAs (Decidable (_ ∧ _))

/-- What the processes share, and the private words of each. -/
structure Disks extends Hardware where
  /-- the words of kUseg2 of each process -/
  user : ℤ → Ram
  /-- `swapPool` -/
  swapPool : ℕ → Swap
  /-- `pte_entryLO` of each entry -/
  pte : PteRef → Word
  /-- for the record, the page for each sector of each disk that the last process had which took
  the mutex of the disk to write there -/
  put : ℤ → Word → Option Page

namespace Disks

open Hardware

variable (s : Disks) (i : ℤ)

/-- The same over another hardware. -/
def onto (h : Hardware) : Disks := { s with toHardware := h }

/-- A word as the process sees it. -/
def view (a : Word) : Word := if a.Private then s.user i a else s.ram a

/-- A page as the process sees it. -/
def page (a : Word) : Page := fun w => s.view i (wordAt a w)

/-- The process writes a word. -/
def store (a v : Word) : Disks :=
  if a.Private then { s with user := Function.update s.user i ((s.user i).store a v) }
  else { s with ram := s.ram.store a v }

/-- The number of the call the process has made. -/
def number : Word := s.old i .sysTrap sA1

/-- The address in the call. -/
def address : Word := s.old i .sysTrap sA2

/-- The disk in the call. -/
def diskNo : Word := s.old i .sysTrap sA3

/-- The sector in the call. -/
def sectNo : Word := s.old i .sysTrap sA4

/-- Note what the process is to write, if it is about to take a disk to write a sector. -/
def offer : Sem → Disks
  | .mutexSemArray d =>
    if s.number i = 14 then
      let pages := Function.update (s.put d) (s.sectNo i) (some (s.page i (s.address i)))
      { s with put := Function.update s.put d pages }
    else s
  | _ => s

/-! ## Operations -/

/-- What an operation does for a process. -/
def sem (ans : Word) : ∀ β, SupOp β → StateT Disks Option β
  | _, .loadWord a => fun s => some (s.view i a, s)
  | _, .storeWord a v => fun s => some ((), s.store i a v)
  | _, .passeren m => fun s => (s.passeren i m).map fun h => ((), (s.offer i m).onto h)
  | _, .tlbclr => fun s => some ((), s)
  | _, .swapPool f => fun s => some (s.swapPool f, s)
  | _, .setSwapPool f frame => fun s =>
    some ((), { s with swapPool := Function.update s.swapPool f frame })
  | _, .pteEntryLO r => fun s => some (s.pte r, s)
  | _, .setPteEntryLO r v => fun s => some ((), { s with pte := Function.update s.pte r v })
  | _, o => fun s => (Hardware.sem i ans _ o s.toHardware).map fun r => (r.1, s.onto r.2)

/-- A process may lose the processor before a SYSCALL, and before its program begins. -/
def yields (_ : ℤ) (β : Type) (o : SupOp β) (_ : Disks) : Bool :=
  match o with
  | .getEntryHi => true
  | o => Hardware.atSyscall o

/-! ## User mode -/

/-- What a process asks for with SYS14 or SYS15. -/
structure Request where
  /-- the number of the call -/
  number : Word
  /-- the page in its memory -/
  address : Word
  /-- the disk -/
  diskNo : Word
  /-- the sector -/
  sectNo : Word

/-- A step of a process in user mode. -/
inductive Act where
  /-- it stores a word -/
  | store (a v : Word)
  /-- it calls SYS14 or SYS15 -/
  | call (q : Request)

/-- The processor takes the trap of a call. -/
def trap (q : Request) : Disks :=
  let s₁ := (s.setOld i .sysTrap sA1 q.number).setOld i .sysTrap sA2 q.address
  s.onto (((s₁.setOld i .sysTrap sA3 q.diskNo).setOld i .sysTrap sA4 q.sectNo).setStatus i allOff)

variable [Support]

/-- What a process does in user mode, and the program it runs next. -/
def act (l : Act) (a : Except End Unit) : Option (Prog SupOp (Except End Unit) × Disks) :=
  if InUserMode a then
    match l with
    | .store b v => if kUseg2Addr ≤ b then some (.ret a, s.store i b v) else none
    | .call q =>
      if q.number = 14 ∨ q.number = 15 then some ((vmSysHandler 0).run, s.trap i q) else none
  else none

/-- The system. -/
def threads : Threads SupOp ℤ Disks Word (Except End Unit) Act :=
  ⟨sem, yields, fun i l a s => s.act i l a⟩

/-! ## Runs -/

/-- What `test` sets up. -/
structure Initial : Prop where
  /-- the semaphores are 1 -/
  holder : ∀ m, s.holder m = none
  /-- `swapPool` -/
  swapPool : ∀ f < Support.swapSize, (s.swapPool f).swAsid = -1 ∧ (s.swapPool f).swPte = none
  /-- nothing has been written -/
  put : ∀ d n, s.put d n = none

/-- Each process is in front of `uProcInit`, whose loop is followed for this many rounds, with
variables of its own. -/
def configFor (pc : Handler → Word) (fuel : ℤ → ℕ) :
    Threads.Config SupOp ℤ Disks (Except End Unit) where
  shared := s
  prog i := if IsUser i then (uProcInit pc (fuel i)).run else .ret (.error .terminated)
  cur := none

omit [Support]

/-- The call is for disk 1 to 7, and the cylinder of its sector has 16 bits. -/
def Request.Fits (q : Request) : Prop :=
  1 ≤ q.diskNo.toInt ∧ q.diskNo.toInt ≤ 7 ∧ q.sectNo.toNat < 2 ^ 20

instance (q : Request) : Decidable q.Fits := inferInstanceAs (Decidable (_ ∧ _ ∧ _))

/-- The calls fit. -/
def Act.Fits : Act → Prop
  | .store _ _ => True
  | .call q => q.Fits

instance (l : Act) : Decidable l.Fits := by
  cases l <;> unfold Act.Fits <;> infer_instance

/-- A buffer is filled only while the mutex of the other device is free that has this buffer. -/
def FillsAlone (i : ℤ) (s : Disks) : ∀ β, SupOp β → Prop
  -- SYS14 copies its page as soon as it has the mutex of the disk
  | _, .passeren (.mutexSemArray d) => s.number i = 14 → 1 ≤ d → d ≤ 7 →
    s.holder (.mutexSemArray (tapeDev (d + 1))) = none
  -- a disk or a tape reads a block
  | _, .waitForIo line d _ =>
    (line = diskInt → 1 ≤ d → d ≤ 7 → opcode (s.reg d .dCommand) = readBlk →
      s.holder (.mutexSemArray (tapeDev (d + 1))) = none) ∧
    (line = tapeInt → 1 ≤ d → d ≤ 7 → s.holder (.mutexSemArray d) = none)
  | _, _ => True

/-! ## The round trip -/

/-- What an operation finds, when `put` says what has been written and `blocks` what was on the
disks at first. -/
def Exact (put : ℤ → Word → Option Page) (blocks : ℤ → Block → Page) (i : ℤ) (s : Disks) :
    ∀ β, SupOp β → Prop
  -- SYS15 has copied the page and reports its status
  | _, .writeOld _ _ _ _ => s.number i = 15 →
    s.holder (.mutexSemArray (s.diskNo i).toInt) = some i ∧
      s.page i (s.address i) = (put (s.diskNo i).toInt (s.sectNo i)).getD
        (blocks (s.diskNo i).toInt (sectorBlock (s.sectNo i)))
  -- SYS15 copies a word from its buffer
  | _, .loadWord a => s.number i = 15 → ∀ w, a = wordAt (diskBuffer (s.diskNo i)) w →
    s.view i a = s.blocks (s.diskNo i).toInt (sectorBlock (s.sectNo i)) w
  -- the disk writes for SYS14 what is in the buffer
  | _, .waitForIo line d _ => s.number i = 14 → line = diskInt → 1 ≤ d →
    opcode (s.reg d .dCommand) = writeBlk →
      put d (s.sectNo i) = some (s.ram.page (s.reg d .dData0))
  | _, _ => True

/-- The buffer of a disk or a tape, by the index of the device. -/
def buffer (dev : ℤ) : Word := if dev < 8 then diskBuffer (word dev) else tapeBuffer (dev - 7)

/-- The buffers of the devices that others use stay as they are. -/
def LeavesBuffers (i : ℤ) (s s' : Disks) : Prop :=
  ∀ j, j ≠ i → ∀ dev, 1 ≤ dev → dev ≤ 15 → s.holder (.mutexSemArray dev) = some j →
    s'.ram.page (buffer dev) = s.ram.page (buffer dev)

/-- The tape of the process is on the backing store. -/
def HasTape (tapes : ℤ → List Page) (i : ℤ) (s : Disks) : Prop :=
  ∀ k p, (tapes i)[k]? = some p → s.blocks 0 (pageBlock i k) = p

end Disks

end Jaeos
