import Jaeos.Support.Hardware
import Jaeos.Lib.Threads

/-!
# User processes and the pager as a system

Each user process copies its tape to the backing store and then runs: it loads and stores,
takes faults, and dies. `vmMemHandler`, `virtualDeath` and `uProcInit` are the programs of
`phase3`; they may be interrupted before each operation, unless the process has its interrupts
disabled. An entry of a page table may be cached in the TLB until it is cleared.
-/

namespace Jaeos

/-! ## Page table entries -/

/-- The frame address of `pte_entryLO`. -/
def frameAddress (entryLO : Word) : Word := entryLO &&& 0xFFFFF000

/-- `VALID` is set. -/
def IsValid (entryLO : Word) : Prop := entryLO &&& valid ≠ 0

/-- `DIRTY` is set: the page may be written. -/
def IsDirty (entryLO : Word) : Prop := entryLO &&& dirty ≠ 0

instance (e : Word) : Decidable (IsValid e) := inferInstanceAs (Decidable (_ ≠ _))

instance (e : Word) : Decidable (IsDirty e) := inferInstanceAs (Decidable (_ ≠ _))

/-- The index of a page in its table. -/
def IsPage (page : ℤ) : Prop := 0 ≤ page ∧ page < kUsegPteSize

instance (page : ℤ) : Decidable (IsPage page) := inferInstanceAs (Decidable (_ ∧ _))

namespace PteRef

/-- A process uses this entry. -/
def Of (i : ℤ) : PteRef → Prop
  | uProc procID page => procID = i ∧ IsPage page
  | kUSeg3 page => IsPage page

instance (i : ℤ) (r : PteRef) : Decidable (r.Of i) := by
  cases r <;> unfold Of <;> infer_instance

/-- An entry of a user process, or of the shared segment. -/
def IsUser [Support] : PteRef → Prop
  | uProc procID page => Jaeos.IsUser procID ∧ IsPage page
  | kUSeg3 page => IsPage page

end PteRef

/-! ## The state -/

/-- What the user processes share. -/
structure Paging extends Hardware where
  /-- `nextFrame` -/
  nextFrame : ℕ
  /-- `swapPool` -/
  swapPool : ℕ → Swap
  /-- `pte_entryLO` of each entry -/
  pte : PteRef → Word
  /-- the entries in the TLB -/
  tlb : PteRef → Option Word
  /-- for the record, the value each process has stored last at each word of its own pages -/
  stored : ℤ → ℤ → Fin 1024 → Option Word
  /-- for the record, whether the last trap of each process was its end -/
  dying : ℤ → Bool

namespace Paging

/-- What an operation does for a process. -/
def sem (i : ℤ) (ans : Word) : ∀ β, SupOp β → StateT Paging Option β
  | _, .tlbclr => fun s => some ((), { s with tlb := fun _ => none })
  | _, .nextFrame => fun s => some (s.nextFrame, s)
  | _, .setNextFrame f => fun s => some ((), { s with nextFrame := f })
  | _, .swapPool f => fun s => some (s.swapPool f, s)
  | _, .setSwapPool f frame => fun s =>
    some ((), { s with swapPool := Function.update s.swapPool f frame })
  | _, .pteEntryLO r => fun s => some (s.pte r, s)
  | _, .setPteEntryLO r v => fun s => some ((), { s with pte := Function.update s.pte r v })
  | _, o => fun s =>
    (Hardware.sem i ans _ o s.toHardware).map fun r => (r.1, { s with toHardware := r.2 })

/-- A process may lose the processor before each operation, unless its interrupts are disabled;
and at a SYSCALL in any case. -/
def yields (i : ℤ) (β : Type) (o : SupOp β) (s : Paging) : Bool :=
  Hardware.atSyscall o || decide (s.status i &&& allIntDisabled ≠ allIntDisabled)

/-- The entry that an access to a page uses: the cached one, or one that is `VALID`. -/
def entry (s : Paging) (r : PteRef) : Option Word :=
  match s.tlb r with
  | some e => some e
  | none => if IsValid (s.pte r) then some (s.pte r) else none

/-- An entry is cached, and may have displaced others. -/
def cache (s : Paging) (r : PteRef) (e : Word) (keep : PteRef → Bool) : Paging :=
  { s with tlb := fun q => if q = r then some e else if keep q then s.tlb q else none }

/-- A store to a word of a page. -/
def write (s : Paging) (r : PteRef) (e : Word) (w : Fin 1024) (v : Word) : Paging :=
  { s with
    ram := s.ram.store (wordAt (frameAddress e) w) v
    stored := fun i k x => if r = .uProc i k ∧ x = w then some v else s.stored i k x }

end Paging

/-! ## What a process does in user mode -/

/-- A step of a process in user mode. -/
inductive Act where
  /-- it loads `v` from a word of a page; the entry is cached, and `keep` says which others stay -/
  | load (r : PteRef) (w : Fin 1024) (v : Word) (keep : PteRef → Bool)
  /-- it stores `v` -/
  | store (r : PteRef) (w : Fin 1024) (v : Word) (keep : PteRef → Bool)
  /-- a TLB trap, with the cause and `EntryHi` -/
  | fault (cause entryHi : Word)
  /-- a trap that ends it -/
  | death

/-- The process is in user mode: its start state or its old state has been loaded. -/
def InUserMode : Except End Unit → Prop
  | .error (.start _) => True
  | .error (.ldst _ _) => True
  | _ => False

instance (a : Except End Unit) : Decidable (InUserMode a) := by
  unfold InUserMode
  split <;> infer_instance

namespace Paging

/-- The processor takes a TLB trap. -/
def fault (s : Paging) (i : ℤ) (cause entryHi : Word) : Paging :=
  { s with
    toHardware :=
      ((s.setOld i .tlbTrap sCause cause).setOld i .tlbTrap sEntryHi entryHi).setStatus i allOff
    dying := Function.update s.dying i (decide (cause ≠ tlbl ∧ cause ≠ tlbs)) }

/-- The processor takes a trap that ends the process. -/
def death (s : Paging) (i : ℤ) : Paging :=
  { s with
    toHardware := s.setStatus i allOff
    dying := Function.update s.dying i true }

variable [Support]

/-- What a process does in user mode, and the program it runs next. -/
def act (i : ℤ) (l : Act) (a : Except End Unit) (s : Paging) :
    Option (Prog SupOp (Except End Unit) × Paging) :=
  if InUserMode a then
    match l with
    | .load r w v keep => (s.entry r).bind fun e =>
      if r.Of i ∧ s.ram.page (frameAddress e) w = v then some (.ret a, s.cache r e keep) else none
    | .store r w v keep => (s.entry r).bind fun e =>
      if r.Of i ∧ IsDirty e then some (.ret a, (s.cache r e keep).write r e w v) else none
    | .fault cause entryHi => some (vmMemHandler.run, s.fault i cause entryHi)
    | .death => some ((virtualDeath i : SupM Unit).run, s.death i)
  else none

/-- The system. -/
def threads : Threads SupOp ℤ Paging Word (Except End Unit) Act := ⟨sem, yields, act⟩

/-- A configuration of the system. -/
abbrev Config := Threads.Config SupOp ℤ Paging (Except End Unit)

/-- A step of the system. -/
abbrev Event := Threads.Event ℤ Word Act

/-! ## Runs -/

/-- What `test` sets up. Each user process has a tape. -/
structure Initial (s : Paging) : Prop where
  /-- the semaphores are 1 -/
  holder : ∀ m, s.holder m = none
  /-- no interrupt is disabled -/
  status : ∀ i, s.status i &&& allIntDisabled ≠ allIntDisabled
  /-- `nextFrame` -/
  nextFrame : s.nextFrame = 0
  /-- `swapPool` -/
  swapPool : ∀ f < Support.swapSize, (s.swapPool f).swAsid = -1 ∧ (s.swapPool f).swPte = none
  /-- `uProcs[i - 1].Tp_pte` -/
  uProc : ∀ i k, IsUser i → IsPage k → s.pte (.uProc i k) = allOff ||| dirty
  /-- `kUSeg3` -/
  kUSeg3 : ∀ k, IsPage k → s.pte (.kUSeg3 k) = allOff ||| dirty ||| global
  /-- no entry is cached -/
  tlb : ∀ r, s.tlb r = none
  /-- nothing has been stored -/
  stored : ∀ i k w, s.stored i k w = none
  /-- nobody dies -/
  dying : ∀ i, s.dying i = false

/-- Each process is in front of `uProcInit`, which is followed for this many blocks of its tape and
has variables of its own. -/
def configFor (pc : Handler → Word) (fuel : ℤ → ℕ) (s : Paging) : Config where
  shared := s
  prog i := if IsUser i then (uProcInit pc (fuel i)).run else .ret (.error .terminated)
  cur := none

/-- Each process is in front of `uProcInit`, which is followed to the end of its tape. -/
def config (pc : Handler → Word) (s : Paging) : Config :=
  s.configFor pc fun i => (s.tape (tapeDev i)).length + 1

/-- The configurations that `test` can set up. -/
def Starts (pc : Handler → Word) (c : Config) : Prop := ∃ s : Paging, s.Initial ∧ c = s.config pc

/-- The runs of the system. -/
abbrev Run (pc : Handler → Word) : List (Config × Event) → Config → Prop :=
  Transition.Run (Starts pc) threads.Step

end Paging

/-- The swap pool is in memory above the buffers, and there is an `EntryHi` for each process. -/
structure PoolFits [Support] : Prop where
  /-- there is a frame -/
  frames : 0 < Support.swapSize
  /-- the processes have different numbers in `EntryHi` -/
  users : Support.maxUserProc < 64
  /-- memory is a number of pages -/
  aligned : Support.ramtop.Aligned
  /-- the frames are above the buffers of the tapes -/
  room : osCodeTop.toNat + (Support.maxUserProc + Support.swapSize + 2) * 4096 ≤
    Support.ramtop.toNat

end Jaeos
