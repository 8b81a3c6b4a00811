import Jaeos.Support.InitProc
import Mathlib.Logic.Function.Basic

/-!
# What the processes of the support level share below it

Memory, the disks and the tapes, and the semaphores that are used as mutexes. A device
performs its command while a process waits for it with SYS8, and then reports a status;
which status is up to the environment. `Hardware.sem` is the meaning of the operations that
need no more than this.
-/

namespace Jaeos

/-! ## Memory -/

/-- The words of a page of memory, or of a block of a device. -/
abbrev Page := Fin 1024 → Word

/-- The words of memory. -/
abbrev Ram := Word → Word

/-- The address begins a page. -/
def Word.Aligned (a : Word) : Prop := a.toNat % 4096 = 0

instance decidableAligned (a : Word) : Decidable (Word.Aligned a) :=
  inferInstanceAs (Decidable (_ = _))

/-- The address of a word of a page. -/
def wordAt (a : Word) (w : Fin 1024) : Word := a + BitVec.ofNat 32 (4 * w)

/-- The words of the page at an address. -/
def Ram.page (m : Ram) (a : Word) : Page := fun w => m (wordAt a w)

/-- Write a page. -/
def Ram.setPage (m : Ram) (a : Word) (p : Page) : Ram := fun b =>
  if h : (b - a).toNat / 4 < 1024 ∧ (b - a).toNat % 4 = 0 then p ⟨(b - a).toNat / 4, h.1⟩ else m b

/-- Write a word. -/
def Ram.store (m : Ram) (a v : Word) : Ram := Function.update m a v

theorem wordAt_sub (a : Word) (w : Fin 1024) : (wordAt a w - a).toNat = 4 * w := by
  have hw := w.isLt
  rw [wordAt, BitVec.toNat_sub, BitVec.toNat_add, BitVec.toNat_ofNat]
  have ha := a.isLt
  omega

theorem wordAt_left_inj {a : Word} {v w : Fin 1024} (h : wordAt a v = wordAt a w) : v = w := by
  have hv := wordAt_sub a v
  rw [h, wordAt_sub] at hv
  exact Fin.ext (by omega)

/-- Different pages have no word in common. -/
theorem wordAt_inj {a b : Word} (ha : a.Aligned) (hb : b.Aligned) {v w : Fin 1024}
    (h : wordAt a v = wordAt b w) : a = b ∧ v = w := by
  have hv := v.isLt
  have hw := w.isLt
  have ha' := a.isLt
  have hb' := b.isLt
  have hnat := congrArg BitVec.toNat h
  rw [Word.Aligned] at ha hb
  simp only [wordAt, BitVec.toNat_add, BitVec.toNat_ofNat] at hnat
  refine ⟨BitVec.eq_of_toNat_eq ?_, Fin.ext ?_⟩ <;> omega

namespace Ram

variable {m : Ram} {a b v : Word} {p : Page}

theorem page_setPage_self : (m.setPage a p).page a = p := by
  funext w
  have hsub := wordAt_sub a w
  have hw := w.isLt
  have hin : (wordAt a w - a).toNat / 4 < 1024 ∧ (wordAt a w - a).toNat % 4 = 0 := by omega
  rw [page, setPage, dif_pos hin]
  exact congrArg p (Fin.ext (by change _ / 4 = _; omega))

theorem page_setPage_of_ne (ha : a.Aligned) (hb : b.Aligned) (h : b ≠ a) :
    (m.setPage a p).page b = m.page b := by
  funext w
  rw [page, setPage, dif_neg]
  · rfl
  rintro ⟨hlt, hmod⟩
  -- a word of the page at `a` would be a word of the page at `b`
  have hword : wordAt a ⟨(wordAt b w - a).toNat / 4, hlt⟩ = wordAt b w := by
    rw [wordAt]
    apply BitVec.eq_of_toNat_eq
    have hlt' := (wordAt b w).isLt
    have ha' := a.isLt
    simp only [BitVec.toNat_add, BitVec.toNat_ofNat, BitVec.toNat_sub] at hmod ⊢
    omega
  exact h (wordAt_inj ha hb hword).1.symm

theorem page_store_self (ha : a.Aligned) {w : Fin 1024} :
    (m.store (wordAt a w) v).page a = Function.update (m.page a) w v := by
  funext x
  rw [page, store]
  by_cases hx : x = w
  · subst hx
    rw [Function.update_self, Function.update_self]
  · rw [Function.update_of_ne hx, Function.update_of_ne fun e => hx (wordAt_inj ha ha e).2]
    rfl

theorem page_store_of_ne (ha : a.Aligned) (hb : b.Aligned) (h : b ≠ a) {w : Fin 1024} :
    (m.store (wordAt a w) v).page b = m.page b := by
  funext x
  rw [page, store, Function.update_of_ne fun e => h (wordAt_inj hb ha e).1]
  rfl

end Ram

/-! ## Devices -/

/-- `EOT`, a tape marker. -/
abbrev eot : Word := 0

/-- Where a block is on a disk. -/
structure Block where
  /-- the cylinder -/
  cylinder : ℕ
  /-- the head -/
  head : ℕ
  /-- the sector -/
  sector : ℕ
  deriving DecidableEq

/-- What a command asks for. -/
def opcode (command : Word) : Word := command &&& 0xFF

/-- The cylinder of a `DISKSEEK`. -/
def seekCylinder (command : Word) : ℕ := ((command >>> seekShift) &&& 0xFFFF).toNat

/-- The block of a `READBLK` or a `WRITEBLK`, with the arm at this cylinder. -/
def blockOf (cylinder : ℕ) (command : Word) : Block :=
  ⟨cylinder, ((command >>> headShift) &&& 0xFF).toNat, ((command >>> sectorShift) &&& 0xFF).toNat⟩

/-- The index of a device in the register area. -/
def devIndex (line dev : ℤ) : ℤ := (line - diskInt) * 8 + dev

/-- What the processes share. -/
structure Hardware where
  /-- who has done a P on a mutex, and not yet the V -/
  holder : Sem → Option ℤ
  /-- the status register of each process -/
  status : ℤ → Word
  /-- `uProcs[procID - 1].Told_trap` -/
  old : ℤ → TrapType → Fin stateRegNum → Word
  /-- the registers of each device -/
  reg : ℤ → DevField → Word
  /-- the cylinder at which the arm of each disk is -/
  arm : ℤ → ℕ
  /-- the blocks of each disk -/
  blocks : ℤ → Block → Page
  /-- the blocks of each tape that have yet to be read -/
  tape : ℤ → List Page
  /-- the words of memory -/
  ram : Ram

namespace Hardware

/-- Write a register of a device. -/
def setReg (s : Hardware) (dev : ℤ) (f : DevField) (v : Word) : Hardware :=
  { s with reg := Function.update s.reg dev (Function.update (s.reg dev) f v) }

/-- The block a disk transfers. -/
def block (s : Hardware) (d : ℤ) : Block := blockOf (s.arm d) (s.reg d .dCommand)

/-- A disk performs its command. -/
def diskCommand (s : Hardware) (d : ℤ) : Hardware :=
  if opcode (s.reg d .dCommand) = diskSeek then
    { s with arm := Function.update s.arm d (seekCylinder (s.reg d .dCommand)) }
  else if opcode (s.reg d .dCommand) = readBlk then
    { s with ram := s.ram.setPage (s.reg d .dData0) (s.blocks d (s.block d)) }
  else if opcode (s.reg d .dCommand) = writeBlk then
    let written := Function.update (s.blocks d) (s.block d) (s.ram.page (s.reg d .dData0))
    { s with blocks := Function.update s.blocks d written }
  else s

/-- A tape performs its command. The marker says whether a block is left. -/
def tapeCommand (s : Hardware) (dev : ℤ) : Hardware :=
  if opcode (s.reg dev .dCommand) = readBlk then
    match s.tape dev with
    | [] => s.setReg dev .dData1 eot
    | p :: rest =>
      { s.setReg dev .dData1 (if rest = [] then eot else eob) with
        tape := Function.update s.tape dev rest
        ram := s.ram.setPage (s.reg dev .dData0) p }
  else s

/-- A device performs its command and reports a status. If it is not ready it has done nothing. -/
def complete (s : Hardware) (line dev : ℤ) (status : Word) : Hardware :=
  if status = ready then
    if line = diskInt then s.diskCommand dev
    else if line = tapeInt then s.tapeCommand (devIndex line dev)
    else s
  else s

/-- P on a mutex: it waits until nobody holds it. -/
def passeren (s : Hardware) (i : ℤ) (m : Sem) : Option Hardware :=
  if s.holder m = none then some { s with holder := Function.update s.holder m (some i) } else none

/-- V on a mutex that the process holds. -/
def verhogen (s : Hardware) (i : ℤ) (m : Sem) : Option Hardware :=
  if s.holder m = some i then some { s with holder := Function.update s.holder m none } else none

/-- Write a register of an old area. -/
def setOld (s : Hardware) (i : ℤ) (type : TrapType) (r : Fin stateRegNum) (v : Word) : Hardware :=
  let area := Function.update (s.old i type) r v
  { s with old := Function.update s.old i (Function.update (s.old i) type area) }

/-- Write a status register. -/
def setStatus (s : Hardware) (i : ℤ) (v : Word) : Hardware :=
  { s with status := Function.update s.status i v }

/-- What an operation does for a process, when `ans` is the status that a device reports. Nobody
waits for the V on `masterSem` here, and the new areas are used as they were given with SYS5. -/
def sem (i : ℤ) (ans : Word) : ∀ β, SupOp β → StateT Hardware Option β
  | _, .getEntryHi => fun s => some (word i <<< asidShift, s)
  | _, .getSTATUS => fun s => some (s.status i, s)
  | _, .setSTATUS v => fun s => some ((), s.setStatus i v)
  | _, .stst => fun s => some (⟨fun _ => ans⟩, s)
  | _, .verhogen .masterSem => fun s => some ((), s)
  | _, .verhogen m => fun s => (s.verhogen i m).map fun s' => ((), s')
  | _, .passeren m => fun s => (s.passeren i m).map fun s' => ((), s')
  | _, .sesv _ _ => fun s => some ((), s)
  | _, .waitForIo line dev _ => fun s => some (ans, s.complete line dev ans)
  | _, .readOld procID type r => fun s => some (s.old procID type r, s)
  | _, .writeOld procID type r v => fun s => some ((), s.setOld procID type r v)
  | _, .writeNew _ _ _ _ => fun s => some ((), s)
  | _, .readDev dev f => fun s => some (s.reg dev f, s)
  | _, .writeDev dev f v => fun s => some ((), s.setReg dev f v)
  | _, _ => fun _ => none

/-- An operation that is a SYSCALL. -/
def isSyscall : ∀ β, SupOp β → Bool
  | _, .verhogen _ => true
  | _, .passeren _ => true
  | _, .sesv _ _ => true
  | _, .waitForClock => true
  | _, .waitForIo _ _ _ => true
  | _, _ => false

/-- A process may lose the processor before a SYSCALL. After its SYS8 it has waited for the
processor, and the next thing it does is to read its status. -/
def atSyscall {β : Type} (o : SupOp β) : Bool :=
  match o with
  | .getSTATUS => true
  | o => isSyscall _ o

/-- An operation during which a device may write to memory. -/
def transfers : ∀ {β : Type}, SupOp β → Bool
  | _, .waitForIo _ _ _ => true
  | _, _ => false

/-- The other operations leave memory alone. -/
theorem sem_ram {α : Type} {o : SupOp α} {i : ℤ} {ans : Word} {b : α} {s s' : Hardware}
    (ho : transfers o = false) (h : (sem i ans α o).run s = some (b, s')) : s'.ram = s.ram := by
  cases o with
  | waitForIo => cases ho
  | verhogen m =>
    cases m with
    | masterSem =>
      obtain ⟨-, rfl⟩ := Prod.mk.inj (Option.some.inj h)
      rfl
    | _ =>
      simp only [sem, StateT.run, verhogen, Option.map_eq_some_iff] at h
      obtain ⟨s₁, hs₁, heq⟩ := h
      obtain ⟨-, rfl⟩ := Prod.mk.inj heq
      split at hs₁
      · obtain rfl := Option.some.inj hs₁
        rfl
      · cases hs₁
  | passeren m =>
    simp only [sem, StateT.run, passeren, Option.map_eq_some_iff] at h
    obtain ⟨s₁, hs₁, heq⟩ := h
    obtain ⟨-, rfl⟩ := Prod.mk.inj heq
    split at hs₁
    · obtain rfl := Option.some.inj hs₁
      rfl
    · cases hs₁
  | getEntryHi | getSTATUS | stst | sesv | readOld | readDev | writeNew | setSTATUS | writeOld
  | writeDev =>
    obtain ⟨-, rfl⟩ := Prod.mk.inj (Option.some.inj h)
    rfl
  | _ => cases h

/-! ## One process alone -/

/-- What an operation does when no other process comes in between, and the devices report these
statuses one after the other. -/
def scripted {σ : Type} (sem : Word → ∀ β, SupOp β → StateT σ Option β) :
    ∀ β, SupOp β → StateT (σ × (ℕ → Word)) Option β
  | _, .waitForIo line dev term => fun s =>
    ((sem (s.2 0) _ (.waitForIo line dev term)).run s.1).map fun r =>
      (r.1, (r.2, fun k => s.2 (k + 1)))
  | _, o => fun s => ((sem 0 _ o).run s.1).map fun r => (r.1, (r.2, s.2))

variable {s : Hardware} {d : ℤ} {status : Word}

@[simp] theorem setReg_reg_self (s : Hardware) (dev : ℤ) (f : DevField) (v : Word) :
    (s.setReg dev f v).reg dev f = v := by
  simp [setReg]

theorem setReg_reg_of_ne (s : Hardware) {dev : ℤ} {f f' : DevField} (v : Word) (h : f' ≠ f) :
    (s.setReg dev f v).reg dev f' = s.reg dev f' := by
  simp [setReg, h]

theorem complete_of_ne (line : ℤ) (h : status ≠ ready) : s.complete line d status = s := if_neg h

theorem complete_seek (h : opcode (s.reg d .dCommand) = diskSeek) :
    s.complete diskInt d ready =
      { s with arm := Function.update s.arm d (seekCylinder (s.reg d .dCommand)) } := by
  simp only [complete, if_true, diskCommand, if_pos h]

theorem complete_read (h : opcode (s.reg d .dCommand) = readBlk) :
    s.complete diskInt d ready =
      { s with ram := s.ram.setPage (s.reg d .dData0) (s.blocks d (s.block d)) } := by
  have hseek : opcode (s.reg d .dCommand) ≠ diskSeek := by
    rw [h]
    decide
  simp only [complete, if_true, diskCommand, if_neg hseek, if_pos h]

theorem complete_write (h : opcode (s.reg d .dCommand) = writeBlk) :
    s.complete diskInt d ready = { s with
      blocks := Function.update s.blocks d
        (Function.update (s.blocks d) (s.block d) (s.ram.page (s.reg d .dData0))) } := by
  have hseek : opcode (s.reg d .dCommand) ≠ diskSeek := by
    rw [h]
    decide
  have hread : opcode (s.reg d .dCommand) ≠ readBlk := by
    rw [h]
    decide
  simp only [complete, if_true, diskCommand, if_neg hseek, if_neg hread, if_pos h]

end Hardware

end Jaeos
