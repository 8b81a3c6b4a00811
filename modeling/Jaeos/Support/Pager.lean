import Jaeos.Support.Frames

/-!
# The pager's invariant

What holds of the swap pool, the page tables, the TLB, memory and the backing store whenever
control may change hands, also while the holder of `swapSem` is busy with a frame; and what each
process relies on from the others.
-/

namespace Jaeos

namespace Paging

/-! ## The record beside the state -/

/-- Where a process is in its life. -/
inductive Age where
  /-- its tape is being copied, or it has done nothing since -/
  | fresh
  /-- it runs -/
  | live
  /-- it has begun to die -/
  | dead
  deriving DecidableEq

/-- How far the holder of `swapSem` has come with a frame. -/
inductive Stage where
  /-- the page of its entry has lost its mapping -/
  | out
  /-- that page is on the backing store, or there is none -/
  | gone
  /-- the frame holds this page -/
  | filled (procID page : ℤ)
  deriving DecidableEq

/-- What the proof keeps in mind. -/
structure Record where
  /-- the frame that the holder of `swapSem` works on -/
  hole : Option (ℕ × Stage)
  /-- the age of each process -/
  age : ℤ → Age

/-- A state and the record. -/
abbrev Noted := Paging × Record

namespace Record

/-- Somebody works on the frame. -/
def Open (g : Record) (f : ℕ) : Prop := ∃ st, g.hole = some (f, st)

/-- The page of its entry need not be in the frame any more. -/
def Left (g : Record) (f : ℕ) : Prop := ∃ st, g.hole = some (f, st) ∧ st ≠ .out

end Record

/-! ## Pages -/

/-- What a word of a page must be: what the process has stored last, or what its tape says. -/
def expected (tapes : ℤ → List Page) (s : Paging) (i k : ℤ) (w : Fin 1024) : Option Word :=
  match s.stored i k w with
  | some v => some v
  | none => (tapes i)[k.toNat]?.map fun p => p w

/-- These words are right for a page. -/
def Holds (tapes : ℤ → List Page) (s : Paging) (i k : ℤ) (p : Page) : Prop :=
  ∀ w v, s.expected tapes i k w = some v → p w = v

/-- The first blocks of the tape of a process are on the backing store. -/
def Loaded (tapes : ℤ → List Page) (s : Paging) (i : ℤ) (n : ℕ) : Prop :=
  ∀ k p, k < n → (tapes i)[k]? = some p → s.blocks 0 (pageBlock i k) = p

/-- The cached entries are those of the tables. -/
def Coherent (s : Paging) : Prop := ∀ r e, s.tlb r = some e → s.pte r = e ∧ IsValid e

section

variable [Support]

/-- A page of a process has this frame. -/
def Active (s : Paging) (f : ℕ) : Prop := f < Support.swapSize ∧ (s.swapPool f).swAsid ≠ -1

/-- The page is in this frame. -/
def At (x : Noted) (i k : ℤ) (f : ℕ) : Prop :=
  x.1.Active f ∧ (x.1.swapPool f).swPte = some (.uProc i k) ∧ ¬ x.2.Left f

/-! ## The invariant -/

/-- An entry of the swap pool that is in use. -/
structure Slot (x : Noted) (f : ℕ) (i k : ℤ) : Prop where
  /-- the process -/
  asid : (x.1.swapPool f).swAsid = i
  /-- the page -/
  page : (x.1.swapPool f).swPageNo = k
  /-- the entry of the page table -/
  pte : (x.1.swapPool f).swPte = some (.uProc i k)
  /-- a user process -/
  user : IsUser i
  /-- a page of its table -/
  isPage : IsPage k
  /-- the page is mapped to the frame -/
  mapped : ¬ x.2.Open f → x.1.pte (.uProc i k) = mapping f
  /-- unless somebody works on the frame -/
  unmapped : x.2.Open f → ¬ IsValid (x.1.pte (.uProc i k))

/-- What holds of the swap pool and the tables. -/
structure Table (x : Noted) : Prop where
  /-- only the holder of `swapSem` works on a frame -/
  lock : x.1.holder .swapSem = none → x.2.hole = none
  /-- the frame that is worked on -/
  range : ∀ f, x.2.Open f → f < Support.swapSize
  /-- it is the one that has been chosen last -/
  turn : ∀ f, x.2.Open f → x.1.nextFrame = f
  /-- the entries of the pool -/
  slot : ∀ f, x.1.Active f → ∃ i k, Slot x f i k
  /-- a page that is mapped has a frame -/
  mapped : ∀ i k, IsUser i → IsPage k → x.2.age i ≠ .dead → IsValid (x.1.pte (.uProc i k)) →
    ∃ f, x.1.Active f ∧ (x.1.swapPool f).swPte = some (.uProc i k)
  /-- the shared segment is not mapped -/
  shared : ∀ k, IsPage k → ¬ IsValid (x.1.pte (.kUSeg3 k))
  /-- a process that has done nothing has no frame -/
  fresh : ∀ i, IsUser i → x.2.age i = .fresh →
    (∀ f < Support.swapSize, (x.1.swapPool f).swAsid ≠ i) ∧ ∀ k w, x.1.stored i k w = none
  /-- a page that is read in is not mapped, and its process runs -/
  filling : ∀ f i k, x.2.hole = some (f, .filled i k) →
    ¬ IsValid (x.1.pte (.uProc i k)) ∧ x.2.age i ≠ .fresh

/-- Where the pages are. -/
structure Contents (tapes : ℤ → List Page) (x : Noted) : Prop where
  /-- what has been read into the frame -/
  filled : ∀ f i k, x.2.hole = some (f, .filled i k) → x.2.age i = .live →
    x.1.Holds tapes i k (x.1.ram.page (swapAddr f))
  /-- what is in a frame -/
  inFrame : ∀ i k f, IsUser i → IsPage k → x.2.age i = .live → At x i k f →
    x.1.Holds tapes i k (x.1.ram.page (swapAddr f))
  /-- what is on the backing store -/
  onDisk : ∀ i k, IsUser i → IsPage k → x.2.age i = .live → (∀ f, ¬ At x i k f) →
    x.1.Holds tapes i k (x.1.blocks 0 (pageBlock i k.toNat))

/-- What holds of the swap pool, the tables, memory and the backing store. If `sure`, no transfer
fails, and pages are where they belong. -/
structure Core (sure : Prop) (tapes : ℤ → List Page) (x : Noted) : Prop where
  /-- the pool and the tables -/
  table : Table x
  /-- if transfers may fail, nobody who holds `swapSem` to die has a frame -/
  doomed : ¬ sure → ∀ i, x.1.dying i = true → x.1.holder .swapSem = some i →
    ∀ f < Support.swapSize, (x.1.swapPool f).swAsid ≠ i
  /-- the deaths are counted only if transfers cannot fail -/
  ages : ¬ sure → ∀ i, x.2.age i ≠ .dead
  /-- the pages -/
  contents : sure → Contents tapes x

/-- What holds whenever control may change hands. -/
structure Inv (sure : Prop) (tapes : ℤ → List Page) (x : Noted) : Prop where
  /-- the pool, the tables, memory and the backing store -/
  core : Core sure tapes x
  /-- the TLB -/
  coherent : x.1.Coherent

/-! ## What a process relies on -/

/-- What the other processes do while a process has yielded. -/
structure Rely (j : ℤ) (x y : Noted) : Prop where
  /-- its mutexes stay its own -/
  holder : ∀ m, x.1.holder m = some j ↔ y.1.holder m = some j
  /-- its status register -/
  status : y.1.status j = x.1.status j
  /-- its old areas -/
  old : y.1.old j = x.1.old j
  /-- what trap it is in -/
  dying : y.1.dying j = x.1.dying j
  /-- its age -/
  age : y.2.age j = x.2.age j
  /-- nobody else changes the pool or the tables while it holds `swapSem` -/
  pool : x.1.holder .swapSem = some j → y.1.nextFrame = x.1.nextFrame ∧
    y.1.swapPool = x.1.swapPool ∧ y.1.pte = x.1.pte ∧ y.2.hole = x.2.hole
  /-- nobody else maps its pages -/
  unmapped : ∀ k, IsValid (y.1.pte (.uProc j k)) → IsValid (x.1.pte (.uProc j k))
  /-- nobody else uses the backing store while it holds the mutex -/
  disk : x.1.holder (.mutexSemArray 0) = some j → y.1.reg 0 = x.1.reg 0 ∧ y.1.arm 0 = x.1.arm 0
  /-- nobody else uses its tape -/
  tape : IsUser j → y.1.tape (tapeDev j) = x.1.tape (tapeDev j) ∧
    y.1.reg (tapeDev j) = x.1.reg (tapeDev j)
  /-- nobody else uses its buffer -/
  buffer : IsUser j → y.1.ram.page (tapeBuffer j) = x.1.ram.page (tapeBuffer j)
  /-- nobody else writes its blocks as long as it has no frame -/
  fresh : IsUser j → x.2.age j = .fresh → ∀ k, y.1.blocks 0 (pageBlock j k) =
    x.1.blocks 0 (pageBlock j k)

namespace Rely

variable {j : ℤ} {x y z : Noted}

theorem refl (j : ℤ) (x : Noted) : Rely j x x where
  holder _ := Iff.rfl
  status := rfl
  old := rfl
  dying := rfl
  age := rfl
  pool _ := ⟨rfl, rfl, rfl, rfl⟩
  unmapped _ h := h
  disk _ := ⟨rfl, rfl⟩
  tape _ := ⟨rfl, rfl⟩
  buffer _ := rfl
  fresh _ _ _ := rfl

theorem trans (h : Rely j x y) (h' : Rely j y z) : Rely j x z where
  holder m := (h.holder m).trans (h'.holder m)
  status := h'.status.trans h.status
  old := h'.old.trans h.old
  dying := h'.dying.trans h.dying
  age := h'.age.trans h.age
  pool hx := by
    obtain ⟨hn, hp, ht, hh⟩ := h.pool hx
    obtain ⟨hn', hp', ht', hh'⟩ := h'.pool ((h.holder _).mp hx)
    exact ⟨hn'.trans hn, hp'.trans hp, ht'.trans ht, hh'.trans hh⟩
  unmapped k hk := h.unmapped k (h'.unmapped k hk)
  disk hx := by
    obtain ⟨hr, ha⟩ := h.disk hx
    obtain ⟨hr', ha'⟩ := h'.disk ((h.holder _).mp hx)
    exact ⟨hr'.trans hr, ha'.trans ha⟩
  tape hj := ⟨(h'.tape hj).1.trans (h.tape hj).1, (h'.tape hj).2.trans (h.tape hj).2⟩
  buffer hj := (h'.buffer hj).trans (h.buffer hj)
  fresh hj hx k := (h'.fresh hj (h.age.trans hx) k).trans (h.fresh hj hx k)

end Rely

end

end Paging

end Jaeos
