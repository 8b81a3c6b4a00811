import Jaeos.Support.Paging
import Mathlib.Tactic.IntervalCases

/-!
# Frames, entries and blocks

Where the frames of the swap pool are, what the entries of the page tables say, and
which block of the backing store the pager and `uProcInit` name with their commands.
-/

namespace Jaeos

/-! ## Addresses of frames and buffers -/

section

variable [Support]

theorem PoolFits.swapAddr_toNat (h : PoolFits) {f : ℕ} (hf : f < Support.swapSize) :
    (swapAddr f).toNat = Support.ramtop.toNat - (2 + Support.swapSize) * 4096 + f * 4096 := by
  have hroom := h.room
  have hlt := Support.ramtop.isLt
  have hcode : osCodeTop.toNat = 0x20020000 := rfl
  rw [hcode] at hroom
  have hpage : pageSize.toNat = 4096 := rfl
  have htwo : BitVec.toNat (2 * pageSize) = 8192 := rfl
  simp only [swapAddr, BitVec.toNat_add, BitVec.toNat_sub, htwo, BitVec.toNat_mul,
    BitVec.toNat_ofNat, hpage]
  omega

theorem PoolFits.swapAddr_aligned (h : PoolFits) {f : ℕ} (hf : f < Support.swapSize) :
    (swapAddr f).Aligned := by
  have haligned := h.aligned
  have hroom := h.room
  rw [Word.Aligned] at haligned ⊢
  rw [h.swapAddr_toNat hf]
  omega

/-- Different frames are at different addresses. -/
theorem PoolFits.swapAddr_inj (h : PoolFits) {f f' : ℕ} (hf : f < Support.swapSize)
    (hf' : f' < Support.swapSize) (he : swapAddr f = swapAddr f') : f = f' := by
  have hnat := congrArg BitVec.toNat he
  rw [h.swapAddr_toNat hf, h.swapAddr_toNat hf'] at hnat
  omega

omit [Support] in
theorem tapeBuffer_toNat {p : ℤ} (h1 : 1 ≤ p) (h64 : p < 64) :
    (tapeBuffer p).toNat = osCodeTop.toNat + (p - 1).toNat * 4096 := by
  obtain ⟨n, rfl⟩ : ∃ n : ℕ, p = n + 1 := ⟨(p - 1).toNat, by omega⟩
  have hn : n < 63 := by omega
  have hword : word ((n : ℤ) + 1 - 1) = BitVec.ofNat 32 n := by
    rw [show (n : ℤ) + 1 - 1 = (n : ℤ) by omega]
    exact BitVec.ofInt_natCast 32 n
  have hcode : osCodeTop.toNat = 0x20020000 := rfl
  have hsub : ((n : ℤ) + 1 - 1).toNat = n := by omega
  rw [hsub, tapeBuffer, hword, BitVec.toNat_add, BitVec.toNat_mul, hcode, BitVec.toNat_ofNat]
  change (0x20020000 + n % 2 ^ 32 * 4096 % 2 ^ 32) % 2 ^ 32 = _
  omega

omit [Support] in
theorem tapeBuffer_aligned {p : ℤ} (h1 : 1 ≤ p) (h64 : p < 64) : (tapeBuffer p).Aligned := by
  rw [Word.Aligned, tapeBuffer_toNat h1 h64]
  change (0x20020000 + _) % 4096 = 0
  omega

omit [Support] in
theorem tapeBuffer_inj {p q : ℤ} (hp : 1 ≤ p) (hp' : p < 64) (hq : 1 ≤ q) (hq' : q < 64)
    (h : tapeBuffer p = tapeBuffer q) : p = q := by
  have hnat := congrArg BitVec.toNat h
  rw [tapeBuffer_toNat hp hp', tapeBuffer_toNat hq hq'] at hnat
  omega

theorem IsUser.lt_64 (h : PoolFits) {p : ℤ} (hp : IsUser p) : p < 64 := by
  have h64 := h.users
  have hle := hp.2
  omega

/-- A frame is not a buffer. -/
theorem PoolFits.swapAddr_ne_tapeBuffer (h : PoolFits) {f : ℕ} (hf : f < Support.swapSize) {p : ℤ}
    (hp : IsUser p) : swapAddr f ≠ tapeBuffer p := by
  intro he
  have hnat := congrArg BitVec.toNat he
  have hroom := h.room
  have hle := hp.2
  have hge := hp.1
  rw [h.swapAddr_toNat hf, tapeBuffer_toNat hp.1 (hp.lt_64 h)] at hnat
  omega

end

/-! ## Entries -/

/-- The entry of a page that is in a frame. -/
abbrev mapping [Support] (f : ℕ) : Word := swapAddr f ||| valid ||| dirty

theorem isValid_iff {e : Word} : IsValid e ↔ e.getLsbD 9 = true := by
  have hvalid : valid = BitVec.twoPow 32 9 := rfl
  rw [IsValid, hvalid, BitVec.and_twoPow]
  cases e.getLsbD 9
  · simp
  · simp only [if_true, iff_true]
    decide

theorem not_isValid_and (e : Word) : ¬ IsValid (e &&& ~~~valid) := by
  rw [isValid_iff, BitVec.getLsbD_and]
  simp [valid]

section

variable [Support]

theorem isValid_mapping (f : ℕ) : IsValid (mapping f) := by
  rw [isValid_iff, mapping, BitVec.getLsbD_or, BitVec.getLsbD_or]
  simp [valid]

omit [Support] in
/-- The low bits of the address of a page. -/
theorem Word.Aligned.getLsbD {a : Word} (h : a.Aligned) {i : ℕ} (hi : i < 12) :
    a.getLsbD i = false := by
  have hmod : (a.toNat % 2 ^ 12).testBit i = false := by
    rw [show a.toNat % 2 ^ 12 = 0 from h]
    exact Nat.zero_testBit i
  rw [Nat.testBit_mod_two_pow] at hmod
  simpa [hi, BitVec.getLsbD] using hmod

/-- The entry of a page names its frame. -/
theorem PoolFits.frameAddress_mapping (h : PoolFits) {f : ℕ} (hf : f < Support.swapSize) :
    frameAddress (mapping f) = swapAddr f := by
  have hlow := fun i => (h.swapAddr_aligned hf).getLsbD (i := i)
  apply BitVec.eq_of_getLsbD_eq
  intro i hi
  rw [frameAddress, BitVec.getLsbD_and, BitVec.getLsbD_or, BitVec.getLsbD_or]
  by_cases hi12 : i < 12
  · have hmask : (0xFFFFF000 : Word).getLsbD i = false := by
      interval_cases i <;> rfl
    rw [hlow i hi12, hmask, Bool.and_false]
  · have hbits : valid.getLsbD i = false ∧ dirty.getLsbD i = false ∧
        (0xFFFFF000 : Word).getLsbD i = true := by
      interval_cases i <;> exact ⟨rfl, rfl, rfl⟩
    rw [hbits.1, hbits.2.1, hbits.2.2]
    simp

theorem PoolFits.mapping_inj (h : PoolFits) {f f' : ℕ} (hf : f < Support.swapSize)
    (hf' : f' < Support.swapSize) (he : mapping f = mapping f') : f = f' :=
  h.swapAddr_inj hf hf'
    (by rw [← h.frameAddress_mapping hf, ← h.frameAddress_mapping hf', he])

end

/-! ## Blocks of the backing store -/

/-- The block of a page of a process. -/
def pageBlock (procID : ℤ) (page : ℕ) : Block := ⟨page, 0, (procID - 1).toNat⟩

theorem pageBlock_inj {p q : ℤ} {k l : ℕ} (hp : 1 ≤ p) (hq : 1 ≤ q)
    (h : pageBlock p k = pageBlock q l) : p = q ∧ k = l := by
  simp only [pageBlock, Block.mk.injEq, true_and] at h
  omega

theorem opcode_seek (cylinder : ℤ) :
    opcode ((word cylinder <<< seekShift) ||| diskSeek) = diskSeek := by
  generalize word cylinder = x
  apply BitVec.eq_of_getLsbD_eq
  intro i hi
  rw [opcode, BitVec.getLsbD_and, BitVec.getLsbD_or, BitVec.getLsbD_shiftLeft]
  interval_cases i <;> simp [seekShift, diskSeek]

theorem seekCylinder_seek {n : ℕ} (hn : n < 2 ^ 16) :
    seekCylinder ((word n <<< seekShift) ||| diskSeek) = n := by
  have hword : word (n : ℤ) = BitVec.ofNat 32 n := BitVec.ofInt_natCast 32 n
  have hnat : (BitVec.ofNat 32 n).toNat = n := by
    rw [BitVec.toNat_ofNat]
    omega
  have hhigh : ∀ i, 16 ≤ i → (BitVec.ofNat 32 n).getLsbD i = false := by
    intro i h16
    have hbit : n.testBit i = false :=
      Nat.testBit_lt_two_pow (hn.trans_le (Nat.pow_le_pow_right (by decide) h16))
    rw [BitVec.getLsbD_ofNat, hbit, Bool.and_false]
  rw [seekCylinder, hword]
  generalize BitVec.ofNat 32 n = x at hnat hhigh
  have hbv : (((x <<< seekShift) ||| diskSeek) >>> seekShift) &&& 0xFFFF = x := by
    apply BitVec.eq_of_getLsbD_eq
    intro i hi
    rw [BitVec.getLsbD_and, BitVec.getLsbD_ushiftRight, BitVec.getLsbD_or,
      BitVec.getLsbD_shiftLeft]
    by_cases h16 : i < 16
    · interval_cases i <;> simp [seekShift, diskSeek]
    · rw [hhigh i (by omega)]
      interval_cases i <;> simp
  rw [hbv, hnat]

/-- The command with which the pager transfers a page. -/
theorem blockOf_pager {p : ℤ} (h1 : 1 ≤ p) (h64 : p < 64) {op : Word}
    (hop : op = readBlk ∨ op = writeBlk) (cylinder : ℕ) :
    blockOf cylinder ((userProcHead <<< headShift) ||| (word (p - 1) <<< sectorShift) ||| op) =
      pageBlock p cylinder ∧
    opcode ((userProcHead <<< headShift) ||| (word (p - 1) <<< sectorShift) ||| op) = op := by
  rcases hop with rfl | rfl <;> interval_cases p <;> exact ⟨rfl, rfl⟩

/-- The command with which `uProcInit` writes a block. -/
theorem blockOf_loader {p : ℤ} (h1 : 1 ≤ p) (h64 : p < 64) (cylinder : ℕ) :
    blockOf cylinder ((word (p - 1) <<< sectorShift) ||| writeBlk) = pageBlock p cylinder ∧
    opcode ((word (p - 1) <<< sectorShift) ||| writeBlk) = writeBlk := by
  interval_cases p <;> exact ⟨rfl, rfl⟩

end Jaeos
