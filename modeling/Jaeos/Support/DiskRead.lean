import Jaeos.Support.Confined
import Jaeos.Support.Sectors

/-!
# A disk read and the page of the caller

SYS15 from the trap to its `LDST`, with the words of memory as the handler sees them: the page of
the caller and the buffer of the disk. The contents of the buffer are copied to the caller whether
the disk has filled it or not.
-/

namespace Jaeos

namespace Hardware

/-- What an operation does when the words of memory are those of `ram`. -/
def words (i : ℤ) (ans : Word) : ∀ β, SupOp β → StateT Hardware Option β
  | _, .loadWord a => fun s => some (s.ram a, s)
  | _, .storeWord a v => fun s => some ((), { s with ram := s.ram.store a v })
  | _, o => sem i ans _ o

/-- The contract of the operations of a process that runs alone. -/
abbrev reading (i : ℤ) : Prog.Contract SupOp ((Hardware × (ℕ → Word)) × Unit) :=
  Prog.certain (scripted (words i)) fun _ _ _ g => g

section

variable {i : ℤ} {s s' : Hardware} {io io' : ℕ → Word} {α : Type} {o : SupOp α} {b : α}
  {E : End → (Hardware × (ℕ → Word)) × Unit → Prop}

theorem reads {Q : α → (Hardware × (ℕ → Word)) × Unit → Prop} (b : α) (s' : Hardware)
    (hrun : (scripted (words i) α o).run (s, io) = some (b, s', io')) (hQ : Q b ((s', io'), ())) :
    Prog.wpx (reading i) (sup o) Q E ((s, io), ()) :=
  ⟨b, (s', io'), hrun, hQ⟩

theorem reads_enableInterrupts {on : Bool} {Q : Unit → (Hardware × (ℕ → Word)) × Unit → Prop}
    (hQ : ∀ v, Q () ((s.setStatus i v, io), ())) :
    Prog.wpx (reading i) (enableInterrupts on) Q E ((s, io), ()) := by
  simp only [enableInterrupts, Prog.wpx_bind]
  exact reads (s.status i) s rfl (reads () _ rfl (hQ _))

/-! ## Copying a page -/

/-- The words from `j` on have been copied. -/
structure Copied (m m' : Ram) (source target : Word) (j : ℕ) : Prop where
  /-- the copied words -/
  copied : ∀ w : Fin 1024, j ≤ w → m' (wordAt target w) = m (wordAt source w)
  /-- nothing else changes -/
  other : ∀ a, (∀ w : Fin 1024, j ≤ w → a ≠ wordAt target w) → m' a = m a

theorem reads_copyWords {Q : Unit → (Hardware × (ℕ → Word)) × Unit → Prop} {source target : Word}
    (hapart : ∀ v w, wordAt source v ≠ wordAt target w) (k j : ℕ) (hj : j + k = 1024)
    (hQ : ∀ m', Copied s.ram m' source target j → Q () (({ s with ram := m' }, io), ())) :
    Prog.wpx (reading i) (copyWords k (source + BitVec.ofNat 32 (4 * j))
      (target + BitVec.ofNat 32 (4 * j))) Q E ((s, io), ()) := by
  induction k generalizing j s with
  | zero =>
    refine hQ s.ram ⟨fun w hw => ?_, fun _ _ => rfl⟩
    have := w.isLt
    omega
  | succ k ih =>
    have hshift : ∀ a : Word, a + BitVec.ofNat 32 (4 * j) + 4 =
        a + BitVec.ofNat 32 (4 * (j + 1)) := by
      intro a
      bv_omega
    let x : Fin 1024 := ⟨j, by omega⟩
    simp only [copyWords, Prog.wpx_bind]
    refine reads (s.ram (wordAt source x)) s rfl ?_
    refine reads () { s with ram := s.ram.store (wordAt target x) (s.ram (wordAt source x)) } rfl ?_
    rw [hshift, hshift]
    refine ih (j + 1) (by omega) fun m' hm' => hQ m' ⟨fun w hw => ?_, fun a ha => ?_⟩
    · by_cases hwx : w = x
      · -- the words behind it are other words
        have hfirst : ∀ v : Fin 1024, j + 1 ≤ v → wordAt target w ≠ wordAt target v := by
          intro v hv he
          have hval := congrArg Fin.val ((wordAt_left_inj he).symm.trans hwx)
          have : (x : ℕ) = j := rfl
          omega
        rw [hm'.other _ hfirst, hwx]
        exact Function.update_self ..
      · have hw' : j + 1 ≤ (w : ℕ) := by
          have hne : (w : ℕ) ≠ j := fun he => hwx (Fin.ext he)
          omega
        rw [hm'.copied w hw']
        exact Function.update_of_ne (hapart w x) ..
    · rw [hm'.other a fun w hw => ha w (by omega)]
      exact Function.update_of_ne (ha x (le_refl _)) ..

/-- `copyPage` copies the page, and writes nothing else. -/
theorem reads_copyPage {Q : Unit → (Hardware × (ℕ → Word)) × Unit → Prop} {source target : Word}
    (hapart : ∀ v w, wordAt source v ≠ wordAt target w)
    (hQ : ∀ m' : Ram, m'.page target = s.ram.page source →
      (∀ a, (∀ w, a ≠ wordAt target w) → m' a = s.ram a) → Q () (({ s with ram := m' }, io), ())) :
    Prog.wpx (reading i) (copyPage source target) Q E ((s, io), ()) := by
  have hzero : ∀ a : Word, a + BitVec.ofNat 32 (4 * 0) = a := by simp
  rw [← hzero source, ← hzero target]
  refine reads_copyWords hapart 1024 0 rfl fun m' hm' => hQ m' ?_ fun a ha =>
    hm'.other a fun w _ => ha w
  funext w
  exact hm'.copied w (Nat.zero_le _)

/-! ## The request -/

theorem reads_passeren {m : Sem} {Q : Unit → (Hardware × (ℕ → Word)) × Unit → Prop}
    (hfree : s.holder m = none)
    (hQ : Q () (({ s with holder := Function.update s.holder m (some i) }, io), ())) :
    Prog.wpx (reading i) (sup (.passeren m)) Q E ((s, io), ()) := by
  refine reads () _ ?_ hQ
  simp [scripted, words, sem, Hardware.passeren, StateT.run, hfree]

theorem reads_verhogen {d : ℤ} {Q : Unit → (Hardware × (ℕ → Word)) × Unit → Prop}
    (hheld : s.holder (.mutexSemArray d) = some i)
    (hQ : Q () (({ s with holder := Function.update s.holder (.mutexSemArray d) none }, io), ())) :
    Prog.wpx (reading i) (sup (.verhogen (.mutexSemArray d))) Q E ((s, io), ()) := by
  refine reads () _ ?_ hQ
  simp [scripted, words, sem, Hardware.verhogen, StateT.run, hheld]

/-- The status of the last operation that the disk performs. -/
def lastStatus (io : ℕ → Word) : Word := if io 0 = ready then io 1 else io 0

/-- The block of a sector. -/
def sectorBlock (sectNo : Word) : Block :=
  ⟨sectNo.toNat / 16, sectNo.toNat % 2, sectNo.toNat / 2 % 8⟩

/-- The commands name the block of the sector. -/
theorem blockOf_sector {sectNo readWrite : Word} (h : sectNo.toNat < 2 ^ 20)
    (hcomm : readWrite = writeBlk ∨ readWrite = readBlk) :
    blockOf (seekCylinder (seekCommand sectNo)) (transferCommand readWrite sectNo) =
      sectorBlock sectNo := by
  have hpos : 0 ≤ sectNo.toInt := by
    rw [BitVec.toInt_eq_toNat_cond, if_pos (by omega)]
    omega
  obtain ⟨-, hcylinder⟩ := seekCommand_fields hpos
  obtain ⟨-, hsector, hhead⟩ := transferCommand_fields hpos hcomm
  have hmask : (0xFF : Word).toNat = 2 ^ 8 - 1 := rfl
  have hmask' : (0xFFFF : Word).toNat = 2 ^ 16 - 1 := rfl
  rw [blockOf, seekCylinder, sectorBlock, hsector, BitVec.toNat_and, BitVec.toNat_and, hcylinder,
    hhead, hmask, hmask', Nat.and_two_pow_sub_one_eq_mod, Nat.and_two_pow_sub_one_eq_mod]
  rw [Block.mk.injEq]
  omega

/-- The seek and the read put the sector into the buffer if both succeed. -/
theorem reads_diskTransfer {diskNo sectNo : Word} {Q : Word → (Hardware × (ℕ → Word)) × Unit → Prop}
    (h : sectNo.toNat < 2 ^ 20)
    (hQ : ∀ (s' : Hardware) io', s'.holder = s.holder → s'.old = s.old →
      (s'.ram = if lastStatus io = ready then
        s.ram.setPage (diskBuffer diskNo) (s.blocks diskNo.toInt (sectorBlock sectNo)) else s.ram) →
      Q (lastStatus io) ((s', io'), ())) :
    Prog.wpx (reading i) (diskTransfer diskNo (sectNo.srem 2) ((sectNo.sdiv 2).sdiv 8)
      ((sectNo.sdiv 2).srem 8) readBlk) Q E ((s, io), ()) := by
  have hpos : 0 ≤ sectNo.toInt := by
    rw [BitVec.toInt_eq_toNat_cond, if_pos (by omega)]
    omega
  obtain ⟨hseek, -⟩ := seekCommand_fields hpos
  obtain ⟨hread, -, -⟩ := transferCommand_fields hpos (.inr rfl)
  have hblock := blockOf_sector h (.inr rfl)
  have hcommands : ((sectNo.sdiv 2).sdiv 8 <<< seekShift) ||| diskSeek = seekCommand sectNo ∧
      (sectNo.srem 2 <<< headShift) ||| ((sectNo.sdiv 2).srem 8 <<< sectorShift) ||| readBlk =
        transferCommand readBlk sectNo := ⟨rfl, rfl⟩
  simp only [diskTransfer, Prog.wpx_bind, hcommands]
  generalize seekCommand sectNo = seek at hseek hblock
  generalize transferCommand readBlk sectNo = transfer at hread hblock
  refine reads_enableInterrupts fun v => ?_
  let s₁ := (s.setStatus i v).setReg diskNo.toInt .dCommand seek
  refine reads () s₁ rfl (reads (io 0) (s₁.complete diskInt diskNo.toInt (io 0)) rfl ?_)
  refine reads_enableInterrupts fun v' => ?_
  by_cases h0 : io 0 = ready
  · have hcode : opcode (s₁.reg diskNo.toInt .dCommand) = diskSeek := by
      rw [setReg_reg_self, hseek]
    rw [if_pos h0, h0, complete_seek hcode]
    simp only [Prog.wpx_bind]
    refine reads_enableInterrupts fun v₂ => ?_
    generalize hs₂ : Hardware.setStatus _ i v₂ = s₂
    have hkeep : s₂.holder = s.holder ∧ s₂.old = s.old ∧ s₂.ram = s.ram ∧ s₂.blocks = s.blocks ∧
        s₂.arm diskNo.toInt = seekCylinder seek := by
      subst hs₂
      refine ⟨rfl, rfl, rfl, rfl, ?_⟩
      change Function.update s₁.arm diskNo.toInt (seekCylinder (s₁.reg diskNo.toInt .dCommand))
        diskNo.toInt = _
      rw [Function.update_self, setReg_reg_self]
    let s₃ := (s₂.setReg diskNo.toInt .dData0 (diskBuffer diskNo)).setReg diskNo.toInt .dCommand
      transfer
    refine reads () (s₂.setReg diskNo.toInt .dData0 (diskBuffer diskNo)) rfl ?_
    refine reads () s₃ rfl (reads (io 1) (s₃.complete diskInt diskNo.toInt (io 1)) rfl ?_)
    refine reads_enableInterrupts fun v₃ => ?_
    have hlast : io 1 = lastStatus io := (if_pos h0).symm
    have hregs : s₃.reg diskNo.toInt .dCommand = transfer ∧
        s₃.reg diskNo.toInt .dData0 = diskBuffer diskNo := by
      refine ⟨setReg_reg_self .., ?_⟩
      rw [setReg_reg_of_ne _ _ (by decide), setReg_reg_self]
    have hat : s₃.block diskNo.toInt = sectorBlock sectNo := by
      rw [block, hregs.1, ← hblock, ← hkeep.2.2.2.2]
      rfl
    rw [Prog.wpx_pure, hlast]
    by_cases hready : lastStatus io = ready
    · have hcode : opcode (s₃.reg diskNo.toInt .dCommand) = readBlk := by rw [hregs.1, hread]
      rw [hready, complete_read hcode]
      refine hready ▸ hQ _ _ hkeep.1 hkeep.2.1 ?_
      rw [if_pos hready, ← hregs.2, ← hat, ← hkeep.2.2.1, ← hkeep.2.2.2.1]
      rfl
    · rw [complete_of_ne _ hready]
      refine hQ _ _ hkeep.1 hkeep.2.1 ?_
      rw [if_neg hready]
      exact hkeep.2.2.1
  · have hlast : io 0 = lastStatus io := (if_neg h0).symm
    rw [if_neg h0, Prog.wpx_pure, hlast, complete_of_ne _ (hlast ▸ h0)]
    refine hQ _ _ rfl rfl ?_
    rw [if_neg (hlast ▸ h0)]
    rfl

end

/-- A process asks for a sector with SYS15, and nobody else uses the disk. -/
structure Asks (s : Hardware) (i : ℤ) (a diskNo sectNo : Word) : Prop where
  /-- the number of the call -/
  number : s.old i .sysTrap sA1 = 15
  /-- where the sector is to go -/
  address : s.old i .sysTrap sA2 = a
  /-- the disk -/
  disk : s.old i .sysTrap sA3 = diskNo
  /-- the sector -/
  sector : s.old i .sysTrap sA4 = sectNo
  /-- the mutex of the disk -/
  free : s.holder (.mutexSemArray diskNo.toInt) = none

section

variable [Support] {i : ℤ} {s : Hardware} {io : ℕ → Word} {a diskNo sectNo : Word}

/-- How a call ends, and what it leaves behind. -/
def sysRun (i : ℤ) (s : Hardware) (io : ℕ → Word) :
    Option (Except End Unit × Hardware × (ℕ → Word)) :=
  ((vmSysHandler 0).run.run (scripted (words i))).run (s, io)

omit [Support] in
/-- The buffer of a disk and a page of the user have no word in common. -/
theorem buffer_apart (hd : 1 ≤ diskNo.toInt) (hd' : diskNo.toInt ≤ 7) (ha : kUseg2Addr ≤ a)
    (hfit : a.toNat + 4096 ≤ 2 ^ 32) (v w : Fin 1024) :
    wordAt (diskBuffer diskNo) v ≠ wordAt a w := by
  obtain ⟨h1, h7⟩ := disk_toNat hd hd'
  have hv := v.isLt
  have hw := w.isLt
  simp only [wordAt, diskBuffer, osCodeTop, pageSize]
  bv_omega

variable (io) in
/-- SYS15 copies the buffer to the page of the caller, whatever the disk has done. -/
theorem sysRun_diskGet (h1 : 1 ≤ i) (h64 : i < 64) (hd : 1 ≤ diskNo.toInt) (hd' : diskNo.toInt ≤ 7)
    (ha : kUseg2Addr ≤ a) (hfit : a.toNat + 4096 ≤ 2 ^ 32) (hsect : sectNo.toNat < 2 ^ 20)
    (hs : s.Asks i a diskNo sectNo) :
    ∃ s' io', sysRun i s io = some (.error (.ldst i .sysTrap), s', io') ∧
      s'.old i .sysTrap sA1 = lastStatus io ∧
      s'.ram.page a = if lastStatus io = ready then s.blocks diskNo.toInt (sectorBlock sectNo)
        else s.ram.page (diskBuffer diskNo) := by
  have hwp : Prog.wpx (reading i) (vmSysHandler 0) (fun _ _ => False)
      (fun e x => e = .ldst i .sysTrap ∧ x.1.1.old i .sysTrap sA1 = lastStatus io ∧
        x.1.1.ram.page a = if lastStatus io = ready then s.blocks diskNo.toInt (sectorBlock sectNo)
          else s.ram.page (diskBuffer diskNo)) ((s, io), ()) := by
    have hcheck : ¬ (diskNo.toInt ≤ 0 ∨ a < kUseg2Addr) := by
      rintro (h | h)
      · omega
      · exact absurd h (BitVec.not_lt.mpr ha)
    have hknown : ¬ (readBlk ≠ writeBlk ∧ readBlk ≠ readBlk) := fun h => h.2 rfl
    simp only [vmSysHandler, Prog.wpx_bind]
    refine reads (word i <<< asidShift) s rfl ?_
    rw [asid_word (by omega) h64]
    refine reads (15 : Word) s (by rw [← hs.number]; rfl) ?_
    have hnum : (15 : Word).toInt = 15 := rfl
    rw [hnum]
    simp only [Prog.wpx_bind]
    refine reads a s (by rw [← hs.address]; rfl) ?_
    refine reads diskNo s (by rw [← hs.disk]; rfl) (reads sectNo s (by rw [← hs.sector]; rfl) ?_)
    simp only [diskIo, if_neg hcheck, if_neg hknown, Prog.wpx_bind]
    refine reads_passeren hs.free ?_
    rw [if_neg (by decide), Prog.wpx_pure]
    refine reads_diskTransfer hsect fun s₁ io₁ hholder hold hram => ?_
    rw [if_pos trivial]
    refine reads_copyPage (buffer_apart hd hd' ha hfit) fun m' hpage _ => ?_
    refine reads () _ rfl (reads_verhogen ?_ ?_)
    · exact (congrFun hholder _).trans (Function.update_self ..)
    · refine ⟨rfl, ?_, hpage.trans ?_⟩
      · simp [setOld]
      · rw [hram]
        split
        · exact Ram.page_setPage_self
        · rfl
  obtain ⟨r, ⟨s', io'⟩, hrun, hr⟩ := Prog.run_of_certain hwp
  cases r with
  | ok b => exact hr.elim
  | error e =>
    obtain ⟨rfl, hstatus, hpage⟩ := hr
    exact ⟨s', io', hrun, hstatus, hpage⟩

/-- The caller gets the status of the last operation; its page is that of the sector if the
status is `READY`, and as it was otherwise. -/
def ReadIntact (i : ℤ) (a diskNo sectNo : Word) (io : ℕ → Word) : Prop :=
  ∀ s : Hardware, s.Asks i a diskNo sectNo → ∃ s' io',
    sysRun i s io = some (.error (.ldst i .sysTrap), s', io') ∧
      s'.old i .sysTrap sA1 = lastStatus io ∧
      s'.ram.page a = if lastStatus io = ready then s.blocks diskNo.toInt (sectorBlock sectNo)
        else s.ram.page a

omit [Support] in
/-- A process that asks, with one word everywhere in its segments and another one below. -/
abbrev sampleAsks (a diskNo sectNo : Word) : Hardware where
  holder _ := none
  status _ := 0
  old _ _ r := if r = sA1 then 15 else if r = sA2 then a else if r = sA3 then diskNo else sectNo
  reg _ _ := 0
  arm _ := 0
  blocks _ _ _ := 0
  tape _ := []
  ram b := if kUseg2Addr ≤ b then 0 else 1

omit [Support] in
/-- The last operation succeeds exactly if the seek and the transfer do. -/
theorem lastStatus_ready : lastStatus io = ready ↔ io 0 = ready ∧ io 1 = ready := by
  unfold lastStatus
  split <;> simp_all

/-- The page of the caller survives a read exactly if the seek and the transfer succeed. -/
theorem readIntact_iff (h1 : 1 ≤ i) (h64 : i < 64) (hd : 1 ≤ diskNo.toInt) (hd' : diskNo.toInt ≤ 7)
    (ha : kUseg2Addr ≤ a) (hfit : a.toNat + 4096 ≤ 2 ^ 32) (hsect : sectNo.toNat < 2 ^ 20) :
    ReadIntact i a diskNo sectNo io ↔ io 0 = ready ∧ io 1 = ready := by
  rw [← lastStatus_ready]
  constructor
  · intro hintact
    by_contra hfail
    have hs : (sampleAsks a diskNo sectNo).Asks i a diskNo sectNo := ⟨rfl, rfl, rfl, rfl, rfl⟩
    obtain ⟨s', io', hrun, -, hpage⟩ := hintact _ hs
    obtain ⟨s₁, io₁, hrun₁, -, hpage₁⟩ :=
      sysRun_diskGet io h1 h64 hd hd' ha hfit hsect hs
    obtain ⟨-, heq⟩ := Prod.mk.inj (Option.some.inj (hrun.symm.trans hrun₁))
    obtain ⟨rfl, -⟩ := Prod.mk.inj heq
    rw [if_neg hfail] at hpage hpage₁
    -- the first word of the page comes from the buffer
    have hword := congrFun (hpage.symm.trans hpage₁) 0
    have huser : kUseg2Addr ≤ wordAt a 0 := by simpa [wordAt] using ha
    have hbuffer : ¬ kUseg2Addr ≤ wordAt (diskBuffer diskNo) 0 := by
      obtain ⟨hlo, hhi⟩ := disk_toNat hd hd'
      simp only [wordAt, diskBuffer, osCodeTop, pageSize]
      bv_omega
    simp only [Ram.page, if_pos huser, if_neg hbuffer] at hword
    exact absurd hword (by decide)
  · intro hready s hs
    obtain ⟨s', io', hrun, hstatus, hpage⟩ :=
      sysRun_diskGet io h1 h64 hd hd' ha hfit hsect hs
    refine ⟨s', io', hrun, hstatus, hpage.trans ?_⟩
    rw [if_pos hready, if_pos hready]

omit [Support] in
/-- Sector 3 of disk 1 is read to the start of kUseg2. -/
theorem readIntact_iff_ready : ∃ _ : Support, ReadIntact 1 kUseg2Addr 1 3 fun _ => ready := by
  let _ := sampleSupport
  exact ⟨sampleSupport, (readIntact_iff (by decide) (by decide) (by decide) (by decide) (by decide)
    (by decide) (by decide)).mpr ⟨rfl, rfl⟩⟩

omit [Support] in
/-- The seek fails, and the old contents of the buffer are copied. -/
theorem failed_read_copies : ¬ ∀ (_ : Support) (i : ℤ) (a diskNo sectNo : Word) (io : ℕ → Word),
    1 ≤ i → i < 64 → 1 ≤ diskNo.toInt → diskNo.toInt ≤ 7 → kUseg2Addr ≤ a →
      a.toNat + 4096 ≤ 2 ^ 32 → sectNo.toNat < 2 ^ 20 → ReadIntact i a diskNo sectNo io := by
  intro h
  let _ := sampleSupport
  have hbad := h sampleSupport 1 kUseg2Addr 1 3 (fun _ => 0) (by decide) (by decide) (by decide)
    (by decide) (by decide) (by decide) (by decide)
  have hready := (readIntact_iff (by decide) (by decide) (by decide) (by decide) (by decide)
    (by decide) (by decide)).mp hbad
  exact absurd hready.1 (by decide)

end

end Hardware

end Jaeos
