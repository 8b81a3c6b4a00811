import Jaeos.Support.Hardware
import Jaeos.Support.Sections
import Mathlib.Tactic.IntervalCases

/-!
# Where `diskIo` finds a sector

`diskIo` takes a sector number apart into a cylinder, a sector and a head, and puts these into
two commands. A sector number can be read back from the commands as long as its cylinder is
not shifted out of the first of them.
-/

namespace Jaeos

/-! ## The commands -/

/-- The commands of the disk, oldest first. -/
def seeCommands (dev : ℤ) : ∀ β, SupOp β → β → List Word → List Word
  | _, .writeDev d .dCommand v, _, g => if d = dev then g ++ [v] else g
  | _, _, _, g => g

/-- Some run of `diskIo` gives the disk these two commands. -/
def Commands [Support] (readWrite sectNo seek transfer : Word) : Prop :=
  ∃ blockAddr diskNo procID tr r,
    (diskIo blockAddr diskNo sectNo readWrite procID).run.Trace tr r ∧
    Prog.notes (seeCommands diskNo.toInt) [] tr = [seek, transfer]

/-- The sector number can be read from the two commands. -/
structure Addressed (readWrite sectNo seek transfer : Word) : Prop where
  /-- the first command is a seek -/
  seekByte : opcode seek = diskSeek
  /-- the second one reads or writes -/
  transferByte : opcode transfer = readWrite
  /-- the rest of the first one is the cylinder -/
  cylinder : (seek >>> seekShift).toNat = sectNo.toNat / 16
  /-- a byte of the second one is the sector -/
  sector : ((transfer >>> sectorShift) &&& 0xFF).toNat = sectNo.toNat / 2 % 8
  /-- the rest of it is the head -/
  head : (transfer >>> headShift).toNat = sectNo.toNat % 2
  /-- they give the sector number -/
  number : sectNo.toNat = 16 * (seek >>> seekShift).toNat +
    2 * ((transfer >>> sectorShift) &&& 0xFF).toNat + (transfer >>> headShift).toNat

/-- The commands of two sector numbers differ, and both can be read back. -/
def SectorsApart [Support] (readWrite sectNo sectNo' : Word) : Prop :=
  ∀ seek transfer seek' transfer', Commands readWrite sectNo seek transfer →
    Commands readWrite sectNo' seek' transfer' →
      (seek, transfer) ≠ (seek', transfer') ∧ Addressed readWrite sectNo seek transfer ∧
        Addressed readWrite sectNo' seek' transfer'

/-! ## What `diskIo` writes -/

/-- The first command. -/
def seekCommand (sectNo : Word) : Word := ((sectNo.sdiv 2).sdiv 8 <<< seekShift) ||| diskSeek

/-- The second command. -/
def transferCommand (readWrite sectNo : Word) : Word :=
  (sectNo.srem 2 <<< headShift) ||| ((sectNo.sdiv 2).srem 8 <<< sectorShift) ||| readWrite

section

variable {law : ∀ β, SupOp β → β → List Word → Prop} {dev : ℤ} {g : List Word}
  {E : End → List Word → Prop}

/-- An operation that is no command to the disk. -/
theorem sees_other {α : Type} {o : SupOp α} {Q : α → List Word → Prop}
    (hsee : ∀ b, seeCommands dev α o b g = g) (hQ : ∀ b, law α o b g → Q b g) :
    Prog.wpx (Prog.tracked law (fun _ _ _ _ => True) (seeCommands dev)) (sup o) Q E g :=
  fun b hb => ⟨trivial, (hsee b).symm ▸ hQ b hb⟩

/-- A command to the disk. -/
theorem sees_command {v : Word} {Q : Unit → List Word → Prop} (hQ : Q () (g ++ [v])) :
    Prog.wpx (Prog.tracked law (fun _ _ _ _ => True) (seeCommands dev))
      (sup (.writeDev dev .dCommand v)) Q E g := by
  intro b _
  have hsee : seeCommands dev Unit (.writeDev dev .dCommand v) b g = g ++ [v] := if_pos rfl
  refine ⟨trivial, ?_⟩
  rw [hsee]
  exact hQ

theorem sees_enableInterrupts {on : Bool} {Q : Unit → List Word → Prop} (hQ : Q () g) :
    Prog.wpx (Prog.tracked law (fun _ _ _ _ => True) (seeCommands dev)) (enableInterrupts on)
      Q E g := by
  simp only [enableInterrupts, Prog.wpx_bind]
  exact sees_other (fun _ => rfl) fun _ _ => sees_other (fun _ => rfl) fun _ _ => hQ

theorem sees_copyWords {Q : Unit → List Word → Prop} (k : ℕ) (source target : Word) (hQ : Q () g) :
    Prog.wpx (Prog.tracked law (fun _ _ _ _ => True) (seeCommands dev))
      (copyWords k source target) Q E g := by
  induction k generalizing source target with
  | zero => exact hQ
  | succ k ih =>
    simp only [copyWords, Prog.wpx_bind]
    exact sees_other (fun _ => rfl) fun _ _ => sees_other (fun _ => rfl) fun _ _ => ih _ _

theorem sees_copyPage (c : Prop) [Decidable c] (source target : Word) {Q : Unit → List Word → Prop}
    (hQ : Q () g) :
    Prog.wpx (Prog.tracked law (fun _ _ _ _ => True) (seeCommands dev))
      (if c then copyPage source target else pure ()) Q E g := by
  split
  · exact sees_copyWords _ source target hQ
  · exact hQ

theorem sees_invalidateFrames {procID : ℤ} {Q : Bool → List Word → Prop} (k i : ℕ) (m : Bool)
    (hQ : ∀ b, Q b g) (hE : E .stuck g) :
    Prog.wpx (Prog.tracked law (fun _ _ _ _ => True) (seeCommands dev))
      (invalidateFrames procID k i m) Q E g := by
  induction k generalizing i m with
  | zero => exact hQ m
  | succ k ih =>
    simp only [invalidateFrames, Prog.wpx_bind]
    refine sees_other (fun _ => rfl) fun frame _ => ?_
    split
    · split
      · exact hE
      · simp only [Prog.wpx_bind]
        refine sees_other (fun _ => rfl) fun _ _ => sees_other (fun _ => rfl) fun _ _ => ?_
        exact sees_other (fun _ => rfl) fun _ _ => ih _ _
    · exact ih _ _

/-- `virtualDeath` gives no command. -/
theorem sees_virtualDeath [Support] {α : Type} {procID : ℤ} {Q : α → List Word → Prop}
    (hE : ∀ e, E e g) :
    Prog.wpx (Prog.tracked law (fun _ _ _ _ => True) (seeCommands dev)) (virtualDeath procID)
      Q E g := by
  simp only [virtualDeath, Prog.wpx_bind]
  refine sees_other (fun _ => rfl) fun _ _ => sees_enableInterrupts ?_
  refine sees_invalidateFrames _ _ _ (fun b => ?_) (hE _)
  split
  · simp only [Prog.wpx_bind]
    refine sees_other (fun _ => rfl) fun _ _ => sees_enableInterrupts ?_
    exact sees_other (fun _ => rfl) fun _ _ => sees_other (fun _ => rfl) fun _ _ => hE _
  · simp only [Prog.wpx_bind]
    refine sees_enableInterrupts ?_
    exact sees_other (fun _ => rfl) fun _ _ => sees_other (fun _ => rfl) fun _ _ => hE _

/-- What `diskIo` has written to its disk when it ends. -/
def Wrote (readWrite sectNo : Word) (g : List Word) : Prop :=
  g = [] ∨ g = [seekCommand sectNo] ∨ g = [seekCommand sectNo, transferCommand readWrite sectNo]

/-- `diskIo` gives its disk no command, the first one or both, and both if it returns after the
seek was successful. -/
theorem diskIo_wrote [Support] (law : ∀ β, SupOp β → β → List Word → Prop)
    {blockAddr diskNo sectNo readWrite : Word} {procID : ℤ} :
    Prog.wpx (Prog.tracked law (fun _ _ _ _ => True) (seeCommands diskNo.toInt))
      (diskIo blockAddr diskNo sectNo readWrite procID)
      (fun _ g => Wrote readWrite sectNo g ∧
        ((∀ line dev term b g, law Word (.waitForIo line dev term) b g → b = ready) →
          g = [seekCommand sectNo, transferCommand readWrite sectNo]))
      (fun _ g => Wrote readWrite sectNo g) [] := by
  simp only [diskIo]
  split
  · rw [Prog.wpx_bind]
    exact sees_virtualDeath fun _ => .inl rfl
  split
  · exact .inl rfl
  simp only [diskTransfer, Prog.wpx_bind]
  refine sees_other (fun _ => rfl) fun _ _ => sees_copyPage _ _ _ ?_
  refine sees_enableInterrupts (sees_command ?_)
  refine sees_other (fun _ => rfl) fun b hb => sees_enableInterrupts ?_
  split
  · simp only [Prog.wpx_bind]
    refine sees_enableInterrupts (sees_other (fun _ => rfl) fun _ _ => sees_command ?_)
    refine sees_other (fun _ => rfl) fun _ _ => sees_enableInterrupts ?_
    refine sees_copyPage _ _ _ ?_
    refine sees_other (fun _ => rfl) fun _ _ => sees_other (fun _ => rfl) fun _ _ => ?_
    exact ⟨.inr (.inr rfl), fun _ => rfl⟩
  · refine sees_copyPage _ _ _ ?_
    refine sees_other (fun _ => rfl) fun _ _ => sees_other (fun _ => rfl) fun _ _ => ?_
    exact ⟨.inr (.inl rfl), fun hready => absurd (hready _ _ _ _ _ hb) (by assumption)⟩

end

/-- A disk that is always ready. -/
def alwaysReady : ∀ β, SupOp β → β → List Word → Prop
  | _, .waitForIo _ _ _, b, _ => b = ready
  | _, _, _, _ => True

/-- There is a run with both commands, and there are no other pairs. -/
theorem commands_iff [Support] {readWrite sectNo seek transfer : Word}
    (hcomm : readWrite = writeBlk ∨ readWrite = readBlk) :
    Commands readWrite sectNo seek transfer ↔
      seek = seekCommand sectNo ∧ transfer = transferCommand readWrite sectNo := by
  constructor
  · rintro ⟨blockAddr, diskNo, procID, tr, r, htr, hnotes⟩
    have hall := (Prog.of_tracked (diskIo_wrote fun _ _ _ _ => True) htr
      Prog.along_free).2
    rw [hnotes] at hall
    have hwrote : Wrote readWrite sectNo [seek, transfer] := by
      cases r with
      | ok b => exact hall.1
      | error e => exact hall
    simpa [Wrote] using hwrote
  · rintro ⟨rfl, rfl⟩
    have hop : ∀ {α : Type} (o : SupOp α), Prog.Returns alwaysReady (seeCommands 1) (sup o) := by
      intro α o
      refine .lift fun g => ?_
      obtain ⟨b⟩ := o.exists_result
      cases o with
      | waitForIo => exact ⟨ready, rfl⟩
      | _ => exact ⟨b, trivial⟩
    have hret : Prog.Returns alwaysReady (seeCommands 1)
        (diskIo kUseg2Addr 1 sectNo readWrite 1) := by
      have hok : ¬ ((1 : Word).toInt ≤ 0 ∨ kUseg2Addr < kUseg2Addr) := by decide
      have hknown : ¬ (readWrite ≠ writeBlk ∧ readWrite ≠ readBlk) := fun h => hcomm.elim h.1 h.2
      simp only [diskIo, if_neg hok, if_neg hknown]
      refine .seq (hop _) fun _ => .seq ?_ fun _ => .seq (diskTransfer_returns hop) fun _ => ?_
      · split
        · exact copyWords_returns hop _ _ _
        · exact .ret ()
      refine .seq ?_ fun _ => .seq (hop _) fun _ => hop _
      split
      · exact copyWords_returns hop _ _ _
      · exact .ret ()
    obtain ⟨tr, _, htr, hlaw⟩ := hret.trace []
    have hwrote := (Prog.of_tracked (diskIo_wrote alwaysReady) htr hlaw).2
    exact ⟨_, _, _, tr, _, htr, hwrote.2 fun _ _ _ _ _ hb => hb⟩

/-! ## The numbers in the commands -/

section

variable {sectNo readWrite : Word}

/-- The parts of a sector number. -/
theorem sector_parts (h : 0 ≤ sectNo.toInt) :
    ((sectNo.sdiv 2).sdiv 8).toNat = sectNo.toNat / 16 ∧
      ((sectNo.sdiv 2).srem 8).toNat = sectNo.toNat / 2 % 8 ∧
      (sectNo.srem 2).toNat = sectNo.toNat % 2 := by
  have hpos : sectNo.msb = false := BitVec.msb_eq_false_iff_two_mul_lt.mpr (by
    rw [BitVec.toInt_eq_toNat_cond] at h
    split at h <;> omega)
  have hdiv : sectNo.sdiv 2 = sectNo / 2 := by
    rw [BitVec.sdiv_eq, hpos]
    rfl
  have hpos' : (sectNo / 2).msb = false := BitVec.msb_eq_false_iff_two_mul_lt.mpr (by
    have hlt := sectNo.isLt
    have h2 : (2 : Word).toNat = 2 := rfl
    rw [BitVec.toNat_udiv, h2]
    omega)
  rw [hdiv, BitVec.sdiv_eq, hpos', BitVec.srem_eq, hpos', BitVec.srem_eq, hpos]
  have h8 : (8 : Word).msb = false := rfl
  have h2 : (2 : Word).msb = false := rfl
  rw [h8, h2]
  simp only [BitVec.udiv_eq, BitVec.toNat_udiv, BitVec.toNat_umod]
  refine ⟨?_, rfl, rfl⟩
  exact Nat.div_div_eq_div_mul _ 2 8

/-- The fields of the first command: the cylinder loses its high bits. -/
theorem seekCommand_fields (h : 0 ≤ sectNo.toInt) :
    opcode (seekCommand sectNo) = diskSeek ∧
      (seekCommand sectNo >>> seekShift).toNat = sectNo.toNat / 16 % 2 ^ 24 := by
  obtain ⟨hcylinder, -, -⟩ := sector_parts h
  rw [seekCommand]
  generalize (sectNo.sdiv 2).sdiv 8 = cylinder at hcylinder
  have hlow : (cylinder <<< seekShift) &&& diskSeek = 0 := by
    apply BitVec.eq_of_getLsbD_eq
    intro i hi
    rw [BitVec.getLsbD_and, BitVec.getLsbD_shiftLeft]
    interval_cases i <;> simp [seekShift, diskSeek]
  have hnat : ((cylinder <<< seekShift) ||| diskSeek).toNat =
      sectNo.toNat / 16 * 256 % 2 ^ 32 + 2 := by
    have hseek : diskSeek.toNat = 2 := rfl
    have hshift : 2 ^ seekShift = 256 := rfl
    rw [← BitVec.add_eq_or_of_and_eq_zero _ _ hlow, BitVec.toNat_add, BitVec.toNat_shiftLeft,
      hcylinder, Nat.shiftLeft_eq, hshift, hseek]
    omega
  constructor
  · apply BitVec.eq_of_getLsbD_eq
    intro i hi
    rw [opcode, BitVec.getLsbD_and, BitVec.getLsbD_or, BitVec.getLsbD_shiftLeft]
    interval_cases i <;> simp [seekShift, diskSeek]
  · have hshift : 2 ^ seekShift = 256 := rfl
    rw [BitVec.toNat_ushiftRight, Nat.shiftRight_eq_div_pow, hnat, hshift]
    omega

/-- The fields of the second command. -/
theorem transferCommand_fields (h : 0 ≤ sectNo.toInt)
    (hcomm : readWrite = writeBlk ∨ readWrite = readBlk) :
    opcode (transferCommand readWrite sectNo) = readWrite ∧
      ((transferCommand readWrite sectNo >>> sectorShift) &&& 0xFF).toNat =
        sectNo.toNat / 2 % 8 ∧
      (transferCommand readWrite sectNo >>> headShift).toNat = sectNo.toNat % 2 := by
  obtain ⟨-, hsector, hhead⟩ := sector_parts h
  have heq : ∀ {x : Word} {n : ℕ}, x.toNat = n → x = BitVec.ofNat 32 n := by
    rintro x _ rfl
    apply BitVec.eq_of_toNat_eq
    rw [BitVec.toNat_ofNat, Nat.mod_eq_of_lt x.isLt]
  rw [transferCommand, heq hsector, heq hhead]
  have hsector : sectNo.toNat / 2 % 8 < 8 := Nat.mod_lt _ (by decide)
  have hhead : sectNo.toNat % 2 < 2 := Nat.mod_lt _ (by decide)
  generalize sectNo.toNat / 2 % 8 = sector at hsector
  generalize sectNo.toNat % 2 = head at hhead
  -- two heads and eight sectors
  rcases hcomm with rfl | rfl <;> interval_cases head <;> interval_cases sector <;>
    exact ⟨rfl, rfl, rfl⟩

/-- A sector number can be read from its commands exactly if its cylinder has 24 bits. -/
theorem addressed_iff (h : 0 ≤ sectNo.toInt) (hcomm : readWrite = writeBlk ∨ readWrite = readBlk) :
    Addressed readWrite sectNo (seekCommand sectNo) (transferCommand readWrite sectNo) ↔
      sectNo.toNat < 2 ^ 28 := by
  obtain ⟨hseek, hcylinder⟩ := seekCommand_fields h
  obtain ⟨htransfer, hsector, hhead⟩ := transferCommand_fields h hcomm
  constructor
  · intro haddr
    have hnum := haddr.number
    omega
  · intro hlt
    exact ⟨hseek, htransfer, by omega, hsector, hhead, by omega⟩

end

/-- The commands of two sector numbers are apart exactly if both are below `2 ^ 28`. -/
theorem sectorsApart_iff [Support] {readWrite sectNo sectNo' : Word}
    (hcomm : readWrite = writeBlk ∨ readWrite = readBlk) (h : 0 ≤ sectNo.toInt)
    (h' : 0 ≤ sectNo'.toInt) (hne : sectNo ≠ sectNo') :
    SectorsApart readWrite sectNo sectNo' ↔ sectNo.toNat < 2 ^ 28 ∧ sectNo'.toNat < 2 ^ 28 := by
  constructor
  · intro hapart
    obtain ⟨-, haddr, haddr'⟩ := hapart _ _ _ _ ((commands_iff hcomm).mpr ⟨rfl, rfl⟩)
      ((commands_iff hcomm).mpr ⟨rfl, rfl⟩)
    exact ⟨(addressed_iff h hcomm).mp haddr, (addressed_iff h' hcomm).mp haddr'⟩
  · rintro ⟨hlt, hlt'⟩ seek transfer seek' transfer' hwrite hwrite'
    obtain ⟨rfl, rfl⟩ := (commands_iff hcomm).mp hwrite
    obtain ⟨rfl, rfl⟩ := (commands_iff hcomm).mp hwrite'
    have haddr := (addressed_iff h hcomm).mpr hlt
    have haddr' := (addressed_iff h' hcomm).mpr hlt'
    refine ⟨fun heq => hne (BitVec.eq_of_toNat_eq ?_), haddr, haddr'⟩
    obtain ⟨hseek, htransfer⟩ := Prod.mk.inj heq
    rw [haddr.number, haddr'.number, hseek, htransfer]

/-- The sectors that the test of the disks writes. -/
theorem sectorsApart_iff_test : ∃ _ : Support, SectorsApart writeBlk 3 23 := by
  let _ := sampleSupport
  exact ⟨sampleSupport, (sectorsApart_iff (.inl rfl) (by decide) (by decide) (by decide)).mpr
    ⟨by decide, by decide⟩⟩

/-- Sector `2 ^ 28` has the commands of sector 0. -/
theorem sectors_alias : ¬ ∀ (_ : Support) (readWrite sectNo sectNo' : Word),
    readWrite = writeBlk ∨ readWrite = readBlk → 0 ≤ sectNo.toInt → 0 ≤ sectNo'.toInt →
      sectNo ≠ sectNo' → SectorsApart readWrite sectNo sectNo' := by
  intro h
  let _ := sampleSupport
  have hapart := h sampleSupport readBlk 0 0x10000000 (.inr rfl) (by decide) (by decide) (by decide)
  have hseek : seekCommand 0 = seekCommand 0x10000000 := by decide
  have htransfer : transferCommand readBlk 0 = transferCommand readBlk 0x10000000 := by decide
  refine (hapart _ _ _ _ ((commands_iff (.inr rfl)).mpr ⟨rfl, rfl⟩)
    ((commands_iff (.inr rfl)).mpr ⟨rfl, rfl⟩)).1 ?_
  rw [hseek, htransfer]

end Jaeos
