import Jaeos.Support.DiskRules

/-!
# Transfers and copies

The rules for what a process does with a device whose mutex it has: it sets the registers, the
disk moves its arm and transfers a block, and pages are copied between the buffer and the user.
-/

namespace Jaeos

namespace Disks

open Hardware

/-! ## What the owner of a device knows -/

/-- What a process knows of its call, the sectors and the buffer of a device whose mutex it has. -/
def Owns (i d : ℤ) (P : (TrapType → Fin stateRegNum → Word) → (Block → Page) →
    (Word → Option Page) → Page → Prop) (s : Disks) : Prop :=
  s.holder (.mutexSemArray d) = some i ∧
    P (s.old i) (s.blocks d) (s.put d) (s.ram.page (buffer d))

section

variable {i d dev n : ℤ} {B C : Disks → Prop} {tapes : ℤ → List Page}
  {P : (TrapType → Fin stateRegNum → Word) → (Block → Page) → (Word → Option Page) → Page → Prop}

theorem Owns.steady (h1 : 1 ≤ d) (h15 : d ≤ 15) : Steady i (Owns i d P) := by
  rintro s s' ⟨hd, hP⟩ hr
  obtain ⟨-, -, hblocks, hput⟩ := hr.device d hd
  refine ⟨(hr.holder _).mp hd, ?_⟩
  rwa [hr.old, hblocks, hput, hr.buffer d h1 h15 hd]

theorem Owns.kept (h1 : 1 ≤ d) (h15 : d ≤ 15) : Kept i dev (Owns i d P) where
  steady := Owns.steady h1 h15
  reg _ _ h := h
  arm _ h := h

theorem HasTape.steady (hi : 1 ≤ i) : Steady i (HasTape tapes i) :=
  fun _ _ h hr k p hp => (hr.backing hi k).trans (h k p hp)

theorem HasTape.kept (hi : 1 ≤ i) : Kept i dev (HasTape tapes i) where
  steady := HasTape.steady hi
  reg _ _ h := h
  arm _ h := h

theorem Steady.and (hB : Steady i B) (hC : Steady i C) : Steady i fun s => B s ∧ C s :=
  fun _ _ h hr => ⟨hB h.1 hr, hC h.2 hr⟩

theorem Kept.and (hB : Kept i d B) (hC : Kept i d C) : Kept i d fun s => B s ∧ C s where
  steady := hB.steady.and hC.steady
  reg f v h := ⟨hB.reg f v h.1, hC.reg f v h.2⟩
  arm n h := ⟨hB.arm n h.1, hC.arm n h.2⟩

/-- The process has the mutex of the device, and knows its registers and its arm. -/
def Told (i d : ℤ) (P : (DevField → Word) → ℕ → Prop) (s : Disks) : Prop :=
  s.holder (.mutexSemArray d) = some i ∧ P (s.reg d) (s.arm d)

theorem Told.steady {P : (DevField → Word) → ℕ → Prop} : Steady i (Told i d P) := by
  rintro s s' ⟨hd, hP⟩ hr
  obtain ⟨hreg, harm, -⟩ := hr.device d hd
  refine ⟨(hr.holder _).mp hd, ?_⟩
  rwa [hreg, harm]

end

/-! ## What the others can rely on -/

section

variable {blocks : ℤ → Block → Page} {s : Disks} {i j d : ℤ}

/-- Two processes have the mutexes of different devices. -/
theorem ne_of_holders {d' : ℤ} (hd : s.holder (.mutexSemArray d) = some i) (hj : j ≠ i)
    (hd' : s.holder (.mutexSemArray d') = some j) : d' ≠ d := by
  rintro rfl
  exact hj (Option.some.inj (hd'.symm.trans hd))

theorem rely_setReg (hd : s.holder (.mutexSemArray d) = some i) (hj : j ≠ i) (f : DevField)
    (v : Word) : Rely j s (s.onto (s.setReg d f v)) :=
  { Rely.refl j s with
    device d' hd' := by
      have hne := ne_of_holders hd hj hd'
      exact ⟨Function.update_of_ne hne .., rfl, rfl, rfl⟩ }

theorem rely_arm (hd : s.holder (.mutexSemArray d) = some i) (hj : j ≠ i) (n : ℕ) :
    Rely j s (s.onto { s.toHardware with arm := Function.update s.arm d n }) :=
  { Rely.refl j s with
    device d' hd' := by
      have hne := ne_of_holders hd hj hd'
      exact ⟨rfl, Function.update_of_ne hne .., rfl, rfl⟩ }

/-- A block is written that is not one of the others' on the backing store. -/
theorem rely_write (hd : s.holder (.mutexSemArray d) = some i) (hj : j ≠ i) {b : Block}
    (hb : d = 0 → 1 ≤ j → ∀ k, pageBlock j k ≠ b)
    (p : Page) :
    Rely j s (s.onto { s.toHardware with
      blocks := Function.update s.blocks d (Function.update (s.blocks d) b p) }) :=
  { Rely.refl j s with
    device d' hd' := by
      have hne := ne_of_holders hd hj hd'
      exact ⟨rfl, rfl, Function.update_of_ne hne .., rfl⟩
    backing h1 k := by
      change Function.update s.blocks d (Function.update (s.blocks d) b p) 0 _ = _
      by_cases h0 : 0 = d
      · subst h0
        rw [Function.update_self, Function.update_of_ne (hb rfl h1 k)]
      · rw [Function.update_of_ne h0] }

/-- The mutex of the other device with the buffer of this one is free. -/
def Sole (d : ℤ) (s : Disks) : Prop :=
  ∀ d', 1 ≤ d' → d' ≤ 15 → d' ≠ d → d' % 8 = d % 8 → s.holder (.mutexSemArray d') = none

theorem sole_disk (h1 : 1 ≤ d) (h7 : d ≤ 7)
    (h : s.holder (.mutexSemArray (tapeDev (d + 1))) = none) : Sole d s := by
  intro d' h1' h15' hne hmod
  obtain rfl : d' = d + 8 := by omega
  rw [tapeDev_eq, show d + 1 + 7 = d + 8 by omega] at h
  exact h

theorem sole_tape (h1 : 1 ≤ i) (h8 : i ≤ 8)
    (h : 1 ≤ i - 1 → i - 1 ≤ 7 → s.holder (.mutexSemArray (i - 1)) = none) :
    Sole (tapeDev i) s := by
  intro d' h1' h15' hne hmod
  rw [tapeDev_eq] at hne hmod
  obtain rfl : d' = i - 1 := by omega
  exact h (by omega) (by omega)

/-- Then nobody else has a device with this buffer. -/
theorem Sole.buffer_ne (h : Sole d s) (h1 : 1 ≤ d) (h15 : d ≤ 15)
    (hd : s.holder (.mutexSemArray d) = some i) {d' : ℤ} (h1' : 1 ≤ d') (h15' : d' ≤ 15)
    (hd' : s.holder (.mutexSemArray d') = some j) (hj : j ≠ i) : buffer d' ≠ buffer d := by
  intro he
  have hfree := h d' h1' h15' (ne_of_holders hd hj hd') (buffer_inj h1' h15' h1 h15 he)
  exact absurd (hfree.symm.trans hd') (by simp)

/-- The owner of a device writes into its buffer. -/
theorem rely_ram (hsole : Sole d s) (h1 : 1 ≤ d) (h15 : d ≤ 15)
    (hd : s.holder (.mutexSemArray d) = some i) (hj : j ≠ i) {m : Ram}
    (hm : ∀ b : Word, b.Aligned → b ≠ buffer d → m.page b = s.ram.page b) :
    Rely j s (s.onto { s.toHardware with ram := m }) :=
  { Rely.refl j s with
    buffer _ h1' h15' hd' := hm _ (buffer_aligned h1' h15')
      (hsole.buffer_ne h1 h15 hd h1' h15' hd' hj) }

/-- The registers, the arms, the tapes and memory do not matter for the invariant. -/
theorem Inv.of_hardware (h : Inv blocks s) {h' : Hardware} (hholder : h'.holder = s.holder)
    (hblocks : ∀ d, 1 ≤ d → d ≤ 7 → s.holder (.mutexSemArray d) = none →
      h'.blocks d = s.blocks d) : Inv blocks (s.onto h') := by
  intro d h1 h7 hfree n hn
  change h'.holder _ = none at hfree
  rw [hholder] at hfree
  change h'.blocks d (sectorBlock n) = (s.put d n).getD _
  rw [hblocks d h1 h7 hfree]
  exact h d h1 h7 hfree n hn

end

/-! ## Devices -/

section

variable [Support] {blocks : ℤ → Block → Page} {tapes : ℤ → List Page} {i d : ℤ} {L : List Sem}
  {B C : Disks → Prop} {x : Disks × Unit} {E : End → Disks × Unit → Prop}

/-- A process sets a register of its device. -/
theorem runs_writeDev (hB : Kept i d B) {f : DevField} {v : Word} {Q : Unit → Disks × Unit → Prop}
    (hL : .mutexSemArray d ∈ L) (hx : Point blocks i L B x.1)
    (hQ : Point blocks i L B (x.1.onto (x.1.setReg d f v)) →
      Q () (x.1.onto (x.1.setReg d f v), ())) :
    Prog.wpx ((outline blocks tapes).spec i) (sup (.writeDev d f v)) Q E x := by
  have hd := (hx.held _).mpr hL
  refine runs_now rfl fun ans b s' _ _ hsem => ?_
  obtain ⟨-, rfl⟩ := Prod.mk.inj (Option.some.inj hsem)
  exact ⟨trivial, fun _ _ _ => rfl, fun j hj => rely_setReg hd hj f v,
    hQ ⟨hx.inv.of_hardware rfl fun _ _ _ _ => rfl, hx.held, hB.reg f v hx.own⟩⟩

/-- The arm moves. -/
theorem runs_seek (hB : Kept i d B) {command : Word} {Q : Word → Disks × Unit → Prop}
    (hcommand : opcode command = diskSeek) (hL : .mutexSemArray d ∈ L)
    (hx : Point blocks i L B x.1)
    (hQ : ∀ y, Point blocks i L (fun s => B s ∧
      Told i d (fun _ arm => arm = seekCylinder command) s) y → Q ready (y, ())) :
    Prog.wpx ((outline blocks tapes).spec i) (sup (.writeDev d .dCommand command))
      (fun _ => Prog.wpx ((outline blocks tapes).spec i) (sup (.waitForIo diskInt d 0)) Q E)
      E x := by
  have hd := (hx.held _).mpr hL
  refine runs_writeDev hB hL hx fun hy => ?_
  let P : (DevField → Word) → ℕ → Prop := fun reg _ => reg .dCommand = command
  refine runs_op (hB.steady.and (Told.steady (d := d) (P := P)))
    (hy.imp fun hown => ⟨hown, hd, setReg_reg_self ..⟩) fun s hs ans b s' hans _ hsem => ?_
  obtain ⟨rfl, rfl⟩ := Prod.mk.inj (Option.some.inj hsem)
  obtain ⟨hown, hd, hreg⟩ := hs.own
  have hreg : s.reg d .dCommand = command := hreg
  have hcode : opcode (s.reg d .dCommand) = diskSeek := by rw [hreg, hcommand]
  obtain rfl : ans = ready := hans
  have hseek : s.complete diskInt d ready =
      { s.toHardware with arm := Function.update s.arm d (seekCylinder command) } := by
    rw [complete_seek hcode, hreg]
  change Exact s.put blocks i s Word _ ∧ LeavesSpare s (s.onto (s.complete diskInt d ready)) ∧
    (∀ j, j ≠ i → Rely j s (s.onto (s.complete diskInt d ready))) ∧
      Q ready (s.onto (s.complete diskInt d ready), ())
  rw [hseek]
  refine ⟨fun _ _ _ hwrite => ?_, fun _ _ _ => rfl, fun j hj => rely_arm hd hj _,
    hQ _ ⟨?_, hs.held, ?_, hd, ?_⟩⟩
  · rw [hcode] at hwrite
    exact absurd hwrite (by decide)
  · exact hs.inv.of_hardware rfl fun _ _ _ _ => rfl
  · exact hB.arm _ hown
  · exact Function.update_self ..

/-- What a transfer does when the registers and the arm are set. -/
def Transfers (blocks : ℤ → Block → Page) (i d : ℤ) (B C : Disks → Prop) (address command : Word)
    (n : ℕ) : Prop :=
  ∀ s, Inv blocks s → s.holder (.mutexSemArray d) = some i → B s → s.reg d .dData0 = address →
    s.reg d .dCommand = command → s.arm d = n → FillsAlone i s Word (.waitForIo diskInt d 0) →
    Exact s.put blocks i s Word (.waitForIo diskInt d 0) ∧
      LeavesSpare s (s.onto (s.complete diskInt d ready)) ∧
      (∀ j, j ≠ i → Rely j s (s.onto (s.complete diskInt d ready))) ∧
      Inv blocks (s.onto (s.complete diskInt d ready)) ∧
      C (s.onto (s.complete diskInt d ready))

/-- The disk transfers a block. -/
theorem runs_transfer (hB : Kept i d B) {address command : Word} {n : ℕ}
    {Q : Word → Disks × Unit → Prop} (hL : .mutexSemArray d ∈ L)
    (hx : Point blocks i L (fun s => B s ∧ Told i d (fun _ arm => arm = n) s) x.1)
    (hmove : Transfers blocks i d B C address command n)
    (hQ : ∀ y, Point blocks i L C y → Q ready (y, ())) :
    Prog.wpx ((outline blocks tapes).spec i) (sup (.writeDev d .dData0 address))
      (fun _ => Prog.wpx ((outline blocks tapes).spec i) (sup (.writeDev d .dCommand command))
        (fun _ => Prog.wpx ((outline blocks tapes).spec i) (sup (.waitForIo diskInt d 0)) Q E) E)
      E x := by
  obtain ⟨hd, harm⟩ := hx.own.2
  refine runs_writeDev hB hL (hx.imp And.left) fun hy => runs_writeDev hB hL hy fun hz => ?_
  let P : (DevField → Word) → ℕ → Prop := fun reg arm =>
    reg .dData0 = address ∧ reg .dCommand = command ∧ arm = n
  refine runs_op (hB.steady.and (Told.steady (d := d) (P := P)))
    (hz.imp fun hown => ⟨hown, hd, ?_, setReg_reg_self .., harm⟩)
    fun s hs ans b s' hans halone hsem => ?_
  · exact (setReg_reg_of_ne _ _ (by decide)).trans (setReg_reg_self ..)
  obtain ⟨rfl, rfl⟩ := Prod.mk.inj (Option.some.inj hsem)
  obtain ⟨hown, hd, hdata, hcommand, harm⟩ := hs.own
  obtain rfl : ans = ready := hans
  obtain ⟨hexact, hspare, hrely, hinv, hC⟩ := hmove s hs.inv hd hown hdata hcommand harm halone
  refine ⟨hexact, hspare, hrely, hQ _ ⟨hinv, fun m => ?_, hC⟩⟩
  exact (iff_of_eq (congrArg (· = some i)
    (congrFun (complete_holder s.toHardware diskInt d ready) m))).trans (hs.held m)

/-! ## Copies -/

/-- The words of the target from `j` on have been copied, and nothing else has changed. -/
structure Copied (i : ℤ) (s s' : Disks) (source target : Word) (j : ℕ) : Prop where
  /-- the copied words -/
  copied : ∀ w : Fin 1024, j ≤ w → s'.view i (wordAt target w) = s.view i (wordAt source w)
  /-- the other words -/
  other : ∀ a, (∀ w : Fin 1024, j ≤ w → a ≠ wordAt target w) → s'.view i a = s.view i a

/-- A process that copies from `source` to `target` keeps `K`, finds what it should, and leaves the
others alone. -/
structure Copies (blocks : ℤ → Block → Page) (i : ℤ) (K : Disks → Prop) (source target : Word) :
    Prop where
  /-- a word is read -/
  load : ∀ s w, K s → Exact s.put blocks i s Word (.loadWord (wordAt source w))
  /-- a word is written -/
  store : ∀ s w v, K s → K (s.store i (wordAt target w) v) ∧
    LeavesSpare s (s.store i (wordAt target w) v) ∧
      ∀ j, j ≠ i → Rely j s (s.store i (wordAt target w) v)
  /-- the pages are apart -/
  apart : ∀ v w, wordAt source v ≠ wordAt target w

theorem runs_copyWords {K : Disks → Prop} {source target : Word} {s : Disks}
    {Q : Unit → Disks × Unit → Prop} (hcopy : Copies blocks i K source target) (k j : ℕ)
    (hj : j + k = 1024) (hs : K s)
    (hQ : ∀ s', K s' → Copied i s s' source target j → Q () (s', ())) :
    Prog.wpx ((outline blocks tapes).spec i) (copyWords k (source + BitVec.ofNat 32 (4 * j))
      (target + BitVec.ofNat 32 (4 * j))) Q E (s, ()) := by
  induction k generalizing j s with
  | zero =>
    refine hQ s hs ⟨fun w hw => ?_, fun _ _ => rfl⟩
    have := w.isLt
    omega
  | succ k ih =>
    have hshift : ∀ a : Word, a + BitVec.ofNat 32 (4 * j) + 4 =
        a + BitVec.ofNat 32 (4 * (j + 1)) := by
      intro a
      bv_omega
    let y : Fin 1024 := ⟨j, by omega⟩
    simp only [copyWords, Prog.wpx_bind]
    refine runs_now rfl fun ans b s' _ _ hsem => ?_
    obtain ⟨rfl, rfl⟩ := Prod.mk.inj (Option.some.inj hsem)
    refine ⟨hcopy.load s y hs, fun _ _ _ => rfl, fun j _ => .refl j s,
      runs_now rfl fun ans b s' _ _ hsem => ?_⟩
    obtain ⟨-, rfl⟩ := Prod.mk.inj (Option.some.inj hsem)
    obtain ⟨hs', hspare, hrely⟩ := hcopy.store s y (s.view i (wordAt source y)) hs
    refine ⟨trivial, hspare, hrely, ?_⟩
    rw [hshift, hshift]
    refine ih (j + 1) (by omega) hs' fun s' hs' hc => hQ s' hs' ⟨fun w hw => ?_, fun a ha => ?_⟩
    · by_cases hwy : w = y
      · -- the words behind it are other words
        have hfirst : ∀ v : Fin 1024, j + 1 ≤ v → wordAt target w ≠ wordAt target v := by
          intro v hv he
          have hval := congrArg Fin.val ((wordAt_left_inj he).symm.trans hwy)
          have : (y : ℕ) = j := rfl
          omega
        rw [hc.other _ hfirst, hwy]
        exact view_store_self
      · have hw' : j + 1 ≤ (w : ℕ) := by
          have hne : (w : ℕ) ≠ j := fun he => hwy (Fin.ext he)
          omega
        rw [hc.copied w hw']
        exact view_store_of_ne (hcopy.apart w y)
    · rw [hc.other a fun w hw => ha w (by omega)]
      exact view_store_of_ne (ha y (le_refl _))

/-- `copyPage`: the target is a copy of the source, which stays as it is. -/
theorem runs_copyPage {K : Disks → Prop} {source target : Word} {s : Disks}
    {Q : Unit → Disks × Unit → Prop} (hcopy : Copies blocks i K source target) (hs : K s)
    (hQ : ∀ s', K s' → s'.page i target = s.page i source → s'.page i source = s.page i source →
      Q () (s', ())) :
    Prog.wpx ((outline blocks tapes).spec i) (copyPage source target) Q E (s, ()) := by
  have hzero : ∀ a : Word, a + BitVec.ofNat 32 (4 * 0) = a := by simp
  rw [← hzero source, ← hzero target]
  refine runs_copyWords hcopy 1024 0 rfl hs fun s' hs' hc => hQ s' hs' ?_ ?_
  · funext w
    exact hc.copied w (Nat.zero_le _)
  · funext w
    exact hc.other _ fun w' _ => hcopy.apart w w'

end

end Disks

end Jaeos
