import Jaeos.Support.PagerHandlers

/-!
# Loading the tapes

`uProcInit` while the other processes load, run and die: the blocks of the tape of a process are
on the backing store before the process runs, each where the pager looks for it.
-/

namespace Jaeos

namespace Hardware

/-! ## A tape -/

/-- What a tape may change that reads into a page. -/
structure TapeRead (s s' : Hardware) (dev : ℤ) (a : Word) : Prop where
  /-- the mutexes -/
  holder : s'.holder = s.holder
  /-- the status registers -/
  status : s'.status = s.status
  /-- the old areas -/
  old : s'.old = s.old
  /-- the registers of the other devices -/
  reg : ∀ d, d ≠ dev → s'.reg d = s.reg d
  /-- the arms of the disks -/
  arm : s'.arm = s.arm
  /-- the disks -/
  blocks : s'.blocks = s.blocks
  /-- the other tapes -/
  tape : ∀ d, d ≠ dev → s'.tape d = s.tape d
  /-- the other pages -/
  ram : ∀ b, b.Aligned → b ≠ a → s'.ram.page b = s.ram.page b

variable {s : Hardware} {dev : ℤ} {a : Word}

theorem tapeRead_refl : TapeRead s s dev a :=
  ⟨rfl, rfl, rfl, fun _ _ => rfl, rfl, rfl, fun _ _ => rfl, fun _ _ _ => rfl⟩

/-- A tape reads a block, or its marker. -/
theorem tapeRead_tapeCommand (ha : a.Aligned) (hdata : s.reg dev .dData0 = a) :
    TapeRead s (s.tapeCommand dev) dev a := by
  unfold tapeCommand
  split
  · split
    · exact ⟨rfl, rfl, rfl, fun d hd => Function.update_of_ne hd .., rfl, rfl, fun _ _ => rfl,
        fun _ _ _ => rfl⟩
    · refine ⟨rfl, rfl, rfl, fun d hd => Function.update_of_ne hd .., rfl, rfl,
        fun d hd => Function.update_of_ne hd .., fun b hb hne => ?_⟩
      rw [hdata]
      exact Ram.page_setPage_of_ne ha hb hne
  · exact tapeRead_refl

end Hardware

namespace Paging

open Hardware

section

variable [Support] {sure : Prop} {tapes : ℤ → List Page} {s s' : Paging} {g g' : Record} {i : ℤ}
  {L : List Sem} {x : Noted} {E : End → Noted → Prop} {n : ℕ} {a : Word}

/-! ## What a process knows that loads its tape -/

/-- So many blocks are on the backing store, the others are on the tape. -/
structure Loading (sure : Prop) (tapes : ℤ → List Page) (i : ℤ) (n : ℕ) (x : Noted) : Prop where
  /-- it has not run yet -/
  age : x.2.age i = .fresh
  /-- the tape -/
  tape : sure → x.1.tape (tapeDev i) = (tapes i).drop n
  /-- the backing store -/
  loaded : sure → x.1.Loaded tapes i n

theorem Loading.kept (hi : IsUser i) : Kept i (Loading sure tapes i n) where
  rely h hr := by
    refine ⟨hr.age.trans h.age, fun hsure => (hr.tape hi).1.trans (h.tape hsure), ?_⟩
    intro hsure k p hk hp
    exact (hr.fresh hi h.age k).trans (h.loaded hsure k p hk hp)
  status _ h := ⟨h.age, h.tape, h.loaded⟩
  hold _ _ h := ⟨h.age, h.tape, h.loaded⟩
  reg _ _ h := ⟨h.age, h.tape, h.loaded⟩
  arm _ h := ⟨h.age, h.tape, h.loaded⟩

/-- The next block is in the buffer, and the marker says whether there are more. -/
structure Buffered (sure : Prop) (tapes : ℤ → List Page) (i : ℤ) (n : ℕ) (x : Noted) : Prop where
  /-- it has not run yet -/
  age : x.2.age i = .fresh
  /-- the tape -/
  tape : sure → x.1.tape (tapeDev i) = (tapes i).drop (n + 1)
  /-- the backing store -/
  loaded : sure → x.1.Loaded tapes i n
  /-- the buffer -/
  buffer : sure → ∀ p, (tapes i)[n]? = some p → x.1.ram.page (tapeBuffer i) = p
  /-- the marker -/
  marker : sure → (x.1.reg (tapeDev i) .dData1 = eob ↔ (tapes i).drop (n + 1) ≠ [])

omit [Support] in
/-- The backing store has other registers than a tape. -/
theorem reg_setReg_disk {s : Hardware} {f : DevField} {v : Word} (hi : 1 ≤ i) :
    (s.setReg backingStore f v).reg (tapeDev i) = s.reg (tapeDev i) :=
  Function.update_of_ne (zero_ne_tapeDev hi).symm ..

theorem Buffered.kept (hi : IsUser i) : Kept i (Buffered sure tapes i n) where
  rely h hr := by
    refine ⟨hr.age.trans h.age, fun hsure => (hr.tape hi).1.trans (h.tape hsure), ?_, ?_, ?_⟩
    · intro hsure k p hk hp
      exact (hr.fresh hi h.age k).trans (h.loaded hsure k p hk hp)
    · exact fun hsure p hp => (hr.buffer hi).trans (h.buffer hsure p hp)
    · rw [(hr.tape hi).2]
      exact h.marker
  status _ h := ⟨h.age, h.tape, h.loaded, h.buffer, h.marker⟩
  hold _ _ h := ⟨h.age, h.tape, h.loaded, h.buffer, h.marker⟩
  reg f v h := ⟨h.age, h.tape, h.loaded, h.buffer, fun hsure => by
    rw [← h.marker hsure]
    exact iff_of_eq (congrArg (· = eob) (congrFun (reg_setReg_disk hi.1) .dData1))⟩
  arm _ h := ⟨h.age, h.tape, h.loaded, h.buffer, h.marker⟩

/-- That block is on the backing store, too. -/
structure Stored (sure : Prop) (tapes : ℤ → List Page) (i : ℤ) (n : ℕ) (x : Noted) : Prop
    extends Loading sure tapes i (n + 1) x where
  /-- the marker -/
  marker : sure → (x.1.reg (tapeDev i) .dData1 = eob ↔ (tapes i).drop (n + 1) ≠ [])

theorem Stored.kept (hi : IsUser i) : Kept i (Stored sure tapes i n) where
  rely h hr := by
    refine ⟨(Loading.kept hi).rely h.toLoading hr, ?_⟩
    rw [(hr.tape hi).2]
    exact h.marker
  status v h := ⟨(Loading.kept hi).status v h.toLoading, h.marker⟩
  hold o hm h := ⟨(Loading.kept hi).hold o hm h.toLoading, h.marker⟩
  reg f v h := ⟨(Loading.kept hi).reg f v h.toLoading, fun hsure => by
    rw [← h.marker hsure]
    exact iff_of_eq (congrArg (· = eob) (congrFun (reg_setReg_disk hi.1) .dData1))⟩
  arm a h := ⟨(Loading.kept hi).arm a h.toLoading, h.marker⟩

/-! ## Reading the tape -/

omit [Support] in
theorem tapeDev_inj {j : ℤ} (h : tapeDev j = tapeDev i) : j = i := by
  have hj : tapeDev j = 8 + (j - 1) := rfl
  have hi : tapeDev i = 8 + (i - 1) := rfl
  omega

/-- The others do not use the tape, nor its buffer. -/
theorem rely_tapeRead (hfit : PoolFits) {h : Hardware} {j : ℤ} (hi : IsUser i) (hj : j ≠ i)
    (hread : TapeRead s.toHardware h (tapeDev i) (tapeBuffer i)) :
    Rely j (s, g) (s.onto h, g) :=
  { Rely.refl j (s, g) with
    holder m := iff_of_eq (congrArg (· = some j) (congrFun hread.holder m).symm)
    status := congrFun hread.status j
    old := congrFun hread.old j
    disk _ := ⟨hread.reg 0 (zero_ne_tapeDev hi.1), congrFun hread.arm 0⟩
    tape _ :=
      ⟨hread.tape _ fun he => hj (tapeDev_inj he), hread.reg _ fun he => hj (tapeDev_inj he)⟩
    buffer hu := hread.ram _ (tapeBuffer_aligned hu.1 (hu.lt_64 hfit)) fun he =>
      hj (tapeBuffer_inj hu.1 (hu.lt_64 hfit) hi.1 (hi.lt_64 hfit) he)
    fresh _ _ _ := congrFun (congrFun hread.blocks 0) _ }

theorem Inv.tapeRead (hfit : PoolFits) {h : Hardware} (hinv : Inv sure tapes (s, g)) (hi : IsUser i)
    (hread : TapeRead s.toHardware h (tapeDev i) (tapeBuffer i)) :
    Inv sure tapes (s.onto h, g) := by
  have hholder : (s.onto h).holder = s.holder := hread.holder
  refine ⟨hinv.core.stay ⟨rfl, rfl, rfl⟩ rfl (fun hl => ?_) (fun hsure j hd hl => ?_)
    (fun f hf => ?_) fun _ _ _ _ => ?_, hinv.coherent⟩
  · exact hinv.core.table.lock (hholder ▸ hl)
  · exact hinv.core.doomed hsure j hd (hholder ▸ hl)
  · exact hread.ram _ (hfit.swapAddr_aligned hf) (hfit.swapAddr_ne_tapeBuffer hf hi)
  · exact congrFun (congrFun hread.blocks 0) _

/-- A process sets a register of its tape. -/
theorem runs_writeTape (hfit : PoolFits) {f : DevField} {v : Word} {Q : Unit → Noted → Prop}
    (hm : Masked i x.1) (hi : IsUser i) (hx : Point sure tapes i L (Loading sure tapes i n) x)
    (hQ : Masked i (x.1.onto (x.1.setReg (tapeDev i) f v)) →
      Point sure tapes i L (Loading sure tapes i n) (x.1.onto (x.1.setReg (tapeDev i) f v), x.2) →
        Q () (x.1.onto (x.1.setReg (tapeDev i) f v), x.2)) :
    Prog.wpx ((outline sure tapes).spec i) (sup (.writeDev (tapeDev i) f v)) Q E x := by
  have hinv : Inv sure tapes (x.1.onto (x.1.setReg (tapeDev i) f v), x.2) :=
    Inv.setReg hx.inv (tapeDev i) f v
  refine runs_masked hm rfl () _ x.2 (fun _ => rfl)
    (fun hsure => .of_same hfit hsure hx.inv.core hinv.core ⟨rfl, rfl, rfl⟩) (fun j hj => ?_)
    (hQ hm ⟨hinv, hx.held, hx.own.age, hx.own.tape, hx.own.loaded⟩)
  exact rely_setReg (fun h0 => absurd h0.symm (zero_ne_tapeDev hi.1))
    (fun _ he => hj (tapeDev_inj he).symm) f v

/-- The next block is read into the buffer. -/
theorem runs_readTape (hfit : PoolFits) {Q : Word → Noted → Prop} (hm : Masked i x.1)
    (hi : IsUser i) (hx : Point sure tapes i L (Loading sure tapes i n) x)
    (hQ : ∀ status y, (sure → status = ready) →
      Point sure tapes i L (Buffered sure tapes i n) y → Q status y) :
    Prog.wpx ((outline sure tapes).spec i) (sup (.writeDev (tapeDev i) .dData0 (tapeBuffer i)))
      (fun _ => Prog.wpx ((outline sure tapes).spec i)
        (sup (.writeDev (tapeDev i) .dCommand readBlk)) (fun _ =>
          Prog.wpx ((outline sure tapes).spec i) (sup (.waitForIo tapeInt (i - 1) 0)) Q E) E)
      E x := by
  have haligned := tapeBuffer_aligned hi.1 (hi.lt_64 hfit)
  refine runs_writeTape hfit hm hi hx fun hm' hy => ?_
  refine runs_writeTape hfit hm' hi hy fun _ hz => ?_
  let P : Noted → Prop := fun z => z.1.reg (tapeDev i) .dData0 = tapeBuffer i ∧
    z.1.reg (tapeDev i) .dCommand = readBlk
  have hP : Steady i P :=
    ⟨fun h hr => ⟨(congrFun (hr.tape hi).2 _).trans h.1, (congrFun (hr.tape hi).2 _).trans h.2⟩,
      fun _ h => h⟩
  refine runs_step ((Loading.kept hi).toSteady.and hP) (hz.imp fun hown => ⟨hown, ?_, ?_⟩)
    fun z hz ans b s' hans _ hsem => ?_
  · exact (setReg_reg_of_ne _ _ (by decide)).trans (setReg_reg_self ..)
  · exact setReg_reg_self ..
  obtain ⟨rfl, rfl⟩ := Prod.mk.inj (Option.some.inj hsem)
  obtain ⟨hload, hdata, hcommand⟩ := hz.own
  change Spares z.1 (z.1.onto (z.1.complete tapeInt (i - 1) ans)) ∧
    (¬ sure → Settles i z.1 (z.1.onto (z.1.complete tapeInt (i - 1) ans))) ∧
    ∃ g', (∀ j, j ≠ i → Rely j z (z.1.onto (z.1.complete tapeInt (i - 1) ans), g')) ∧
      Q ans (z.1.onto (z.1.complete tapeInt (i - 1) ans), g')
  have hready : ans = ready →
      z.1.complete tapeInt (i - 1) ans = z.1.tapeCommand (tapeDev i) := by
    intro h
    rw [h, complete, if_pos rfl, if_neg (by decide), if_pos rfl]
    rfl
  have hread : TapeRead z.1.toHardware (z.1.complete tapeInt (i - 1) ans) (tapeDev i)
      (tapeBuffer i) := by
    by_cases h : ans = ready
    · rw [hready h]
      exact tapeRead_tapeCommand haligned hdata
    · rw [complete_of_ne _ h]
      exact tapeRead_refl
  have hinv : Inv sure tapes (z.1.onto (z.1.complete tapeInt (i - 1) ans), z.2) :=
    Inv.tapeRead hfit hz.inv hi hread
  refine ⟨fun b hb hbuffer _ => hread.ram b hb (hbuffer i hi),
    fun hsure => .of_same hfit hsure hz.inv.core hinv.core ⟨rfl, rfl, rfl⟩, z.2,
    fun j hj => rely_tapeRead hfit hi hj hread, hQ ans _ hans ⟨hinv, fun m => ?_, ?_⟩⟩
  · exact (iff_of_eq (congrArg (· = some i) (congrFun hread.holder m))).trans (hz.held m)
  · have hopcode : opcode (z.1.reg (tapeDev i) .dCommand) = readBlk := by
      rw [hcommand]
      rfl
    have hdrop : (tapes i).drop (n + 1) = ((tapes i).drop n).tail := by
      rw [List.tail_drop]
    have hhead : (tapes i)[n]? = ((tapes i).drop n).head? := by
      rw [List.head?_drop]
    have hblocks : sure → ∀ k p, k < n → (tapes i)[k]? = some p →
        (z.1.complete tapeInt (i - 1) ans).blocks 0 (pageBlock i k) = p := by
      intro hsure k p hk hp
      rw [hread.blocks]
      exact hload.loaded hsure k p hk hp
    -- what the tape has done, if transfers cannot fail
    have hdone : sure → (z.1.complete tapeInt (i - 1) ans).tape (tapeDev i) =
        (tapes i).drop (n + 1) ∧ (∀ p, (tapes i)[n]? = some p →
          (z.1.complete tapeInt (i - 1) ans).ram.page (tapeBuffer i) = p) ∧
        ((z.1.complete tapeInt (i - 1) ans).reg (tapeDev i) .dData1 = eob ↔
          (tapes i).drop (n + 1) ≠ []) := by
      intro hsure
      have htape := hload.tape hsure
      rw [hready (hans hsure), tapeCommand, if_pos hopcode, hdrop, hhead]
      cases hcase : (tapes i).drop n with
      | nil =>
        rw [hcase] at htape
        simp only [htape]
        refine ⟨htape, fun p hp => (by simp at hp), ?_⟩
        rw [setReg_reg_self]
        simp [eot, eob]
      | cons p rest =>
        rw [hcase] at htape
        simp only [htape]
        refine ⟨Function.update_self .., fun q hq => ?_, ?_⟩
        · obtain rfl : p = q := by simpa using hq
          rw [hdata]
          exact Ram.page_setPage_self
        · rw [setReg_reg_self]
          by_cases hrest : rest = []
          · simp [hrest, eot, eob]
          · simp [hrest]
    exact ⟨hload.age, fun hs => (hdone hs).1, hblocks, fun hs => (hdone hs).2.1,
      fun hs => (hdone hs).2.2⟩

/-! ## `uProcInit` -/

/-- The buffer is written to the block of the page. -/
theorem stored_of_buffered (hi : IsUser i) (hn : sure → n < 2 ^ 16)
    (hinv : Inv sure tapes (s, g)) (h : Buffered sure tapes i n (s, g)) {c : ℕ}
    (hc : c = seekCylinder ((word n <<< seekShift) ||| diskSeek)) :
    Inv sure tapes (s.onto (s.transfer writeBlk (tapeBuffer i) (pageBlock i c)), g) ∧
      Stored sure tapes i n (s.onto (s.transfer writeBlk (tapeBuffer i) (pageBlock i c)), g) ∧
      ∀ j, j ≠ i →
        Rely j (s, g) (s.onto (s.transfer writeBlk (tapeBuffer i) (pageBlock i c)), g) := by
  have hblocks := transfer_write_blocks s.toHardware (tapeBuffer i) (pageBlock i c)
  have hrely := fun j (hj : j ≠ i) => rely_write s g g (j := j) c
    (tapeBuffer i) hi.1 (fun _ _ => hj) rfl fun _ => rfl
  rw [transfer_write] at hblocks hrely ⊢
  refine ⟨⟨hinv.core.stay ⟨rfl, rfl, rfl⟩ rfl hinv.core.table.lock hinv.core.doomed (fun _ _ => rfl)
    fun j k hj hlive => ?_, hinv.coherent⟩, ⟨⟨h.age, h.tape, fun hsure k p hk hp => ?_⟩, h.marker⟩,
    hrely⟩
  · have hji : pageBlock j k ≠ pageBlock i c := by
      intro he
      obtain ⟨rfl, -⟩ := pageBlock_inj hj.1 hi.1 he
      rw [h.age] at hlive
      cases hlive
    exact (congrFun hblocks _).trans (Function.update_of_ne hji ..)
  · have hcn : c = n := hc.trans (seekCylinder_seek (hn hsure))
    refine (congrFun hblocks _).trans ?_
    by_cases hkn : k = n
    · subst hkn
      rw [hcn, Function.update_self]
      exact h.buffer hsure p hp
    · have hne : pageBlock i k ≠ pageBlock i c := fun he =>
        hkn ((pageBlock_inj hi.1 hi.1 he).2.trans hcn)
      rw [Function.update_of_ne hne]
      exact h.loaded hsure k p (by omega) hp

/-- The loop of `uProcInit`. -/
theorem runs_loadTape (hfit : PoolFits) (hi : IsUser i) {fuel : ℕ}
    (hsize : sure → (tapes i).length ≤ 2 ^ 16) (hn : sure → n < 2 ^ 16) {Q : Unit → Noted → Prop}
    (hx : Point sure tapes i [.mutexSemArray (tapeDev i)] (Loading sure tapes i n) x)
    (hQ : ∀ y, Point sure tapes i [.mutexSemArray (tapeDev i)] (fun z => z.2.age i = .fresh ∧
      (sure → z.1.Loaded tapes i (tapes i).length)) y → Q () y) :
    Prog.wpx ((outline sure tapes).spec i) (loadTape i fuel n) Q
      (fun e => (outline sure tapes).post i (.error e)) x := by
  induction fuel generalizing n x with
  | zero => exact ⟨hx.inv, fun h => h.elim⟩
  | succ fuel ih =>
    have hL : Sem.mutexSemArray backingStore ∉ [Sem.mutexSemArray (tapeDev i)] := by
      have h0 := zero_ne_tapeDev hi.1
      simpa using h0
    have hmem : Sem.mutexSemArray backingStore ∈
        [Sem.mutexSemArray backingStore, .mutexSemArray (tapeDev i)] := List.mem_cons_self
    have hbuffered : Kept i (Buffered sure tapes i n) := Buffered.kept hi
    have hstored : Kept i (Stored sure tapes i n) := Stored.kept hi
    have hseek := opcode_seek n
    obtain ⟨hblock, hcode⟩ := blockOf_loader hi.1 (hi.lt_64 hfit)
      (seekCylinder ((word n <<< seekShift) ||| diskSeek))
    simp only [loadTape, Prog.wpx_bind]
    refine runs_enableInterrupts hfit (Loading.kept hi).toSteady hx fun y hy hm => ?_
    refine runs_readTape hfit (hm rfl) hi hy fun tapeStatus y htape hy => ?_
    refine runs_enableInterrupts hfit hbuffered.toSteady hy fun y hy _ => ?_
    refine runs_passeren hfit hbuffered (by simp) hy fun y hy => ?_
    refine runs_enableInterrupts hfit hbuffered.toSteady hy fun y hy hm => ?_
    refine runs_seek hfit hbuffered hseek (hm rfl) hmem hy fun status y hstatus hy => ?_
    -- what is left of the round, once the block has been stored
    have hrest : ∀ z, Point sure tapes i
        [.mutexSemArray backingStore, .mutexSemArray (tapeDev i)] (Stored sure tapes i n) z →
        Prog.wpx ((outline sure tapes).spec i) (sup (.verhogen (.mutexSemArray backingStore)))
          (fun _ => Prog.wpx ((outline sure tapes).spec i) (sup (.readDev (tapeDev i) .dData1))
            (fun v => Prog.wpx ((outline sure tapes).spec i)
              (if tapeStatus = ready ∧ ¬ v ≠ eob then loadTape i fuel ((n : ℤ) + 1) else pure ()) Q
              (fun e => (outline sure tapes).post i (.error e)))
            (fun e => (outline sure tapes).post i (.error e)))
          (fun e => (outline sure tapes).post i (.error e)) z := by
      intro z hz
      refine runs_verhogen hfit hstored (by simp) (by simp) hL hz fun z hz => ?_
      refine runs_read hfit hstored.toSteady (fun s => s.reg (tapeDev i) .dData1)
        (fun _ _ => rfl) hz
        fun z hz => ?_
      by_cases hmore : tapeStatus = ready ∧ ¬ z.1.reg (tapeDev i) .dData1 ≠ eob
      · rw [if_pos hmore]
        have hcast : ((n : ℤ) + 1) = ((n + 1 : ℕ) : ℤ) := by omega
        rw [hcast]
        refine ih (fun hsure => ?_) (hz.imp fun h => h.toLoading)
        have hleft := (hz.own.marker hsure).mp (not_not.mp hmore.2)
        have hlt : n + 1 < (tapes i).length := by
          by_contra hge
          exact hleft (List.drop_eq_nil_of_le (by omega))
        have := hsize hsure
        omega
      · rw [if_neg hmore]
        refine hQ z (hz.imp fun h => ⟨h.age, fun hsure k p hk hp => ?_⟩)
        have hlast : (tapes i).drop (n + 1) = [] := by
          by_contra hleft
          exact hmore ⟨htape hsure, not_not.mpr ((h.marker hsure).mpr hleft)⟩
        have hle := List.drop_eq_nil_iff.mp hlast
        exact h.loaded hsure k p (by omega) hp
    have hsteady : Steady i fun z => Buffered sure tapes i n z ∧ (status = ready →
        Armed i (seekCylinder ((word n <<< seekShift) ||| diskSeek)) z) :=
      hbuffered.toSteady.and (.imp fun _ => Armed.steady i _)
    refine runs_enableInterrupts hfit hsteady hy fun y hy _ => ?_
    by_cases hready : status = ready
    · rw [if_pos hready]
      simp only [Prog.wpx_bind]
      refine runs_enableInterrupts hfit (hbuffered.toSteady.and (Armed.steady i _))
        (hy.imp fun h => ⟨h.1, h.2 hready⟩) fun y hy hm => ?_
      refine runs_transfer hfit hbuffered (C := Stored sure tapes i n) (hm rfl) hmem hy
        (fun hno z h => ?_) (fun z hinv _ h hdata hcommand harm => ?_) fun _ z _ hz => ?_
      · exact ⟨⟨h.age, fun hs => absurd hs hno, fun hs => absurd hs hno⟩, fun hs => absurd hs hno⟩
      · rw [complete_transfer (.inr rfl) hcode hblock hdata hcommand harm]
        obtain ⟨hinv', hst, hrely⟩ := stored_of_buffered hi hn hinv h rfl
        exact ⟨z.2, hinv', hst, .of_ram (transfer_write_ram ..), hrely⟩
      · refine runs_enableInterrupts hfit hstored.toSteady hz fun z hz _ => hrest z hz
    · have hno : ¬ sure := fun h => hready (hstatus h)
      rw [if_neg hready, Prog.wpx_pure]
      refine hrest y (hy.imp fun h => ?_)
      exact ⟨⟨h.1.age, fun hs => absurd hs hno, fun hs => absurd hs hno⟩, fun hs => absurd hs hno⟩

/-- A process has another age. -/
theorem rely_grow {j : ℤ} (hj : j ≠ i) (a : Age) : Rely j (s, g) (s, g.grow i a) :=
  { Rely.refl j (s, g) with
    age := Record.age_grow_of_ne hj }

/-- A round of the loop that sets up the areas. -/
theorem runs_setUpTrap (hfit : PoolFits) {B : Noted → Prop} (hB : Steady i B) (pc : Handler → Word)
    (type : TrapType) {Q : Unit → Noted → Prop} (hx : Point sure tapes i L B x)
    (hQ : ∀ y, Point sure tapes i L B y → Q () y) :
    Prog.wpx ((outline sure tapes).spec i) (setUpTrap pc i type) Q E x := by
  simp only [setUpTrap, Prog.wpx_bind]
  refine runs_read hfit hB (fun _ => ()) (fun _ _ => rfl) hx fun y hy => ?_
  refine runs_read hfit hB (fun _ => ()) (fun _ _ => rfl) hy fun y hy => ?_
  refine runs_read hfit hB (fun _ => ()) (fun _ _ => rfl) hy fun y hy => ?_
  refine runs_read hfit hB (fun _ => ()) (fun _ _ => rfl) hy fun y hy => ?_
  refine runs_read hfit hB (fun _ => ()) (fun _ _ => rfl) hy fun y hy => ?_
  exact runs_read hfit hB (fun _ => ()) (fun _ _ => rfl) hy hQ

/-- `uProcInit` -/
theorem runs_uProcInit (hfit : PoolFits) (hi : IsUser i) (pc : Handler → Word) {fuel : ℕ}
    (hsize : sure → (tapes i).length ≤ 2 ^ 16) {Q : Unit → Noted → Prop}
    (hx : Point sure tapes i [] (Loading sure tapes i 0) x) :
    Prog.wpx ((outline sure tapes).spec i) (uProcInit pc fuel) Q
      (fun e => (outline sure tapes).post i (.error e)) x := by
  have h1 := hi.1
  have hkept : Kept i (Loading sure tapes i 0) := Loading.kept hi
  have hdone : Kept i fun z : Noted => z.2.age i = .fresh ∧
      (sure → z.1.Loaded tapes i (tapes i).length) := {
    rely := fun h hr => ⟨hr.age.trans h.1, fun hsure k p hk hp =>
      (hr.fresh hi h.1 k).trans (h.2 hsure k p hk hp)⟩
    status := fun _ h => h
    hold := fun _ _ h => h
    reg := fun _ _ h => h
    arm := fun _ h => h }
  simp only [uProcInit, Prog.wpx_bind]
  refine runs_read hfit hkept.toSteady (fun _ => word i <<< asidShift) (fun _ _ => rfl) hx
    fun y hy => ?_
  rw [asid_word (by omega) (hi.lt_64 hfit)]
  refine runs_setUpTrap hfit hkept.toSteady pc _ hy fun y hy => ?_
  refine runs_setUpTrap hfit hkept.toSteady pc _ hy fun y hy => ?_
  refine runs_setUpTrap hfit hkept.toSteady pc _ hy fun y hy => ?_
  refine runs_passeren hfit hkept (by simp) hy fun y hy => ?_
  refine runs_loadTape (n := 0) hfit hi hsize (by omega) hy fun y hy => ?_
  refine runs_verhogen hfit hdone (by simp) (by simp) (by simp) hy fun y hy => ?_
  refine runs_op rfl hdone.toSteady hy fun y hy ans st s' _ _ hsem => ?_
  obtain ⟨-, rfl⟩ := Prod.mk.inj (Option.some.inj hsem)
  -- now the process runs
  have hcore : Core sure tapes (y.1, y.2.grow i .live) := hy.inv.core.wake hi hy.own.1 hy.own.2
  refine ⟨fun hsure => .of_same hfit hsure hy.inv.core hcore ⟨rfl, rfl, rfl⟩, y.2.grow i .live,
    fun j hj => rely_grow hj _, ⟨hcore, hy.inv.coherent⟩, fun _ => ⟨hi, ?_, fun m hm => ?_⟩⟩
  · exact Record.age_grow_self
  · exact absurd ((hy.held m).mp hm) (by simp)

end

end Paging

end Jaeos
