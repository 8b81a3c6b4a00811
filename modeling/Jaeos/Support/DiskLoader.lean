import Jaeos.Support.DiskRequests

/-!
# Tapes among disk requests

`uProcInit` while other processes use the disks: each block of the tape goes through the buffer of
the tape to the backing store.
-/

namespace Jaeos

namespace Disks

open Hardware

/-! ## What the owner of a tape knows -/

/-- What a process knows of its tape, the registers of the device and its blocks of the backing
store. -/
def OwnsTape (i : ℤ) (P : List Page → (DevField → Word) → Page → (ℕ → Page) → Prop)
    (s : Disks) : Prop :=
  s.holder (.mutexSemArray (tapeDev i)) = some i ∧
    P (s.tape (tapeDev i)) (s.reg (tapeDev i)) (s.ram.page (tapeBuffer i))
      fun k => s.blocks 0 (pageBlock i k)

/-- So many blocks are on the backing store, and the others are on the tape. -/
def Loading (tape : List Page) (n : ℕ) (rest : List Page) (_ : DevField → Word) (_ : Page)
    (stored : ℕ → Page) : Prop :=
  rest = tape.drop n ∧ ∀ k p, k < n → tape[k]? = some p → stored k = p

/-- The next block is in the buffer, and the marker says whether there are more. -/
structure Buffered (tape : List Page) (n : ℕ) (rest : List Page) (reg : DevField → Word)
    (page : Page) (stored : ℕ → Page) : Prop where
  /-- the tape -/
  rest : rest = tape.drop (n + 1)
  /-- the backing store -/
  stored : ∀ k p, k < n → tape[k]? = some p → stored k = p
  /-- the buffer -/
  page : ∀ p, tape[n]? = some p → page = p
  /-- the marker -/
  marker : reg .dData1 = eob ↔ tape.drop (n + 1) ≠ []

/-- That block is on the backing store, too. -/
structure Stored (tape : List Page) (n : ℕ) (rest : List Page) (reg : DevField → Word)
    (page : Page) (stored : ℕ → Page) : Prop where
  /-- the blocks -/
  loading : Loading tape (n + 1) rest reg page stored
  /-- the marker -/
  marker : reg .dData1 = eob ↔ tape.drop (n + 1) ≠ []

section

variable {i : ℤ} {s : Disks} {P : List Page → (DevField → Word) → Page → (ℕ → Page) → Prop}

theorem OwnsTape.kept (h1 : 1 ≤ i) (h8 : i ≤ 8) : Kept i 0 (OwnsTape i P) where
  steady s s' h hr := by
    obtain ⟨hd, hP⟩ := h
    have hdev := tapeDev_eq i
    obtain ⟨hreg, -⟩ := hr.device _ hd
    have hpage := hr.buffer (tapeDev i) (by omega) (by omega) hd
    rw [buffer_tapeDev h1] at hpage
    refine ⟨(hr.holder _).mp hd, ?_⟩
    rw [hr.tape h1, hreg, hpage, funext (hr.backing h1)]
    exact hP
  reg {s} f v h := by
    refine ⟨h.1, ?_⟩
    rw [show (s.onto (s.setReg 0 f v)).reg (tapeDev i) = s.reg (tapeDev i) from
      Paging.reg_setReg_disk h1]
    exact h.2
  arm _ h := h

/-- P and V on the mutex of the backing store. -/
theorem OwnsTape.take (h1 : 1 ≤ i) (h : OwnsTape i P s) :
    OwnsTape i P (s.take i (.mutexSemArray backingStore)) := by
  have hne : Sem.mutexSemArray (tapeDev i) ≠ .mutexSemArray backingStore := by
    simpa using (Paging.zero_ne_tapeDev h1).symm
  exact ⟨(Function.update_of_ne hne ..).trans h.1, h.2⟩

theorem OwnsTape.release (h1 : 1 ≤ i) (h : OwnsTape i P s) :
    OwnsTape i P (s.onto (s.hold (.mutexSemArray backingStore) none)) := by
  have hne : Sem.mutexSemArray (tapeDev i) ≠ .mutexSemArray backingStore := by
    simpa using (Paging.zero_ne_tapeDev h1).symm
  exact ⟨(Function.update_of_ne hne ..).trans h.1, h.2⟩

end

section

variable [Support] {blocks : ℤ → Block → Page} {tapes : ℤ → List Page} {i : ℤ} {L : List Sem}
  {x : Disks × Unit} {s : Disks} {E : End → Disks × Unit → Prop} {tape : List Page} {n : ℕ}

/-! ## Reading the tape -/

omit [Support] in
theorem rely_tapeRead {h : Hardware} {j : ℤ} (h1 : 1 ≤ i) (h8 : i ≤ 8) (hj : j ≠ i)
    (hsole : Sole (tapeDev i) s) (hd : s.holder (.mutexSemArray (tapeDev i)) = some i)
    (hread : TapeRead s.toHardware h (tapeDev i) (tapeBuffer i)) : Rely j s (s.onto h) where
  holder m := iff_of_eq (congrArg (· = some j) (congrFun hread.holder m).symm)
  old := congrFun hread.old j
  device d hd' := by
    have hne := ne_of_holders hd hj hd'
    exact ⟨hread.reg d hne, congrFun hread.arm d, congrFun hread.blocks d, rfl⟩
  buffer d hd1 hd15 hd' := by
    have hdev := tapeDev_eq i
    refine hread.ram _ (buffer_aligned hd1 hd15) ?_
    rw [← buffer_tapeDev h1]
    exact hsole.buffer_ne (by omega) (by omega) hd hd1 hd15 hd' hj
  backing _ _ := congrFun (congrFun hread.blocks 0) _
  tape _ := hread.tape _ fun he => hj (Paging.tapeDev_inj he)

/-- A process sets a register of its tape. -/
theorem runs_writeTape {f : DevField} {v : Word} {Q : Unit → Disks × Unit → Prop}
    (hL : .mutexSemArray (tapeDev i) ∈ L) (hx : Point blocks i L (OwnsTape i (Loading tape n)) x.1)
    (hQ : Point blocks i L (OwnsTape i (Loading tape n))
        (x.1.onto (x.1.setReg (tapeDev i) f v)) →
      Q () (x.1.onto (x.1.setReg (tapeDev i) f v), ())) :
    Prog.wpx ((outline blocks tapes).spec i) (sup (.writeDev (tapeDev i) f v)) Q E x := by
  have hd := (hx.held _).mpr hL
  refine runs_now rfl fun ans b s' _ _ hsem => ?_
  obtain ⟨-, rfl⟩ := Prod.mk.inj (Option.some.inj hsem)
  exact ⟨trivial, fun _ _ _ => rfl, fun j hj => rely_setReg hd hj f v,
    hQ ⟨hx.inv.of_hardware rfl fun _ _ _ _ => rfl, hx.held, hx.own⟩⟩

omit [Support] in
/-- What a tape does that is told to read. -/
theorem buffered_of_loading (h : OwnsTape i (Loading tape n) s)
    (hdata : s.reg (tapeDev i) .dData0 = tapeBuffer i)
    (hcommand : s.reg (tapeDev i) .dCommand = readBlk)
    (hread : TapeRead s.toHardware (s.tapeCommand (tapeDev i)) (tapeDev i) (tapeBuffer i)) :
    OwnsTape i (Buffered tape n) (s.onto (s.tapeCommand (tapeDev i))) := by
  obtain ⟨hd, hrest, hstored⟩ := h
  have hopcode : opcode (s.reg (tapeDev i) .dCommand) = readBlk := by
    rw [hcommand]
    rfl
  have hdrop : tape.drop (n + 1) = (tape.drop n).tail := by
    rw [List.tail_drop]
  have hhead : tape[n]? = (tape.drop n).head? := by
    rw [List.head?_drop]
  have hdone : (s.tapeCommand (tapeDev i)).tape (tapeDev i) = tape.drop (n + 1) ∧
      (∀ p, tape[n]? = some p →
        (s.tapeCommand (tapeDev i)).ram.page (tapeBuffer i) = p) ∧
      ((s.tapeCommand (tapeDev i)).reg (tapeDev i) .dData1 = eob ↔
        tape.drop (n + 1) ≠ []) := by
    rw [tapeCommand, if_pos hopcode, hdrop, hhead]
    cases hcase : tape.drop n with
    | nil =>
      rw [hcase] at hrest
      simp only [hrest]
      refine ⟨hrest, fun p hp => (by simp at hp), ?_⟩
      rw [setReg_reg_self]
      simp [eot, eob]
    | cons p rest =>
      rw [hcase] at hrest
      simp only [hrest]
      refine ⟨Function.update_self .., fun q hq => ?_, ?_⟩
      · obtain rfl : p = q := by simpa using hq
        rw [hdata]
        exact Ram.page_setPage_self
      · rw [setReg_reg_self]
        by_cases hr : rest = []
        · simp [hr, eot, eob]
        · simp [hr]
  refine ⟨(congrFun hread.holder _).trans hd, hdone.1, fun k p hk hp => ?_, hdone.2.1, hdone.2.2⟩
  change (s.tapeCommand (tapeDev i)).blocks 0 _ = p
  rw [hread.blocks]
  exact hstored k p hk hp

/-- The next block is read into the buffer. -/
theorem runs_readTape {Q : Word → Disks × Unit → Prop} (h1 : 1 ≤ i) (h8 : i ≤ 8)
    (hL : .mutexSemArray (tapeDev i) ∈ L) (hx : Point blocks i L (OwnsTape i (Loading tape n)) x.1)
    (hQ : ∀ y, Point blocks i L (OwnsTape i (Buffered tape n)) y → Q ready (y, ())) :
    Prog.wpx ((outline blocks tapes).spec i)
      (sup (.writeDev (tapeDev i) .dData0 (tapeBuffer i)))
      (fun _ => Prog.wpx ((outline blocks tapes).spec i)
        (sup (.writeDev (tapeDev i) .dCommand readBlk)) (fun _ =>
          Prog.wpx ((outline blocks tapes).spec i) (sup (.waitForIo tapeInt (i - 1) 0)) Q E) E)
      E x := by
  have hd := (hx.held _).mpr hL
  refine runs_writeTape hL hx fun hy => runs_writeTape hL hy fun hz => ?_
  let P : (DevField → Word) → ℕ → Prop := fun reg _ =>
    reg .dData0 = tapeBuffer i ∧ reg .dCommand = readBlk
  refine runs_op ((OwnsTape.kept h1 h8).steady.and (Told.steady (d := tapeDev i) (P := P)))
    (hz.imp fun hown => ⟨hown, hd, ?_, setReg_reg_self ..⟩) fun s hs ans b s' hans halone hsem => ?_
  · exact (setReg_reg_of_ne _ _ (by decide)).trans (setReg_reg_self ..)
  obtain ⟨rfl, rfl⟩ := Prod.mk.inj (Option.some.inj hsem)
  obtain ⟨hown, hd, hdata, hcommand⟩ := hs.own
  obtain rfl : ans = ready := hans
  have hcomplete : s.complete tapeInt (i - 1) ready = s.tapeCommand (tapeDev i) := by
    rw [complete, if_pos rfl, if_neg (by decide), if_pos rfl]
    rfl
  have hread : TapeRead s.toHardware (s.tapeCommand (tapeDev i)) (tapeDev i) (tapeBuffer i) :=
    tapeRead_tapeCommand (tapeBuffer_aligned h1 (by omega)) hdata
  change Exact s.put blocks i s Word _ ∧
    LeavesSpare s (s.onto (s.complete tapeInt (i - 1) ready)) ∧
    (∀ j, j ≠ i → Rely j s (s.onto (s.complete tapeInt (i - 1) ready))) ∧
      Q ready (s.onto (s.complete tapeInt (i - 1) ready), ())
  rw [hcomplete]
  have hdev := tapeDev_eq i
  have hbuffer := buffer_tapeDev h1
  refine ⟨fun _ hline => absurd hline (by decide), fun b hb hne => hread.ram b hb.aligned
      fun he => hne (tapeDev i) (by omega) (by omega) (he.trans hbuffer.symm),
    fun j hj => rely_tapeRead h1 h8 hj (sole_tape h1 h8 (halone.2 rfl)) hd hread,
    hQ _ ⟨?_, fun m => ?_, ?_⟩⟩
  · exact hs.inv.of_hardware hread.holder fun d _ _ _ => congrFun hread.blocks d
  · exact (iff_of_eq (congrArg (· = some i) (congrFun hread.holder m))).trans (hs.held m)
  · exact buffered_of_loading hown hdata hcommand hread

/-! ## `uProcInit` -/

omit [Support] in
/-- The buffer is written to the block of the page. -/
theorem transfers_tape (h1 : 1 ≤ i) (h8 : i ≤ 8) (hn : n < 2 ^ 16) :
    Transfers blocks i 0 (OwnsTape i (Buffered tape n)) (OwnsTape i (Stored tape n))
      (tapeBuffer i) ((word (i - 1) <<< sectorShift) ||| writeBlk)
      (seekCylinder ((word n <<< seekShift) ||| diskSeek)) := by
  rintro s hinv hd ⟨htape, hbuf⟩ hdata hcommand harm -
  obtain ⟨hblock, hcode⟩ := blockOf_loader h1 (by omega)
    (seekCylinder ((word n <<< seekShift) ||| diskSeek))
  have hat : s.block 0 = pageBlock i n := by
    rw [block, hcommand, harm, hblock, seekCylinder_seek hn]
  have hwrite : s.complete diskInt 0 ready = { s.toHardware with
      blocks := Function.update s.blocks 0
        (Function.update (s.blocks 0) (pageBlock i n) (s.ram.page (tapeBuffer i))) } := by
    rw [complete_write (by rw [hcommand, hcode]), hat, hdata]
  rw [hwrite]
  refine ⟨fun _ _ h0 => by omega, fun _ _ _ => rfl,
    fun j hj => rely_write hd hj (fun _ hj1 k he => ?_) _,
    hinv.of_hardware rfl fun d hd1 _ _ => ?_, htape, ⟨hbuf.rest, fun k p hk hp => ?_⟩, hbuf.marker⟩
  · exact hj (pageBlock_inj hj1 h1 he).1
  · have h0 : d ≠ 0 := by omega
    exact Function.update_of_ne h0 ..
  · let written := Function.update (s.blocks 0) (pageBlock i n) (s.ram.page (tapeBuffer i))
    change Function.update s.blocks 0 written 0 (pageBlock i k) = p
    rw [Function.update_self]
    change Function.update (s.blocks 0) _ _ _ = p
    by_cases hkn : k = n
    · subst hkn
      rw [Function.update_self]
      exact hbuf.page p hp
    · rw [Function.update_of_ne fun he => hkn (pageBlock_inj h1 h1 he).2]
      exact hbuf.stored k p (by omega) hp

/-- The loop of `uProcInit`. -/
theorem runs_loadTape (h1 : 1 ≤ i) (h8 : i ≤ 8) {fuel : ℕ} (hsize : tape.length ≤ 2 ^ 16)
    (hn : n < 2 ^ 16) {Q : Unit → Disks × Unit → Prop}
    (hx : Point blocks i [.mutexSemArray (tapeDev i)] (OwnsTape i (Loading tape n)) x.1)
    (hQ : ∀ y m, tape.length ≤ m → Point blocks i [.mutexSemArray (tapeDev i)]
      (OwnsTape i (Loading tape m)) y → Q () (y, ())) :
    Prog.wpx ((outline blocks tapes).spec i) (loadTape i fuel n) Q
      (fun e => (outline blocks tapes).post i (.error e)) x := by
  induction fuel generalizing n x with
  | zero => exact ⟨hx.inv, fun h => h.elim⟩
  | succ fuel ih =>
    have hL : Sem.mutexSemArray backingStore ∉ [Sem.mutexSemArray (tapeDev i)] := by
      simpa using Paging.zero_ne_tapeDev h1
    have hmem : Sem.mutexSemArray 0 ∈
        [Sem.mutexSemArray backingStore, .mutexSemArray (tapeDev i)] := List.mem_cons_self
    have hkept : ∀ P, Kept i 0 (OwnsTape i P) := fun P => OwnsTape.kept h1 h8
    have harmed : Steady i fun s => OwnsTape i (Buffered tape n) s ∧ Told i 0 (fun _ arm =>
        arm = seekCylinder ((word n <<< seekShift) ||| diskSeek)) s :=
      (hkept _).steady.and Told.steady
    simp only [loadTape, Prog.wpx_bind]
    refine runs_enableInterrupts (hkept _).steady hx fun y hy => ?_
    refine runs_readTape h1 h8 List.mem_cons_self hy fun y hy => ?_
    refine runs_enableInterrupts (hkept _).steady hy fun y hy => ?_
    refine runs_passeren (hkept _).steady hy fun y hy _ _ hinv hheld => ?_
    refine runs_enableInterrupts (hkept _).steady ⟨hinv, hheld, hy.own.take h1⟩ fun y hy => ?_
    refine runs_seek (hkept _) (opcode_seek n) hmem hy fun y hy => ?_
    refine runs_enableInterrupts harmed hy fun y hy => ?_
    rw [if_pos rfl]
    simp only [Prog.wpx_bind]
    refine runs_enableInterrupts harmed hy fun y hy => ?_
    refine runs_transfer (hkept _) hmem hy (transfers_tape h1 h8 hn) fun y hy => ?_
    refine runs_enableInterrupts (hkept _).steady hy fun y hy => ?_
    refine runs_verhogen (C := OwnsTape i (Stored tape n)) (hkept _).steady (by simp) hL hy
      (fun _ d hd hd1 => ?_) (fun h => h.release h1) fun y hy => ?_
    · have h0 : (0 : ℤ) = d := Sem.mutexSemArray.inj hd
      omega
    refine runs_read (hkept _).steady (fun _ => trivial) (fun s => s.reg (tapeDev i) .dData1)
      (fun _ _ => rfl) hy fun y hy => ?_
    obtain ⟨-, hload, hmarker⟩ := hy.own
    by_cases hmore : True ∧ ¬ y.reg (tapeDev i) .dData1 ≠ eob
    · rw [if_pos hmore]
      have hleft := hmarker.mp (not_not.mp hmore.2)
      have hlt : n + 1 < tape.length := by
        by_contra hge
        exact hleft (List.drop_eq_nil_of_le (by omega))
      have hcast : ((n : ℤ) + 1) = ((n + 1 : ℕ) : ℤ) := by omega
      rw [hcast]
      exact ih (by omega) (hy.imp fun h => ⟨h.1, h.2.loading⟩)
    · rw [if_neg hmore]
      have hlast : tape.drop (n + 1) = [] := by
        by_contra hleft
        exact hmore ⟨trivial, not_not.mpr (hmarker.mpr hleft)⟩
      exact hQ y (n + 1) (List.drop_eq_nil_iff.mp hlast) (hy.imp fun h => ⟨h.1, h.2.loading⟩)

/-- A round of the loop that sets up the areas. -/
theorem runs_setUpTrap {B : Disks → Prop} (hB : Steady i B) (pc : Handler → Word)
    (type : TrapType) {Q : Unit → Disks × Unit → Prop} (hx : Point blocks i L B x.1)
    (hQ : ∀ y, Point blocks i L B y → Q () (y, ())) :
    Prog.wpx ((outline blocks tapes).spec i) (setUpTrap pc i type) Q E x := by
  simp only [setUpTrap, Prog.wpx_bind]
  refine runs_read hB (fun _ => trivial) (fun _ => ()) (fun _ _ => rfl) hx fun y hy => ?_
  refine runs_read hB (fun _ => trivial) (fun _ => ()) (fun _ _ => rfl) hy fun y hy => ?_
  refine runs_read hB (fun _ => trivial) (fun _ => ()) (fun _ _ => rfl) hy fun y hy => ?_
  refine runs_read hB (fun _ => trivial) (fun _ => ()) (fun _ _ => rfl) hy fun y hy => ?_
  refine runs_read hB (fun _ => trivial) (fun _ => ()) (fun _ _ => rfl) hy fun y hy => ?_
  exact runs_read hB (fun _ => trivial) (fun _ => ()) (fun _ _ => rfl) hy hQ

/-- `uProcInit` -/
theorem runs_uProcInit (h1 : 1 ≤ i) (h8 : i ≤ 8) (pc : Handler → Word) {fuel : ℕ}
    (hsize : (tapes i).length ≤ 2 ^ 16) {Q : Unit → Disks × Unit → Prop}
    (hend : ∀ st y, Point blocks i [] (HasTape tapes i) y →
      (outline blocks tapes).post i (.error (.start st)) (y, ()))
    (hx : Point blocks i [] (fun s => s.tape (tapeDev i) = tapes i) x.1) :
    Prog.wpx ((outline blocks tapes).spec i) (uProcInit pc fuel) Q
      (fun e => (outline blocks tapes).post i (.error e)) x := by
  have hsteady : Steady i fun s => s.tape (tapeDev i) = tapes i :=
    fun _ _ h hr => (hr.tape h1).trans h
  simp only [uProcInit, Prog.wpx_bind]
  refine runs_read hsteady (fun _ => trivial) (fun _ => word i <<< asidShift) (fun _ _ => rfl) hx
    fun y hy => ?_
  rw [asid_word (by omega) (by omega)]
  refine runs_setUpTrap hsteady pc _ hy fun y hy => ?_
  refine runs_setUpTrap hsteady pc _ hy fun y hy => ?_
  refine runs_setUpTrap hsteady pc _ hy fun y hy => ?_
  refine runs_passeren hsteady hy fun y hy _ _ hinv hheld => ?_
  have hload : Point blocks i [.mutexSemArray (tapeDev i)] (OwnsTape i (Loading (tapes i) 0))
      (y.take i (.mutexSemArray (tapeDev i))) := by
    refine ⟨hinv, hheld, (hheld _).mpr List.mem_cons_self, ?_, fun k p hk => by omega⟩
    rw [List.drop_zero]
    exact hy.own
  refine runs_loadTape (n := 0) h1 h8 hsize (by decide) hload
    fun y m hm hy => ?_
  have hall : Point blocks i [.mutexSemArray (tapeDev i)] (HasTape tapes i) y := by
    refine hy.imp fun h k p hp => h.2.2 k p ?_ hp
    have hlt := (List.getElem?_eq_some_iff.mp hp).1
    omega
  have hkept : Steady i (HasTape tapes i) := HasTape.steady h1
  refine runs_verhogen (C := HasTape tapes i) hkept (by simp) (by simp) hall
    (fun _ d hd hd1 hd7 => ?_) id fun y hy => ?_
  · have hdev : tapeDev i = d := Sem.mutexSemArray.inj hd
    rw [tapeDev_eq] at hdev
    omega
  refine runs_same hkept (fun _ => trivial) (fun ans s b s' hsem => ?_) hy fun st y hy =>
    hend _ y hy
  obtain ⟨-, rfl⟩ := Prod.mk.inj (Option.some.inj hsem)
  exact same_refl s

end

end Disks

end Jaeos
