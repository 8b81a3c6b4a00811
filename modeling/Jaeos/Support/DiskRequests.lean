import Jaeos.Support.DiskTransfers

/-!
# SYS14 and SYS15 among other processes

`diskIo` keeps the sectors of its disk right: SYS14 writes the page it was given, and SYS15 copies
to the page what the sector has. A call with an address of the kernel ends its process.
-/

namespace Jaeos

namespace Disks

open Hardware

/-! ## What a process knows about its call -/

/-- The registers of the call. -/
structure Asked (q : Request) (old : TrapType → Fin stateRegNum → Word) : Prop where
  /-- the number -/
  number : old .sysTrap sA1 = q.number
  /-- the page -/
  address : old .sysTrap sA2 = q.address
  /-- the disk -/
  diskNo : old .sysTrap sA3 = q.diskNo
  /-- the sector -/
  sectNo : old .sysTrap sA4 = q.sectNo

/-- The sectors of a disk that satisfy `N` are as they should be. -/
def Sound (first : Block → Page) (N : Word → Prop) (blocks : Block → Page)
    (put : Word → Option Page) : Prop :=
  ∀ n : Word, n.toNat < 2 ^ 20 → N n →
    blocks (sectorBlock n) = (put n).getD (first (sectorBlock n))

theorem sectorBlock_inj {n n' : Word} (h : sectorBlock n = sectorBlock n') : n = n' := by
  simp only [sectorBlock, Block.mk.injEq] at h
  apply BitVec.eq_of_toNat_eq
  omega

/-- SYS14 is filling the buffer. -/
structure Filling (first : Block → Page) (q : Request) (p : Page)
    (old : TrapType → Fin stateRegNum → Word) (blocks : Block → Page) (put : Word → Option Page)
    (_ : Page) : Prop where
  /-- the call -/
  asked : Asked q old
  /-- the other sectors -/
  sound : Sound first (· ≠ q.sectNo) blocks put
  /-- what is to be written -/
  put : put q.sectNo = some p

/-- SYS14 has filled the buffer with the page. -/
structure Putting (first : Block → Page) (q : Request) (p : Page)
    (old : TrapType → Fin stateRegNum → Word) (blocks : Block → Page) (put : Word → Option Page)
    (page : Page) : Prop extends Filling first q p old blocks put page where
  /-- the buffer -/
  page : page = p

/-- The call is served but for the copying, or has yet to be. -/
structure Served (first : Block → Page) (q : Request) (old : TrapType → Fin stateRegNum → Word)
    (blocks : Block → Page) (put : Word → Option Page) (_ : Page) : Prop where
  /-- the call -/
  asked : Asked q old
  /-- all sectors -/
  sound : Sound first (fun _ => True) blocks put

/-- SYS15 has the sector in the buffer. -/
structure Getting (first : Block → Page) (q : Request) (old : TrapType → Fin stateRegNum → Word)
    (blocks : Block → Page) (put : Word → Option Page) (page : Page) : Prop
    extends Served first q old blocks put page where
  /-- the buffer -/
  page : page = blocks (sectorBlock q.sectNo)

section

variable [Support] {blocks : ℤ → Block → Page} {tapes : ℤ → List Page} {i d : ℤ} {L : List Sem}
  {B C : Disks → Prop} {x : Disks × Unit} {s : Disks} {q : Request} {comm : Word}

/-! ## `virtualDeath` -/

/-- A process that does not go on in user mode need only leave the invariant. -/
theorem post_of_inv {e : End} (he : ¬ InUserMode (.error e)) (h : Inv blocks s) :
    (outline blocks tapes).post i (.error e) (s, ()) := ⟨h, fun hmode => absurd hmode he⟩

omit [Support] in
theorem steady_true : Steady i fun _ => True := fun _ _ _ _ => trivial

theorem runs_invalidateFrames {Q : Bool → Disks × Unit → Prop} (k f : ℕ) (m : Bool)
    (hx : Point blocks i L (fun _ => True) x.1)
    (hQ : ∀ b y, Point blocks i L (fun _ => True) y → Q b (y, ())) :
    Prog.wpx ((outline blocks tapes).spec i) (invalidateFrames i k f m) Q
      (fun e => (outline blocks tapes).post i (.error e)) x := by
  induction k generalizing f m x with
  | zero => exact hQ m x.1 hx
  | succ k ih =>
    simp only [invalidateFrames, Prog.wpx_bind]
    refine runs_read steady_true (fun _ => trivial) (fun s => s.swapPool f) (fun _ _ => rfl) hx
      fun y hy => ?_
    split
    · split
      · exact post_of_inv id hy.inv
      · next r _ =>
        simp only [Prog.wpx_bind]
        refine runs_read steady_true (fun _ => trivial) (fun s => s.pte r) (fun _ _ => rfl) hy
          fun y hy => ?_
        refine runs_same steady_true (fun _ => trivial) (fun ans s b s' hsem => ?_) hy
          fun _ y hy => ?_
        · obtain ⟨-, rfl⟩ := Prod.mk.inj (Option.some.inj hsem)
          exact ⟨rfl, rfl, rfl, rfl, rfl, rfl, rfl, fun _ _ => rfl⟩
        refine runs_same steady_true (fun _ => trivial) (fun ans s b s' hsem => ?_) hy
          fun _ y hy => ih _ _ hy
        obtain ⟨-, rfl⟩ := Prod.mk.inj (Option.some.inj hsem)
        exact ⟨rfl, rfl, rfl, rfl, rfl, rfl, rfl, fun _ _ => rfl⟩
    · exact ih _ _ hy

/-- `virtualDeath` -/
theorem runs_virtualDeath {α : Type} {Q : α → Disks × Unit → Prop}
    (hx : Point blocks i [] (fun _ => True) x.1) :
    Prog.wpx ((outline blocks tapes).spec i) (virtualDeath i) Q
      (fun e => (outline blocks tapes).post i (.error e)) x := by
  have hread : ∀ {o : SupOp Unit} {Q : Unit → Disks × Unit → Prop} {x : Disks × Unit} {L},
      (∀ s, Exact s.put blocks i s Unit o) →
      (∀ ans s, (sem i ans Unit o).run s = some ((), s)) → Point blocks i L (fun _ => True) x.1 →
      (∀ y, Point blocks i L (fun _ => True) y → Q () (y, ())) →
      Prog.wpx ((outline blocks tapes).spec i) (sup o) Q
        (fun e => (outline blocks tapes).post i (.error e)) x :=
    fun hexact hrun hx hQ => runs_read steady_true hexact (fun _ => ()) hrun hx hQ
  -- the end of the program
  have hend : ∀ y, Point blocks i [.swapSem] (fun _ => True) y →
      Prog.wpx ((outline blocks tapes).spec i) (enableInterrupts true)
        (fun _ => Prog.wpx ((outline blocks tapes).spec i) (sup (.verhogen .swapSem))
          (fun _ => Prog.wpx ((outline blocks tapes).spec i) (sup (.verhogen .masterSem))
            (fun _ => Prog.wpx ((outline blocks tapes).spec i) (throw .terminated) Q
              (fun e => (outline blocks tapes).post i (.error e)))
            (fun e => (outline blocks tapes).post i (.error e)))
          (fun e => (outline blocks tapes).post i (.error e)))
        (fun e => (outline blocks tapes).post i (.error e)) (y, ()) := by
    intro y hy
    refine runs_enableInterrupts steady_true hy fun y hy => ?_
    refine runs_verhogen (C := fun _ => True) steady_true (by simp) (by simp) hy
      (fun _ d hd => (by cases hd)) (fun _ => trivial) fun y hy => ?_
    exact hread (fun _ => trivial) (fun _ _ => rfl) hy fun y hy => post_of_inv id hy.inv
  simp only [virtualDeath, Prog.wpx_bind]
  refine runs_passeren steady_true hx fun s hs _ _ hinv hheld => ?_
  refine runs_enableInterrupts steady_true ⟨hinv, hheld, trivial⟩ fun y hy => ?_
  refine runs_invalidateFrames _ _ _ hy fun b y hy => ?_
  split
  · rw [Prog.wpx_bind]
    exact hread (fun _ => trivial) (fun _ _ => rfl) hy fun y hy => hend y hy
  · exact hend y hy

/-! ## Transfers -/

omit [Support] in
/-- SYS14 writes its page to the sector. -/
theorem transfers_put (h1 : 1 ≤ d) (h7 : d ≤ 7) {p : Page} {command : Word} {n : ℕ}
    (hcode : opcode command = writeBlk) (hblock : blockOf n command = sectorBlock q.sectNo) :
    Transfers blocks i d (fun s => Owns i d (Putting (blocks d) q p) s ∧ HasTape tapes i s)
      (fun s => Owns i d (Served (blocks d) q) s ∧ HasTape tapes i s) (buffer d) command n := by
  rintro s hinv hd ⟨⟨-, hput⟩, htape⟩ hdata hcommand harm -
  have hat : s.block d = sectorBlock q.sectNo := by rw [block, hcommand, harm, hblock]
  have hwrite : s.complete diskInt d ready = { s.toHardware with
      blocks := Function.update s.blocks d
        (Function.update (s.blocks d) (sectorBlock q.sectNo) (s.ram.page (buffer d))) } := by
    rw [complete_write (by rw [hcommand, hcode]), hat, hdata]
  have hsect : s.sectNo i = q.sectNo := hput.asked.sectNo
  rw [hwrite]
  refine ⟨fun _ _ _ _ => ?_, fun _ _ _ => rfl, fun j hj => rely_write hd hj (fun h0 => by omega) _,
    ?_, ⟨hd, hput.asked, fun n hn _ => ?_⟩, fun k p' hp => ?_⟩
  · rw [hsect, hput.put, hdata, hput.page]
  · refine hinv.of_hardware rfl fun d' _ _ hfree => ?_
    have hne : d' ≠ d := by
      rintro rfl
      exact absurd (hfree.symm.trans hd) (by simp)
    exact Function.update_of_ne hne ..
  · change Function.update s.blocks d _ d (sectorBlock n) = (s.put d n).getD _
    rw [Function.update_self]
    by_cases hne : n = q.sectNo
    · rw [hne, Function.update_self, hput.put, hput.page]
      rfl
    · rw [Function.update_of_ne fun he => hne (sectorBlock_inj he)]
      exact hput.sound n hn hne
  · change Function.update s.blocks d _ 0 _ = p'
    have h0 : (0 : ℤ) ≠ d := by omega
    rw [Function.update_of_ne h0]
    exact htape k p' hp

omit [Support] in
/-- SYS15 reads its sector into the buffer. -/
theorem transfers_get (h1 : 1 ≤ d) (h7 : d ≤ 7) (hq : q.number = 15) {command : Word} {n : ℕ}
    (hcode : opcode command = readBlk) (hblock : blockOf n command = sectorBlock q.sectNo) :
    Transfers blocks i d (fun s => Owns i d (Served (blocks d) q) s ∧ HasTape tapes i s)
      (fun s => Owns i d (Getting (blocks d) q) s ∧ HasTape tapes i s) (buffer d) command n := by
  rintro s hinv hd ⟨⟨-, hserved⟩, htape⟩ hdata hcommand harm halone
  have hat : s.block d = sectorBlock q.sectNo := by rw [block, hcommand, harm, hblock]
  have hread : s.complete diskInt d ready = { s.toHardware with
      ram := s.ram.setPage (buffer d) (s.blocks d (sectorBlock q.sectNo)) } := by
    rw [complete_read (by rw [hcommand, hcode]), hat, hdata]
  have hnumber : s.number i ≠ 14 := by
    rw [show s.number i = 15 from hserved.asked.number.trans hq]
    decide
  rw [hread]
  have hother : ∀ b : Word, b.Aligned → b ≠ buffer d →
      (s.ram.setPage (buffer d) (s.blocks d (sectorBlock q.sectNo))).page b = s.ram.page b :=
    fun b hb hne => Ram.page_setPage_of_ne (buffer_aligned h1 (by omega)) hb hne
  refine ⟨fun hno => absurd hno hnumber, fun b hb hne => hother b hb.aligned (hne d h1 (by omega)),
    fun j hj => ?_, hinv.of_hardware rfl fun _ _ _ _ => rfl,
    ⟨hd, ⟨hserved.asked, hserved.sound⟩, Ram.page_setPage_self⟩, htape⟩
  have hsole := sole_disk h1 h7 (halone.1 rfl h1 h7 (by rw [hcommand, hcode]))
  exact rely_ram hsole h1 (by omega) hd hj hother

/-- The seek and the transfer of `diskIo`. -/
theorem runs_diskTransfer (hB : Kept i d B) (hC : Steady i C) {diskNo sectNo : Word}
    (hdisk : diskNo.toInt = d) {Q : Word → Disks × Unit → Prop}
    {E : End → Disks × Unit → Prop} (hsect : 0 ≤ sectNo.toInt)
    (hL : .mutexSemArray d ∈ L) (hx : Point blocks i L B x.1)
    (hmove : Transfers blocks i d B C (diskBuffer diskNo) (transferCommand comm sectNo)
      (seekCylinder (seekCommand sectNo)))
    (hQ : ∀ y, Point blocks i L C y → Q ready (y, ())) :
    Prog.wpx ((outline blocks tapes).spec i) (diskTransfer diskNo (sectNo.srem 2)
      ((sectNo.sdiv 2).sdiv 8) ((sectNo.sdiv 2).srem 8) comm) Q E x := by
  obtain ⟨hseek, -⟩ := seekCommand_fields hsect
  have hcommands : ((sectNo.sdiv 2).sdiv 8 <<< seekShift) ||| diskSeek = seekCommand sectNo ∧
      (sectNo.srem 2 <<< headShift) ||| ((sectNo.sdiv 2).srem 8 <<< sectorShift) ||| comm =
        transferCommand comm sectNo := ⟨rfl, rfl⟩
  simp only [diskTransfer, Prog.wpx_bind, hcommands, hdisk]
  refine runs_enableInterrupts hB.steady hx fun y hy => ?_
  refine runs_seek hB hseek hL hy fun y hy => ?_
  have harmed : Steady i fun s => B s ∧
      Told i d (fun _ arm => arm = seekCylinder (seekCommand sectNo)) s :=
    hB.steady.and Told.steady
  refine runs_enableInterrupts harmed hy fun y hy => ?_
  rw [if_pos rfl]
  simp only [Prog.wpx_bind]
  refine runs_enableInterrupts harmed hy fun y hy => ?_
  refine runs_transfer hB hL hy hmove fun y hy => ?_
  exact runs_enableInterrupts hC hy fun y hy => hQ y hy

/-! ## `diskIo` -/

omit [Support] in
/-- A word of a buffer is written. -/
theorem store_buffer (h1 : 1 ≤ d) (h15 : d ≤ 15) (w : Fin 1024) (v : Word) :
    s.store i (wordAt (buffer d) w) v =
      s.onto { s.toHardware with ram := s.ram.store (wordAt (buffer d) w) v } :=
  if_neg ((buffer_kernel h1 h15).not_private w)

omit [Support] in
/-- SYS14 copies the page of the caller to the buffer. -/
theorem copies_put (h1 : 1 ≤ d) (h7 : d ≤ 7) (hq : q.number = 14) (ha : kUseg2Addr ≤ q.address)
    {p : Page} : Copies blocks i (Point blocks i [.mutexSemArray d] fun s =>
      (Owns i d (Filling (blocks d) q p) s ∧ HasTape tapes i s) ∧ Sole d s)
      q.address (buffer d) where
  load s w hs hno := by
    have hnumber : s.number i = 14 := hs.own.1.1.2.asked.number.trans hq
    rw [hnumber] at hno
    exact absurd hno (by decide)
  store s w v hs := by
    obtain ⟨⟨⟨hd, hfill⟩, htape⟩, hsole⟩ := hs.own
    have hother : ∀ b : Word, b.Aligned → b ≠ buffer d →
        (s.ram.store (wordAt (buffer d) w) v).page b = s.ram.page b :=
      fun b hb hne => Ram.page_store_of_ne (buffer_aligned h1 (by omega)) hb hne
    rw [store_buffer h1 (by omega)]
    exact ⟨⟨hs.inv.of_hardware rfl fun _ _ _ _ => rfl, hs.held,
      ⟨⟨hd, hfill.asked, hfill.sound, hfill.put⟩, htape⟩, hsole⟩,
      fun b hb hne => hother b hb.aligned (hne d h1 (by omega)),
      fun j hj => rely_ram hsole h1 (by omega) hd hj hother⟩
  apart v w he := (buffer_kernel h1 (by omega)).wordAt_ne ha w v he.symm

omit [Support] in
/-- SYS15 copies the buffer to the page of the caller. -/
theorem copies_get (h1 : 1 ≤ d) (h7 : d ≤ 7) (hd : q.diskNo.toInt = d)
    (ha : kUseg2Addr ≤ q.address) (hi : 1 ≤ i) :
    Copies blocks i (Point blocks i [.mutexSemArray d] fun s =>
      Owns i d (Getting (blocks d) q) s ∧ HasTape tapes i s) (buffer d) q.address where
  load s w hs _ w' he := by
    obtain ⟨⟨-, hget⟩, -⟩ := hs.own
    have hdisk : s.diskNo i = q.diskNo := hget.asked.diskNo
    have hsect : s.sectNo i = q.sectNo := hget.asked.sectNo
    subst hd
    rw [hdisk, ← buffer_disk h1 h7] at he
    obtain rfl : w = w' := wordAt_left_inj he
    have hword := congrFun ((page_buffer (s := s) (i := i) h1 (by omega)).trans hget.page) w
    rw [hdisk, hsect]
    exact hword
  store s w v hs := ⟨hs.same
      ((Owns.steady h1 (by omega)).and (HasTape.steady hi)) (same_store ha w),
    (same_store ha w).leavesSpare, fun _ _ => .of_same (same_store ha w)⟩
  apart v w := (buffer_kernel h1 (by omega)).wordAt_ne ha v w

/-- What is left of `diskIo` when its page has been copied: it reports the status. -/
theorem runs_report (h1 : 1 ≤ d) (h7 : d ≤ 7) (hi : 1 ≤ i) {L : List Sem} {status : Word}
    {Q : Unit → Disks × Unit → Prop} {E : End → Disks × Unit → Prop}
    (hx : Point blocks i (.mutexSemArray d :: L)
      (fun s => Owns i d (Served (blocks d) q) s ∧ HasTape tapes i s) s)
    (hL : .mutexSemArray d ∉ L)
    (hexact : Exact s.put blocks i s Unit (.writeOld i .sysTrap sA1 status))
    (hQ : ∀ y, Point blocks i L (HasTape tapes i) y → Q () (y, ())) :
    Prog.wpx ((outline blocks tapes).spec i) (sup (.writeOld i .sysTrap sA1 status))
      (fun _ => Prog.wpx ((outline blocks tapes).spec i)
        (sup (.verhogen (.mutexSemArray d))) Q E) E (s, ()) := by
  obtain ⟨⟨hd, hserved⟩, htape⟩ := hx.own
  -- the number of the call is lost, and only the sectors matter
  let P := fun (_ : TrapType → Fin stateRegNum → Word) bs put (_ : Page) =>
    Sound (blocks d) (fun _ => True) bs put
  have hkept : Kept i d fun s => Owns i d P s ∧ HasTape tapes i s :=
    (Owns.kept h1 (by omega)).and (HasTape.kept hi)
  refine runs_now rfl fun ans b s' _ _ hsem => ?_
  obtain ⟨-, rfl⟩ := Prod.mk.inj (Option.some.inj hsem)
  refine ⟨hexact, fun _ _ _ => rfl, fun j hj => ?_, ?_⟩
  · exact ⟨fun _ => Iff.rfl, Function.update_of_ne hj .., fun _ _ => ⟨rfl, rfl, rfl, rfl⟩,
      fun _ _ _ _ => rfl, fun _ _ => rfl, fun _ => rfl⟩
  refine runs_verhogen (C := HasTape tapes i) (L := L) hkept.steady (by simp) hL
    ⟨hx.inv.of_hardware rfl fun _ _ _ _ => rfl, hx.held, ⟨hd, hserved.sound⟩, htape⟩
    (fun {s} hs d' hd' _ _ n hn => ?_) (fun hs => hs.2) hQ
  obtain rfl : d = d' := Sem.mutexSemArray.inj hd'
  exact hs.1.2 n hn trivial

omit [Support] in
/-- The mutex protects the device and the process knows its tape. -/
theorem kept_owns (h1 : 1 ≤ d) (h7 : d ≤ 7) (hi : 1 ≤ i)
    (P : (TrapType → Fin stateRegNum → Word) → (Block → Page) → (Word → Option Page) → Page →
      Prop) :
    Kept i d fun s => Owns i d P s ∧ HasTape tapes i s :=
  (Owns.kept h1 (by omega)).and (HasTape.kept hi)

omit [Support] in
theorem steady_asked (hi : 1 ≤ i) : Steady i fun s => Asked q (s.old i) ∧ HasTape tapes i s :=
  Steady.and (fun _ _ h hr => hr.old ▸ h) (HasTape.steady hi)

/-- SYS14, once it has the mutex: the page goes into the buffer, and from there to the disk. -/
theorem runs_diskPut (hi : 1 ≤ i) (hq : q.Fits) (hdisk : q.diskNo.toInt = d)
    (hpos : 0 ≤ q.sectNo.toInt) (hnum : q.number = 14) (ha : kUseg2Addr ≤ q.address) {s : Disks}
    {Q : Unit → Disks × Unit → Prop} {E : End → Disks × Unit → Prop}
    (hs : Point blocks i [] (fun s => Asked q (s.old i) ∧ HasTape tapes i s) s)
    (hfree : s.holder (.mutexSemArray d) = none)
    (halone : FillsAlone i s Unit (.passeren (.mutexSemArray d)))
    (hinv : Inv blocks (s.take i (.mutexSemArray d)))
    (hheld : ∀ m, (s.take i (.mutexSemArray d)).holder m = some i ↔ m ∈ [.mutexSemArray d])
    (hQ : ∀ y, Point blocks i [] (HasTape tapes i) y → Q () (y, ())) :
    Prog.wpx ((outline blocks tapes).spec i) (do
      copyPage q.address (diskBuffer q.diskNo)
      let status ← diskTransfer q.diskNo (q.sectNo.srem 2) ((q.sectNo.sdiv 2).sdiv 8)
        ((q.sectNo.sdiv 2).srem 8) writeBlk
      sup (.writeOld i .sysTrap sA1 status)
      sup (.verhogen (.mutexSemArray d))) Q E (s.take i (.mutexSemArray d), ()) := by
  obtain ⟨h1, h7, hsect⟩ := hq
  have hbuffer := buffer_disk h1 h7
  rw [hdisk] at h1 h7 hbuffer
  obtain ⟨hasked, htape⟩ := hs.own
  have hright := hs.inv d h1 h7 hfree
  have hmem : Sem.mutexSemArray d ∈ [Sem.mutexSemArray d] := List.mem_cons_self
  have hkept : ∀ P, Kept i d fun s => Owns i d P s ∧ HasTape tapes i s :=
    fun P => kept_owns h1 h7 hi P
  obtain ⟨hcode, -, -⟩ := transferCommand_fields hpos (.inl rfl)
  have hput := take_put_self (d := d) (hasked.number.trans hnum)
  rw [show s.sectNo i = q.sectNo from hasked.sectNo,
    show s.address i = q.address from hasked.address] at hput
  have hsole : Sole d (s.take i (.mutexSemArray d)) := by
    refine sole_disk h1 h7 ((Function.update_of_ne ?_ ..).trans
      (halone (hasked.number.trans hnum) h1 h7))
    rw [tapeDev_eq]
    simp
    omega
  simp only [Prog.wpx_bind]
  rw [← hbuffer]
  -- the sector that is written is the page from now on, and the buffer is to hold it
  refine runs_copyPage (copies_put (p := s.page i q.address) h1 h7 hnum ha)
    ⟨hinv, hheld, ⟨⟨(hheld _).mpr hmem, hasked, fun n hn hne => ?_, ?_⟩, htape⟩, hsole⟩
    fun y hy hpage _ => ?_
  · rw [hput, Function.update_of_ne hne]
    exact hright n hn
  · rw [hput, Function.update_self]
  rw [take_page, page_buffer h1 (by omega)] at hpage
  refine runs_diskTransfer (hkept (Putting (blocks d) q (s.page i q.address)))
    (hkept (Served (blocks d) q)).steady hdisk hpos hmem
    (hy.imp fun hown => ⟨⟨hown.1.1.1, hown.1.1.2, hpage⟩, hown.1.2⟩) ?_ fun z hz => ?_
  · rw [← hbuffer]
    exact transfers_put h1 h7 hcode (blockOf_sector hsect (.inl rfl))
  refine runs_report h1 h7 hi hz (by simp) (fun hno => ?_) hQ
  rw [show z.number i = 14 from hz.own.1.2.asked.number.trans hnum] at hno
  exact absurd hno (by decide)

/-- SYS15, once it has the mutex: the sector goes into the buffer, and from there to the page. -/
theorem runs_diskGet (hi : 1 ≤ i) (hq : q.Fits) (hdisk : q.diskNo.toInt = d)
    (hpos : 0 ≤ q.sectNo.toInt) (hnum : q.number = 15) (ha : kUseg2Addr ≤ q.address) {s : Disks}
    {Q : Unit → Disks × Unit → Prop} {E : End → Disks × Unit → Prop}
    (hs : Point blocks i [] (fun s => Asked q (s.old i) ∧ HasTape tapes i s) s)
    (hfree : s.holder (.mutexSemArray d) = none)
    (hinv : Inv blocks (s.take i (.mutexSemArray d)))
    (hheld : ∀ m, (s.take i (.mutexSemArray d)).holder m = some i ↔ m ∈ [.mutexSemArray d])
    (hQ : ∀ y, Point blocks i [] (HasTape tapes i) y → Q () (y, ())) :
    Prog.wpx ((outline blocks tapes).spec i) (do
      let status ← diskTransfer q.diskNo (q.sectNo.srem 2) ((q.sectNo.sdiv 2).sdiv 8)
        ((q.sectNo.sdiv 2).srem 8) readBlk
      copyPage (diskBuffer q.diskNo) q.address
      sup (.writeOld i .sysTrap sA1 status)
      sup (.verhogen (.mutexSemArray d))) Q E (s.take i (.mutexSemArray d), ()) := by
  obtain ⟨h1, h7, hsect⟩ := hq
  have hbuffer := buffer_disk h1 h7
  rw [hdisk] at h1 h7 hbuffer
  obtain ⟨hasked, htape⟩ := hs.own
  have hright := hs.inv d h1 h7 hfree
  have hmem : Sem.mutexSemArray d ∈ [Sem.mutexSemArray d] := List.mem_cons_self
  have hkept : ∀ P, Kept i d fun s => Owns i d P s ∧ HasTape tapes i s :=
    fun P => kept_owns h1 h7 hi P
  obtain ⟨hcode, -, -⟩ := transferCommand_fields hpos (.inr rfl)
  have hheld' := (hheld _).mpr hmem
  have hne : s.number i ≠ 14 := by
    rw [show s.number i = 15 from hasked.number.trans hnum]
    decide
  rw [take_of_number hne] at hinv hheld hheld' ⊢
  simp only [Prog.wpx_bind]
  rw [← hbuffer]
  refine runs_diskTransfer (hkept (Served (blocks d) q))
    (hkept (Getting (blocks d) q)).steady hdisk hpos hmem
    ⟨hinv, hheld, ⟨hheld', hasked, fun n hn _ => hright n hn⟩, htape⟩ ?_ fun y hy => ?_
  · rw [← hbuffer]
    exact transfers_get h1 h7 hnum hcode (blockOf_sector hsect (.inr rfl))
  refine runs_copyPage (copies_get h1 h7 hdisk ha hi) hy fun z hz hpage hsame => ?_
  have hget := hz.own.1.2
  refine runs_report h1 h7 hi (hz.imp fun hown => ⟨⟨hown.1.1, hown.1.2.toServed⟩, hown.2⟩)
    (by simp) (fun _ => ?_) hQ
  rw [show z.address i = q.address from hget.asked.address,
    show z.diskNo i = q.diskNo from hget.asked.diskNo,
    show z.sectNo i = q.sectNo from hget.asked.sectNo, hdisk]
  refine ⟨hz.own.1.1, ?_⟩
  calc z.page i q.address = z.page i (buffer d) := hpage.trans hsame.symm
    _ = z.blocks d (sectorBlock q.sectNo) := (page_buffer h1 (by omega)).trans hget.page
    _ = _ := hget.sound _ hsect trivial

/-- `diskIo` -/
theorem runs_diskIo (hi : 1 ≤ i) (hq : q.Fits)
    (hcomm : q.number = 14 ∧ comm = writeBlk ∨ q.number = 15 ∧ comm = readBlk)
    {Q : Unit → Disks × Unit → Prop}
    (hx : Point blocks i [] (fun s => Asked q (s.old i) ∧ HasTape tapes i s) x.1)
    (hQ : ∀ y, Point blocks i [] (HasTape tapes i) y → Q () (y, ())) :
    Prog.wpx ((outline blocks tapes).spec i) (diskIo q.address q.diskNo q.sectNo comm i) Q
      (fun e => (outline blocks tapes).post i (.error e)) x := by
  have hpos : 0 ≤ q.sectNo.toInt := by
    have hsect := hq.2.2
    rw [BitVec.toInt_eq_toNat_cond, if_pos (by omega)]
    omega
  have hknown : ¬ (comm ≠ writeBlk ∧ comm ≠ readBlk) := fun h =>
    hcomm.elim (fun hc => h.1 hc.2) fun hc => h.2 hc.2
  simp only [diskIo]
  by_cases hbad : q.diskNo.toInt ≤ 0 ∨ q.address < kUseg2Addr
  · rw [if_pos hbad, Prog.wpx_bind]
    exact runs_virtualDeath (hx.imp fun _ => trivial)
  have ha : kUseg2Addr ≤ q.address := BitVec.not_lt.mp fun h => hbad (.inr h)
  simp only [if_neg hbad, if_neg hknown, Prog.wpx_bind]
  refine runs_passeren (steady_asked hi) hx fun s hs hfree halone hinv hheld => ?_
  rcases hcomm with ⟨hnum, rfl⟩ | ⟨hnum, rfl⟩
  · have hput := runs_diskPut (E := fun e => (outline blocks tapes).post i (.error e)) hi hq rfl
      hpos hnum ha hs hfree halone hinv hheld hQ
    simp only [Prog.wpx_bind] at hput
    have hother : writeBlk ≠ readBlk := by decide
    simpa only [if_neg hother, if_true, Prog.wpx_pure] using hput
  · have hget := runs_diskGet (E := fun e => (outline blocks tapes).post i (.error e)) hi hq rfl
      hpos hnum ha hs hfree hinv hheld hQ
    simp only [Prog.wpx_bind] at hget
    have hother : readBlk ≠ writeBlk := by decide
    simpa only [if_neg hother, if_true, Prog.wpx_pure] using hget

/-- `vmSysHandler`, for SYS14 and SYS15. -/
theorem runs_vmSysHandler (h1 : 1 ≤ i) (h64 : i < 64) (hq : q.Fits)
    (hnum : q.number = 14 ∨ q.number = 15) {Q : Unit → Disks × Unit → Prop}
    (hend : ∀ y, Point blocks i [] (HasTape tapes i) y →
      (outline blocks tapes).post i (.error (.ldst i .sysTrap)) (y, ()))
    (hx : Point blocks i [] (fun s => Asked q (s.old i) ∧ HasTape tapes i s) x.1) :
    Prog.wpx ((outline blocks tapes).spec i) (vmSysHandler 0) Q
      (fun e => (outline blocks tapes).post i (.error e)) x := by
  have hsteady : Steady i fun s => Asked q (s.old i) ∧ HasTape tapes i s := steady_asked h1
  -- the registers that the handler reads
  have hreg : ∀ {r : Fin stateRegNum} {Q : Word → Disks × Unit → Prop} {x : Disks × Unit}
      {v : Word}, (∀ {s : Disks}, Asked q (s.old i) → s.old i .sysTrap r = v) →
      Point blocks i [] (fun s => Asked q (s.old i) ∧ HasTape tapes i s) x.1 →
      (∀ y, Point blocks i [] (fun s => Asked q (s.old i) ∧ HasTape tapes i s) y →
        Q v (y, ())) →
      Prog.wpx ((outline blocks tapes).spec i) (sup (.readOld i .sysTrap r)) Q
        (fun e => (outline blocks tapes).post i (.error e)) x := by
    intro r Q x v hv hx hQ
    refine runs_read hsteady (fun _ => trivial) (fun s => s.old i .sysTrap r) (fun _ _ => rfl) hx
      fun y hy => ?_
    rw [hv hy.own.1]
    exact hQ y hy
  simp only [vmSysHandler, Prog.wpx_bind]
  refine runs_read hsteady (fun _ => trivial) (fun _ => word i <<< asidShift) (fun _ _ => rfl) hx
    fun y hy => ?_
  rw [asid_word (by omega) h64]
  refine hreg (fun h => h.number) hy fun y hy => ?_
  have hint : (14 : Word).toInt = 14 ∧ (15 : Word).toInt = 15 := ⟨rfl, rfl⟩
  rcases hnum with hnum | hnum
  · rw [hnum, hint.1]
    simp only [Prog.wpx_bind]
    refine hreg (fun h => h.address) hy fun y hy => hreg (fun h => h.diskNo) hy fun y hy => ?_
    refine hreg (fun h => h.sectNo) hy fun y hy => ?_
    exact runs_diskIo h1 hq (.inl ⟨hnum, rfl⟩) hy fun y hy => hend y hy
  · rw [hnum, hint.2]
    simp only [Prog.wpx_bind]
    refine hreg (fun h => h.address) hy fun y hy => hreg (fun h => h.diskNo) hy fun y hy => ?_
    refine hreg (fun h => h.sectNo) hy fun y hy => ?_
    exact runs_diskIo h1 hq (.inr ⟨hnum, rfl⟩) hy fun y hy => hend y hy

end

end Disks

end Jaeos
