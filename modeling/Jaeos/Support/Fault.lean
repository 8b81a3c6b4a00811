import Jaeos.Support.Frames
import Jaeos.Support.Caller

/-!
# A page fault on its own

`vmMemHandler` from the trap to its `LDST`, when no other process comes in between, for every
pool, every page table and all statuses of the disk. `Handled` says what it leaves behind.
-/

namespace Jaeos

open Hardware

/-! ## What the disk is told -/

/-- The blocks that a disk has been told to transfer, and where its arm has been sent. -/
structure DiskLog where
  /-- the cylinder -/
  arm : ℕ
  /-- the transfers, oldest first, each with what it does and its block -/
  moved : List (Word × Block)

/-- The commands of the backing store. -/
def DiskLog.see : ∀ β, SupOp β → β → DiskLog → DiskLog
  | _, .writeDev dev .dCommand v, _, g =>
    if dev = backingStore then
      if opcode v = diskSeek then { g with arm := seekCylinder v }
      else { g with moved := g.moved ++ [(opcode v, blockOf g.arm v)] }
    else g
  | _, _, _, g => g

theorem DiskLog.see_seek {g : DiskLog} {v : Word} (h : opcode v = diskSeek) :
    see _ (.writeDev 0 .dCommand v) () g = { g with arm := seekCylinder v } := by
  simp only [see, if_true]
  rw [if_pos h]

theorem DiskLog.see_transfer {g : DiskLog} {v : Word} (h : opcode v ≠ diskSeek) :
    see _ (.writeDev 0 .dCommand v) () g =
      { g with moved := g.moved ++ [(opcode v, blockOf g.arm v)] } := by
  simp only [see, if_true]
  rw [if_neg h]

namespace Hardware

/-- A mutex gets a holder, or is released. -/
def hold (h : Hardware) (m : Sem) (x : Option ℤ) : Hardware :=
  { h with holder := Function.update h.holder m x }

/-- What `readWriteBacking` does. -/
structure Moved (h h' : Hardware) (op address : Word) (b : Block) (done : Prop) : Prop where
  /-- the mutexes -/
  holder : h'.holder = h.holder
  /-- the old areas -/
  old : h'.old = h.old
  /-- a read that succeeds fills the page, and nothing else does -/
  ram : h'.ram = open Classical in
    if done ∧ op = readBlk then h.ram.setPage address (h.blocks 0 b) else h.ram
  /-- a write that succeeds fills the block, and nothing else does -/
  blocks : h'.blocks 0 = open Classical in
    if done ∧ op = writeBlk then Function.update (h.blocks 0) b (h.ram.page address)
    else h.blocks 0

end Hardware

namespace Paging

/-- The same pool and tables over another hardware. -/
def onto (s : Paging) (h : Hardware) : Paging := { s with toHardware := h }

section

variable (s : Paging) (h h' : Hardware)

@[simp] theorem onto_toHardware : (s.onto h).toHardware = h := rfl

@[simp] theorem onto_onto : (s.onto h).onto h' = s.onto h' := rfl

@[simp] theorem onto_pte : (s.onto h).pte = s.pte := rfl

@[simp] theorem onto_swapPool : (s.onto h).swapPool = s.swapPool := rfl

@[simp] theorem onto_nextFrame : (s.onto h).nextFrame = s.nextFrame := rfl

end

/-- What an operation does for a process that runs alone. -/
abbrev alone (i : ℤ) : ∀ β, SupOp β → StateT (Paging × (ℕ → Word)) Option β := scripted (sem i)

/-- The contract of the operations, with the commands of the disk. -/
abbrev handling (i : ℤ) : Prog.Contract SupOp ((Paging × (ℕ → Word)) × DiskLog) :=
  Prog.certain (alone i) DiskLog.see

section

variable {i : ℤ} {s s' : Paging} {h : Hardware} {io io' : ℕ → Word} {g : DiskLog} {α : Type}
  {o : SupOp α} {b : α} {E : End → (Paging × (ℕ → Word)) × DiskLog → Prop}

theorem handles {Q : α → (Paging × (ℕ → Word)) × DiskLog → Prop}
    (hrun : (alone i α o).run (s, io) = some (b, s', io'))
    (hQ : Q b ((s', io'), DiskLog.see α o b g)) :
    Prog.wpx (handling i) (sup o) Q E ((s, io), g) :=
  ⟨b, (s', io'), hrun, hQ⟩

/-- An operation that reads. -/
theorem handles_read {Q : α → (Paging × (ℕ → Word)) × DiskLog → Prop} (b : α)
    (hrun : (alone i α o).run (s, io) = some (b, s, io)) (hsee : DiskLog.see α o b g = g)
    (hQ : Q b ((s, io), g)) : Prog.wpx (handling i) (sup o) Q E ((s, io), g) :=
  handles hrun (hsee.symm ▸ hQ)

section

variable {Q : Unit → (Paging × (ℕ → Word)) × DiskLog → Prop}

/-- An operation that writes. -/
theorem handles_write {o : SupOp Unit} (s' : Paging)
    (hrun : (alone i Unit o).run (s, io) = some ((), s', io)) (hsee : DiskLog.see Unit o () g = g)
    (hQ : Q () ((s', io), g)) : Prog.wpx (handling i) (sup o) Q E ((s, io), g) :=
  handles hrun (hsee.symm ▸ hQ)

theorem handles_enableInterrupts {on : Bool} (hQ : ∀ v, Q () ((s.onto (s.setStatus i v), io), g)) :
    Prog.wpx (handling i) (enableInterrupts on) Q E ((s, io), g) := by
  simp only [enableInterrupts, Prog.wpx_bind]
  refine handles (b := s.status i) rfl (handles (b := ()) rfl ?_)
  exact hQ _

theorem handles_passeren {m : Sem} (hfree : s.holder m = none)
    (hQ : Q () ((s.onto (s.hold m (some i)), io), g)) :
    Prog.wpx (handling i) (sup (.passeren m)) Q E ((s, io), g) := by
  refine handles ?_ hQ
  simp [alone, scripted, sem, Hardware.sem, Hardware.passeren, StateT.run, hfree, onto, hold]

theorem handles_verhogen {m : Sem} (hheld : s.holder m = some i) (hm : m ≠ .masterSem)
    (hQ : Q () ((s.onto (s.hold m none), io), g)) :
    Prog.wpx (handling i) (sup (.verhogen m)) Q E ((s, io), g) := by
  refine handles ?_ hQ
  cases m with
  | masterSem => exact absurd rfl hm
  | _ => simp [alone, scripted, sem, Hardware.sem, Hardware.verhogen, StateT.run, hheld, onto, hold]

theorem handles_writeDev {dev : ℤ} {f : DevField} {v : Word}
    (hQ : Q () ((s.onto (s.setReg dev f v), io), DiskLog.see _ (.writeDev dev f v) () g)) :
    Prog.wpx (handling i) (sup (.writeDev dev f v)) Q E ((s, io), g) :=
  handles rfl hQ

end

theorem handles_waitForIo {line dev term : ℤ} {Q : Word → (Paging × (ℕ → Word)) × DiskLog → Prop}
    (hQ : Q (io 0) ((s.onto (s.complete line dev (io 0)), fun k => io (k + 1)), g)) :
    Prog.wpx (handling i) (sup (.waitForIo line dev term)) Q E ((s, io), g) :=
  handles rfl hQ

/-- The seek and the transfer succeed. -/
def Done (io : ℕ → Word) : Prop := io 0 = ready ∧ io 1 = ready

instance (io : ℕ → Word) : Decidable (Done io) := inferInstanceAs (Decidable (_ ∧ _))

/-- The statuses after those of a `readWriteBacking`: there is no transfer after a seek that
fails. -/
def after (io : ℕ → Word) : ℕ → Word := fun k => if io 0 = ready then io (k + 2) else io (k + 1)

/-- The transfer of `readWriteBacking`, with the arm where it belongs. -/
theorem moved_complete {h : Hardware} {op address transfer : Word} {b : Block} (status : Word)
    (hop : op = readBlk ∨ op = writeBlk) (hcode : opcode transfer = op)
    (hblock : blockOf (h.arm 0) transfer = b) (hdata : h.reg 0 .dData0 = address)
    (hcommand : h.reg 0 .dCommand = transfer) :
    Moved h (h.complete diskInt backingStore status) op address b (status = ready) := by
  have hb : h.block backingStore = b := by
    rw [block, hcommand]
    exact hblock
  by_cases hready : status = ready
  · rw [hready]
    rcases hop with rfl | rfl
    · have hread : opcode (h.reg backingStore .dCommand) = readBlk := hcommand ▸ hcode
      rw [complete_read hread, hb, hdata]
      exact ⟨rfl, rfl, by simp, by simp⟩
    · have hwrite : opcode (h.reg backingStore .dCommand) = writeBlk := hcommand ▸ hcode
      rw [complete_write hwrite, hb, hdata]
      exact ⟨rfl, rfl, by simp, by simp⟩
  · rw [complete_of_ne _ hready]
    exact ⟨rfl, rfl, (if_neg fun h => hready h.1).symm, (if_neg fun h => hready h.1).symm⟩

theorem handles_readWriteBacking {cylinder : ℕ} {sector : ℤ} {op address : Word}
    {Q : Unit → (Paging × (ℕ → Word)) × DiskLog → Prop} (hop : op = readBlk ∨ op = writeBlk)
    (hcylinder : cylinder < 2 ^ 16) (h1 : 1 ≤ sector) (h64 : sector < 64)
    (hfree : s.holder (.mutexSemArray backingStore) = none)
    (hQ : ∀ h g', Moved s.toHardware h op address (pageBlock sector cylinder) (Done io) →
      (io 0 = ready → g'.moved = g.moved ++ [(op, pageBlock sector cylinder)]) →
        Q () ((s.onto h, after io), g')) :
    Prog.wpx (handling i) (readWriteBacking cylinder sector userProcHead op address) Q E
      ((s, io), g) := by
  have hknown : ¬ (op ≠ writeBlk ∧ op ≠ readBlk) := fun h => hop.elim h.2 h.1
  obtain ⟨hblock, hcode⟩ := blockOf_pager h1 h64 hop cylinder
  have hseek := opcode_seek cylinder
  have harm := seekCylinder_seek hcylinder
  have hnoseek : op ≠ diskSeek := by
    rcases hop with rfl | rfl <;> decide
  have hback : ∀ x, Function.update (Function.update s.holder (.mutexSemArray backingStore) x)
      (.mutexSemArray backingStore) none = s.holder := by
    intro x
    rw [Function.update_idem, Function.update_eq_self_iff, hfree]
  generalize hcommand : (word cylinder <<< seekShift) ||| diskSeek = command at hseek harm
  generalize htransfer : (userProcHead <<< headShift) |||
    (word (sector - 1) <<< sectorShift) ||| op =
    transfer at hblock hcode
  simp only [readWriteBacking, if_neg hknown, Prog.wpx_bind, hcommand, htransfer]
  refine handles_passeren hfree (handles_enableInterrupts fun v => ?_)
  refine handles_writeDev (handles_waitForIo ?_)
  refine handles_enableInterrupts fun v' => ?_
  simp only [onto_onto, onto_toHardware]
  by_cases h0 : io 0 = ready
  · have hreg : opcode ((((s.hold (.mutexSemArray backingStore) (some i)).setStatus i v).setReg 0
        .dCommand command).reg backingStore .dCommand) = diskSeek := by
      rw [setReg_reg_self, hseek]
    rw [if_pos h0, h0, complete_seek hreg]
    simp only [Prog.wpx_bind]
    refine handles_enableInterrupts fun v₁ => handles_writeDev (handles_writeDev ?_)
    refine handles_waitForIo (handles_enableInterrupts fun v₂ => ?_)
    simp only [onto_onto, onto_toHardware, Nat.zero_add]
    -- the hardware before the transfer
    generalize hh : Hardware.setReg _ 0 .dCommand transfer = h
    have hkeep : h.holder = Function.update s.holder (.mutexSemArray backingStore) (some i) ∧
        h.old = s.old ∧ h.ram = s.ram ∧ h.blocks = s.blocks := by
      subst hh
      exact ⟨rfl, rfl, rfl, rfl⟩
    have hat : blockOf (h.arm 0) transfer = pageBlock sector cylinder := by
      have hcyl : h.arm 0 = cylinder := by
        subst hh
        change Function.update s.arm 0 (seekCylinder _) 0 = cylinder
        rw [Function.update_self, setReg_reg_self, harm]
      rw [hcyl, hblock]
    have hregs : h.reg 0 .dData0 = address ∧ h.reg 0 .dCommand = transfer := by
      subst hh
      rw [setReg_reg_of_ne _ _ (by decide), setReg_reg_self, setReg_reg_self]
      exact ⟨rfl, rfl⟩
    have hmoved := moved_complete (io 1) hop hcode hat hregs.1 hregs.2
    have hafter : (fun k => io (k + 1 + 1)) = after io := by
      funext k
      rw [after, if_pos h0]
    rw [hafter]
    refine handles_verhogen ?_ (by simp) (hQ _ _ ⟨?_, ?_, ?_, ?_⟩ fun _ => ?_)
    · change (h.complete diskInt backingStore (io 1)).holder _ = _
      rw [hmoved.holder, hkeep.1, Function.update_self]
    · change Function.update (h.complete diskInt backingStore (io 1)).holder _ none = _
      rw [hmoved.holder, hkeep.1, hback]
    · exact hmoved.old.trans hkeep.2.1
    · refine hmoved.ram.trans ?_
      simp only [hkeep, Done, h0, true_and]
    · refine hmoved.blocks.trans ?_
      simp only [hkeep, Done, h0, true_and]
    · have hdata : ∀ g : DiskLog, DiskLog.see _ (.writeDev 0 .dData0 address) () g = g :=
        fun _ => rfl
      rw [DiskLog.see_seek hseek, hdata, DiskLog.see_transfer (hcode ▸ hnoseek),
        harm, hblock, hcode]
  · rw [if_neg h0, complete_of_ne _ h0]
    refine handles_verhogen ?_ (by simp) ?_
    · exact Function.update_self (Sem.mutexSemArray backingStore) (some i) s.holder
    have hafter : (fun k => io (k + 1)) = after io := by
      funext k
      rw [after, if_neg h0]
    rw [hafter]
    refine hQ _ _ ⟨hback _, rfl, ?_, ?_⟩ fun h => absurd h h0
    · exact (if_neg fun h => h0 h.1.1).symm
    · exact (if_neg fun h => h0 h.1.1).symm

end

/-! ## The handler -/

/-- `EntryHi` in the old area of a process. -/
def missing (s : Paging) (i : ℤ) : Word := s.old i .tlbTrap sEntryHi

/-- The page that a process misses. -/
def missingPage (s : Paging) (i : ℤ) : ℤ := missingPageNum (s.missing i)

section

variable [Support]

/-- The frame that `chooseFrame` chooses. -/
def chosen (s : Paging) : ℕ := (s.nextFrame + 1) % Support.swapSize

/-- Its entry in the swap pool. -/
def victim (s : Paging) : Swap := s.swapPool s.chosen

/-- The frame is in use. -/
def Evicts (s : Paging) : Prop := s.victim.swAsid ≠ -1

instance (s : Paging) : Decidable s.Evicts := inferInstanceAs (Decidable (_ ≠ _))

/-- The block of the page that is in the frame. -/
def victimBlock (s : Paging) : Block := pageBlock s.victim.swAsid s.victim.swPageNo.toNat

/-- The page tables after that page has lost its mapping. -/
def unmapped (s : Paging) : PteRef → Word :=
  if s.Evicts then
    match s.victim.swPte with
    | some r => Function.update s.pte r (s.pte r &&& ~~~valid)
    | none => s.pte
  else s.pte

/-- The backing store after that page has been written to it. -/
def writtenBack (s : Paging) (io : ℕ → Word) : Block → Page :=
  if s.Evicts ∧ Done io then
    Function.update (s.blocks 0) s.victimBlock (s.ram.page (swapAddr s.chosen))
  else s.blocks 0

/-- The statuses from the read on. -/
def readStatuses (s : Paging) (io : ℕ → Word) : ℕ → Word := if s.Evicts then after io else io

/-- A process that has trapped can handle its fault alone: nobody holds the mutexes that it needs,
and the entries of the pool are those of pages. -/
structure Faults (s : Paging) (i : ℤ) : Prop where
  /-- a user process -/
  user : IsUser i
  /-- a TLB exception that the pager handles -/
  cause : s.old i .tlbTrap sCause = tlbl ∨ s.old i .tlbTrap sCause = tlbs
  /-- nobody holds `swapSem` -/
  pool : s.holder .swapSem = none
  /-- nobody uses the backing store -/
  disk : s.holder (.mutexSemArray backingStore) = none
  /-- the entries of the pool -/
  formed : ∀ f < Support.swapSize, (s.swapPool f).swAsid ≠ -1 →
    IsUser (s.swapPool f).swAsid ∧ IsPage (s.swapPool f).swPageNo ∧
      ∃ r, (s.swapPool f).swPte = some r

/-- What `vmMemHandler` leaves behind. -/
structure Handled (s : Paging) (i : ℤ) (io : ℕ → Word) (s' : Paging) : Prop where
  /-- the mutexes -/
  holder : s'.holder = s.holder
  /-- the frame is that of the page in the table of the process -/
  swapPool : s'.swapPool = Function.update s.swapPool s.chosen
    ⟨i, missingSegNum (s.missing i), s.missingPage i, some (.uProc i (s.missingPage i))⟩
  /-- the page is mapped to the frame -/
  pte : s'.pte = Function.update s.unmapped (.uProc i (s.missingPage i)) (mapping s.chosen)
  /-- the frame holds the block of the page if it could be read -/
  ram : s'.ram = if Done (s.readStatuses io) then
      s.ram.setPage (swapAddr s.chosen) (s.writtenBack io (pageBlock i (s.missingPage i).toNat))
    else s.ram
  /-- the backing store -/
  blocks : s'.blocks 0 = s.writtenBack io

omit [Support] in
/-- A signed word shifted by 30 bits is not 3. -/
theorem missingSegNum_ne (entryHi : Word) : missingSegNum entryHi ≠ kUseg3 := by
  have hlt : entryHi.toInt < 2 ^ 31 := BitVec.toInt_lt
  have hkuseg3 : kUseg3 = 3 := rfl
  rw [missingSegNum, BitVec.toInt_sshiftRight, Int.shiftRight_eq_div_pow, hkuseg3]
  omega

omit [Support] in
theorem isPage_missingPage (s : Paging) (i : ℤ) : IsPage (s.missingPage i) := by
  have hsize : kUsegPteSize = 32 := rfl
  simp only [missingPage, missingPageNum, IsPage, hsize]
  split <;> omega

section

variable {i : ℤ} {s : Paging} {io : ℕ → Word} {g : DiskLog}

/-- The page is read in and mapped. -/
theorem handles_readIn (h1 : 1 ≤ i) (h64 : i < 64) {page seg : ℤ} {f : ℕ} (hpage : IsPage page)
    (hseg : seg ≠ kUseg3) (hlock : s.holder .swapSem = some i)
    (hdisk : s.holder (.mutexSemArray backingStore) = none)
    {Q : Unit → (Paging × (ℕ → Word)) × DiskLog → Prop}
    (hE : ∀ s' io' g', s'.holder = Function.update s.holder .swapSem none →
      s'.swapPool = Function.update s.swapPool f ⟨i, seg, page, some (.uProc i page)⟩ →
      s'.pte = Function.update s.pte (.uProc i page) (mapping f) →
      (s'.ram = if Done io then s.ram.setPage (swapAddr f) (s.blocks 0 (pageBlock i page.toNat))
        else s.ram) → s'.blocks 0 = s.blocks 0 →
      (io 0 = ready → g'.moved = g.moved ++ [(readBlk, pageBlock i page.toNat)]) →
        E (.ldst i .tlbTrap) ((s', io'), g')) :
    Prog.wpx (handling i) (do
      readWriteBacking page i userProcHead readBlk (swapAddr f)
      enableInterrupts false
      if seg = kUseg3 then
        sup (.setSwapPool f ⟨i, seg, page, some (.kUSeg3 page)⟩)
        sup (.setPteEntryLO (.kUSeg3 page) (swapAddr f ||| valid ||| dirty ||| global))
      else
        sup (.setSwapPool f ⟨i, seg, page, some (.uProc i page)⟩)
        sup (.setPteEntryLO (.uProc i page) (swapAddr f ||| valid ||| dirty))
      sup .tlbclr
      enableInterrupts true
      sup (.verhogen .swapSem)
      throw (.ldst i .tlbTrap)) Q E ((s, io), g) := by
  obtain ⟨n, rfl⟩ : ∃ n : ℕ, page = n := ⟨page.toNat, by have := hpage.1; omega⟩
  have hsize : kUsegPteSize = 32 := rfl
  have hn : n < 2 ^ 16 := by
    have := hpage.2
    omega
  simp only [Prog.wpx_bind, if_neg hseg]
  refine handles_readWriteBacking (.inl rfl) hn h1 h64 hdisk fun h g' hmoved hlog => ?_
  refine handles_enableInterrupts fun v => handles rfl (handles rfl (handles rfl ?_))
  refine handles_enableInterrupts fun v' => handles_verhogen ?_ (by simp) ?_
  · exact (congrFun hmoved.holder _).trans hlock
  refine hE _ _ _ ?_ rfl rfl ?_ ?_ hlog
  · exact congrArg (Function.update · Sem.swapSem none) hmoved.holder
  · refine hmoved.ram.trans ?_
    simp only [and_true, Int.toNat_natCast]
  · exact hmoved.blocks.trans (if_neg fun h => absurd h.2 (by decide))

/-- What the read-in leaves behind, after the frame has been vacated. -/
theorem Handled.of_readIn {s₂ s' : Paging} {io₂ : ℕ → Word} (h : s.Faults i)
    (hholder₂ : s₂.holder = Function.update s.holder .swapSem (some i))
    (hpool₂ : s₂.swapPool = s.swapPool) (hpte₂ : s₂.pte = s.unmapped) (hram₂ : s₂.ram = s.ram)
    (hblocks₂ : s₂.blocks 0 = s.writtenBack io) (hio₂ : io₂ = s.readStatuses io)
    (hholder : s'.holder = Function.update s₂.holder .swapSem none)
    (hpool : s'.swapPool = Function.update s₂.swapPool s.chosen
      ⟨i, missingSegNum (s.missing i), s.missingPage i, some (.uProc i (s.missingPage i))⟩)
    (hpte : s'.pte = Function.update s₂.pte (.uProc i (s.missingPage i)) (mapping s.chosen))
    (hram : s'.ram = if Done io₂ then
        s₂.ram.setPage (swapAddr s.chosen) (s₂.blocks 0 (pageBlock i (s.missingPage i).toNat))
      else s₂.ram)
    (hblocks : s'.blocks 0 = s₂.blocks 0) : Handled s i io s' := by
  refine ⟨?_, ?_, ?_, ?_, ?_⟩
  · rw [hholder, hholder₂, Function.update_idem, Function.update_eq_self_iff, h.pool]
  · rw [hpool, hpool₂]
  · rw [hpte, hpte₂]
  · rw [hram, hram₂, hblocks₂, hio₂]
  · rw [hblocks, hblocks₂]

variable (io g) in
/-- `vmMemHandler` returns to the process. -/
theorem handles_vmMemHandler (hfit : PoolFits) (h : s.Faults i) :
    Prog.wpx (handling i) vmMemHandler (fun _ _ => False)
      (fun e x => e = .ldst i .tlbTrap ∧ Handled s i io x.1.1 ∧ (s.readStatuses io 0 = ready →
        (readBlk, pageBlock i (s.missingPage i).toNat) ∈ x.2.moved)) ((s, io), g) := by
  have h64 := h.user.lt_64 hfit
  have h1 := h.user.1
  have hcause : ¬ (s.old i .tlbTrap sCause ≠ tlbl ∧ s.old i .tlbTrap sCause ≠ tlbs) :=
    fun hc => h.cause.elim hc.1 hc.2
  have hchosen : s.chosen < Support.swapSize := Nat.mod_lt _ hfit.frames
  have hlock : Function.update s.holder .swapSem (some i) .swapSem = some i :=
    Function.update_self ..
  have hdisk : Function.update s.holder .swapSem (some i) (.mutexSemArray backingStore) = none := by
    rw [Function.update_of_ne (by simp), h.disk]
  let s₁ : Paging := { s.onto (s.hold .swapSem (some i)) with nextFrame := s.chosen }
  simp only [vmMemHandler, chooseFrame, Prog.wpx_bind]
  refine handles_read (word i <<< asidShift) rfl rfl ?_
  rw [asid_word (by omega) (by omega)]
  refine handles_read (s.old i .tlbTrap sCause) rfl rfl ?_
  rw [if_neg hcause]
  simp only [Prog.wpx_bind]
  refine handles_read (s.missing i) rfl rfl (handles_passeren h.pool ?_)
  refine handles_read s.nextFrame rfl rfl (handles_write s₁ rfl rfl ?_)
  refine handles_read s.victim rfl rfl ?_
  by_cases hev : s.victim.swAsid ≠ -1
  · obtain ⟨huser, hpage, r, hr⟩ : IsUser s.victim.swAsid ∧ IsPage s.victim.swPageNo ∧
        ∃ r, s.victim.swPte = some r := h.formed _ hchosen hev
    obtain ⟨n, hn⟩ : ∃ n : ℕ, s.victim.swPageNo = n :=
      ⟨s.victim.swPageNo.toNat, by have := hpage.1; omega⟩
    have hsize : kUsegPteSize = 32 := rfl
    have hlt : n < 2 ^ 16 := by
      have := hpage.2
      omega
    have hunmapped : s.unmapped = Function.update s.pte r (s.pte r &&& ~~~valid) := by
      rw [unmapped, if_pos (show s.Evicts from hev), hr]
    rw [if_pos hev, hr, Prog.wpx_bind]
    refine handles_enableInterrupts fun v => ?_
    dsimp only
    rw [Prog.wpx_bind]
    refine handles_read (s.pte r) rfl rfl ?_
    rw [Prog.wpx_bind]
    refine handles_write { s₁.onto (s₁.setStatus i v) with pte := s.unmapped } ?_ rfl ?_
    · rw [hunmapped]
      rfl
    rw [Prog.wpx_bind]
    refine handles_write { s₁.onto (s₁.setStatus i v) with
      pte := s.unmapped, tlb := fun _ => none } rfl rfl ?_
    rw [Prog.wpx_bind]
    refine handles_enableInterrupts fun v' => ?_
    rw [Prog.wpx_bind]
    refine handles_read s.victim rfl rfl ?_
    rw [hn, Prog.wpx_bind]
    refine handles_readWriteBacking (.inr rfl) hlt huser.1 (huser.lt_64 hfit) hdisk
      fun h' g' hmoved _ => ?_
    have hholder' : h'.holder = Function.update s.holder .swapSem (some i) := hmoved.holder
    have hlock' : h'.holder .swapSem = some i := by rw [hholder', hlock]
    have hdisk' : h'.holder (.mutexSemArray backingStore) = none := by rw [hholder', hdisk]
    have hwritten : h'.blocks 0 = s.writtenBack io := by
      have hev' : s.Evicts := hev
      rw [hmoved.blocks, writtenBack, victimBlock, hn]
      simp only [hev', true_and, and_true, Int.toNat_natCast]
      rfl
    have hram' : h'.ram = s.ram := hmoved.ram.trans (if_neg fun hc => absurd hc.2 (by decide))
    have hread : after io = s.readStatuses io := (if_pos hev).symm
    refine handles_readIn h1 h64 (isPage_missingPage s i) (missingSegNum_ne _) hlock' hdisk' ?_
    intro s' io' g' hholder hpool hpte hram hblocks hlog
    refine ⟨rfl, .of_readIn h ?_ ?_ ?_ ?_ ?_ ?_ hholder hpool hpte hram hblocks, fun h0 => ?_⟩
    · exact hholder'
    · rfl
    · rfl
    · exact hram'
    · exact hwritten
    · exact hread
    · rw [hlog (hread ▸ h0)]
      exact List.mem_append_right _ (List.mem_singleton_self _)
  · have hstay : s.pte = s.unmapped ∧ s.blocks 0 = s.writtenBack io ∧ io = s.readStatuses io :=
      ⟨(if_neg hev).symm, (if_neg fun h => hev h.1).symm, (if_neg hev).symm⟩
    rw [if_neg hev]
    refine handles_readIn h1 h64 (isPage_missingPage s i) (missingSegNum_ne _) ?_ ?_ ?_
    · exact hlock
    · exact hdisk
    intro s' io' g' hholder hpool hpte hram hblocks hlog
    refine ⟨rfl, .of_readIn h ?_ ?_ ?_ ?_ ?_ ?_ hholder hpool hpte hram hblocks, fun h0 => ?_⟩
    · rfl
    · rfl
    · exact hstay.1
    · rfl
    · exact hstay.2.1
    · exact hstay.2.2
    · rw [hlog (hstay.2.2 ▸ h0)]
      exact List.mem_append_right _ (List.mem_singleton_self _)

/-- How a fault ends, and what it leaves behind. -/
def faultRun (i : ℤ) (s : Paging) (io : ℕ → Word) :
    Option (Except End Unit × Paging × (ℕ → Word)) :=
  (vmMemHandler.run.run (alone i)).run (s, io)

/-- The transfers of a fault. -/
def faultMoved (i : ℤ) (s : Paging) (io : ℕ → Word) : List (Word × Block) :=
  (vmMemHandler.run.observe (alone i) DiskLog.see (s, io) ⟨0, []⟩).moved

variable (io) in
/-- A fault ends with the process resumed. -/
theorem faultRun_handled (hfit : PoolFits) (h : s.Faults i) : ∃ s' io',
    faultRun i s io = some (.error (.ldst i .tlbTrap), s', io') ∧ Handled s i io s' ∧
      (s.readStatuses io 0 = ready →
        (readBlk, pageBlock i (s.missingPage i).toNat) ∈ faultMoved i s io) := by
  obtain ⟨r, ⟨s', io'⟩, hrun, hr⟩ :=
    Prog.run_of_certain (handles_vmMemHandler io ⟨0, []⟩ hfit h)
  cases r with
  | ok b => exact hr.elim
  | error e =>
    obtain ⟨rfl, hhandled, hmoved⟩ := hr
    exact ⟨s', io', hrun, hhandled, hmoved⟩

end

end

end Paging

end Jaeos
