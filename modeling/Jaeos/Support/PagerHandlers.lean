import Jaeos.Support.PagerRules

/-!
# The programs of the pager

`vmMemHandler`, `virtualDeath` and `uProcInit`, from their first operation to their end, while the
other processes do what they may. Each keeps the invariant, and ends as the outline promises.
-/

namespace Jaeos

namespace Hardware

/-! ## Transfers -/

/-- The backing store moves a page. -/
def transfer (s : Hardware) (op address : Word) (b : Block) : Hardware :=
  if op = readBlk then { s with ram := s.ram.setPage address (s.blocks 0 b) }
  else { s with
    blocks := Function.update s.blocks 0
      (Function.update (s.blocks 0) b (s.ram.page address)) }

theorem transfer_read (s : Hardware) (address : Word) (b : Block) :
    s.transfer readBlk address b = { s with ram := s.ram.setPage address (s.blocks 0 b) } :=
  if_pos rfl

theorem transfer_write (s : Hardware) (address : Word) (b : Block) :
    s.transfer writeBlk address b = { s with
      blocks := Function.update s.blocks 0
        (Function.update (s.blocks 0) b (s.ram.page address)) } :=
  if_neg (by decide)

theorem transfer_write_blocks (s : Hardware) (address : Word) (b : Block) :
    (s.transfer writeBlk address b).blocks 0 =
      Function.update (s.blocks 0) b (s.ram.page address) := by
  rw [transfer_write]
  exact Function.update_self (0 : ℤ) _ s.blocks

theorem transfer_write_ram (s : Hardware) (address : Word) (b : Block) :
    (s.transfer writeBlk address b).ram = s.ram := by
  rw [transfer_write]

/-- What the backing store does when it is told to transfer a block. -/
theorem complete_transfer {s : Hardware} {op address command : Word} {n : ℕ} {b : Block}
    (hop : op = readBlk ∨ op = writeBlk) (hcode : opcode command = op)
    (hblock : blockOf n command = b) (hdata : s.reg backingStore .dData0 = address)
    (hcommand : s.reg backingStore .dCommand = command) (harm : s.arm backingStore = n) :
    s.complete diskInt backingStore ready = s.transfer op address b := by
  have hb : s.block backingStore = b := by
    rw [block, harm, hcommand]
    exact hblock
  rcases hop with rfl | rfl
  · rw [complete_read (hcommand ▸ hcode), hb, hdata, transfer_read]
  · rw [complete_write (hcommand ▸ hcode), hb, hdata, transfer_write]

end Hardware

namespace Paging

open Hardware

section

variable [Support] {sure : Prop} {tapes : ℤ → List Page} {s s' : Paging} {g g' : Record} {i : ℤ}
  {L : List Sem} {B C : Noted → Prop} {x y : Noted} {E : End → Noted → Prop}

/-- A page is read into a frame. -/
theorem rely_read (hfit : PoolFits) (g' : Record) {j : ℤ} {f : ℕ} (hf : f < Support.swapSize)
    (b : Block) (hage : g'.age = g.age) (hhole : s.holder .swapSem = some j → g'.hole = g.hole) :
    Rely j (s, g) (s.onto (s.transfer readBlk (swapAddr f) b), g') := by
  rw [transfer_read]
  exact { Rely.refl j (s, g) with
    age := congrFun hage j
    pool hj := ⟨rfl, rfl, rfl, hhole hj⟩
    buffer hj := Ram.page_setPage_of_ne (hfit.swapAddr_aligned hf)
      (tapeBuffer_aligned hj.1 (hj.lt_64 hfit)) (hfit.swapAddr_ne_tapeBuffer hf hj).symm }

/-- A block of a process is written that is not loading its tape. -/
theorem rely_write (s : Paging) (g g' : Record) {j p : ℤ} (n : ℕ) (address : Word) (hp : 1 ≤ p)
    (hfresh : IsUser j → g.age j = .fresh → j ≠ p)
    (hage : g'.age = g.age) (hhole : s.holder .swapSem = some j → g'.hole = g.hole) :
    Rely j (s, g) (s.onto (s.transfer writeBlk address (pageBlock p n)), g') := by
  have hblocks := transfer_write_blocks s.toHardware address (pageBlock p n)
  rw [transfer_write] at hblocks ⊢
  exact { Rely.refl j (s, g) with
    age := congrFun hage j
    pool hj := ⟨rfl, rfl, rfl, hhole hj⟩
    fresh hj hf k := by
      have hne : pageBlock j k ≠ pageBlock p n :=
        fun he => hfresh hj hf (pageBlock_inj hj.1 hp he).1
      exact (congrFun hblocks _).trans (Function.update_of_ne hne ..) }

/-- `readWriteBacking`, if the transfer leads from `B` to `C`. -/
theorem runs_readWriteBacking (hfit : PoolFits) (hB : Kept i B) (hC : Kept i C) {cylinder : ℕ}
    {sector : ℤ} {op address : Word} {Q : Unit → Noted → Prop}
    (hop : op = readBlk ∨ op = writeBlk) (hcylinder : cylinder < 2 ^ 16) (h1 : 1 ≤ sector)
    (h64 : sector < 64) (hL : .mutexSemArray backingStore ∉ L)
    (hx : Point sure tapes i L B x) (hfail : ¬ sure → ∀ y, B y → C y)
    (hmove : ∀ y, Inv sure tapes y → B y → ∃ g', Inv sure tapes
      (y.1.onto (y.1.transfer op address (pageBlock sector cylinder)), g') ∧
        C (y.1.onto (y.1.transfer op address (pageBlock sector cylinder)), g') ∧
        Spares y.1 (y.1.onto (y.1.transfer op address (pageBlock sector cylinder))) ∧ ∀ j, j ≠ i →
          Rely j y (y.1.onto (y.1.transfer op address (pageBlock sector cylinder)), g'))
    (hQ : ∀ y, Point sure tapes i L C y → Q () y) :
    Prog.wpx ((outline sure tapes).spec i)
      (readWriteBacking cylinder sector userProcHead op address) Q E x := by
  have hknown : ¬ (op ≠ writeBlk ∧ op ≠ readBlk) := fun h => hop.elim h.2 h.1
  obtain ⟨hblock, hcode⟩ := blockOf_pager h1 h64 hop cylinder
  have hseek := opcode_seek cylinder
  have harm := seekCylinder_seek hcylinder
  have hmem : Sem.mutexSemArray backingStore ∈ Sem.mutexSemArray backingStore :: L :=
    List.mem_cons_self
  generalize hcommand : (word cylinder <<< seekShift) ||| diskSeek = command at hseek harm
  generalize htransfer : (userProcHead <<< headShift) |||
    (word (sector - 1) <<< sectorShift) ||| op =
    transfer at hblock hcode
  simp only [readWriteBacking, if_neg hknown, Prog.wpx_bind, hcommand, htransfer]
  refine runs_passeren hfit hB (by simp) hx fun y hy => ?_
  refine runs_enableInterrupts hfit hB.toSteady hy fun y hy hm => ?_
  refine runs_seek hfit hB hseek (hm rfl) hmem hy fun status z hstatus hz => ?_
  have hsteady : Steady i fun z => B z ∧ (status = ready → Armed i (seekCylinder command) z) :=
    hB.toSteady.and (.imp fun _ => Armed.steady i _)
  refine runs_enableInterrupts hfit hsteady hz fun z hz _ => ?_
  by_cases hready : status = ready
  · have harmed : Steady i fun z => B z ∧ Armed i cylinder z := hB.toSteady.and (Armed.steady i _)
    rw [if_pos hready]
    simp only [Prog.wpx_bind]
    refine runs_enableInterrupts hfit harmed (hz.imp fun h => ⟨h.1, harm ▸ h.2 hready⟩)
      fun z hz hm => ?_
    refine runs_transfer hfit hB (hm rfl) hmem hz hfail ?_ fun _ z _ hz => ?_
    · intro y hinv _ hown hdata hcommand harm
      rw [complete_transfer hop hcode hblock hdata hcommand harm]
      exact hmove y hinv hown
    refine runs_enableInterrupts hfit hC.toSteady hz fun z hz _ => ?_
    exact runs_verhogen hfit hC (by simp) (by simp) hL hz hQ
  · have hno : ¬ sure := fun h => hready (hstatus h)
    rw [if_neg hready]
    exact runs_verhogen hfit hC (by simp) (by simp) hL (hz.imp fun h => hfail hno z h.1) hQ

/-! ## What a process knows -/

omit [Support] in
theorem Kept.and [Support] (hB : Kept i B) (hC : Kept i C) : Kept i fun x => B x ∧ C x where
  toSteady := hB.toSteady.and hC.toSteady
  hold o hm h := ⟨hB.hold o hm h.1, hC.hold o hm h.2⟩
  reg f v h := ⟨hB.reg f v h.1, hC.reg f v h.2⟩
  arm a h := ⟨hB.arm a h.1, hC.arm a h.2⟩

/-- The process holds `swapSem`, and knows this of the pool, the tables and the frame it works
on. -/
def Locked (i : ℤ) (P : ℕ → (ℕ → Swap) → (PteRef → Word) → Option (ℕ × Stage) → Prop) (x : Noted) :
    Prop :=
  x.1.holder .swapSem = some i ∧ P x.1.nextFrame x.1.swapPool x.1.pte x.2.hole

theorem Locked.kept (i : ℤ) (P : ℕ → (ℕ → Swap) → (PteRef → Word) → Option (ℕ × Stage) → Prop) :
    Kept i (Locked i P) where
  rely {x y} h hr := by
    obtain ⟨hn, hp, ht, hh⟩ := hr.pool h.1
    refine ⟨(hr.holder _).mp h.1, ?_⟩
    rw [hn, hp, ht, hh]
    exact h.2
  status _ h := h
  hold o hm h := ⟨(Function.update_of_ne hm.symm ..).trans h.1, h.2⟩
  reg _ _ h := h
  arm _ h := h

/-! ## Death -/

/-- What a dying process knows. -/
structure Dying (sure : Prop) (i : ℤ) (x : Noted) : Prop where
  /-- its trap was its end -/
  dying : x.1.dying i = true
  /-- it is counted as dead -/
  age : sure → x.2.age i = .dead

omit [Support] in
theorem Dying.kept [Support] (sure : Prop) (i : ℤ) : Kept i (Dying sure i) where
  rely h hr := ⟨hr.dying.trans h.dying, fun hsure => hr.age.trans (h.age hsure)⟩
  status _ h := ⟨h.dying, h.age⟩
  hold _ _ h := ⟨h.dying, h.age⟩
  reg _ _ h := ⟨h.dying, h.age⟩
  arm _ h := ⟨h.dying, h.age⟩

/-- The holder of `swapSem` sets an entry of a page table, but maps no page of the others. -/
theorem rely_setPte {j : ℤ} {r : PteRef} {e : Word} (hlock : s.holder .swapSem ≠ some j)
    (hage : g'.age = g.age) (hr : ∀ k, IsValid e → r ≠ .uProc j k) :
    Rely j (s, g) (s.setPte r e, g') :=
  { Rely.refl j (s, g) with
    age := congrFun hage j
    pool hj := absurd hj hlock
    unmapped k hv := by
      change IsValid (Function.update s.pte r e (.uProc j k)) at hv
      by_cases hrk : r = .uProc j k
      · rw [hrk, Function.update_self] at hv
        exact absurd hrk (hr k hv)
      · rwa [Function.update_of_ne (Ne.symm hrk)] at hv }

/-- The holder of `swapSem` sets an entry of the pool. -/
theorem rely_setFrame {j : ℤ} {f : ℕ} {frame : Swap} (hlock : s.holder .swapSem ≠ some j) :
    Rely j (s, g) (s.setFrame f frame, g) :=
  { Rely.refl j (s, g) with
    pool hj := absurd hj hlock }

/-- The TLB is cleared. -/
def clear (s : Paging) : Paging := { s with tlb := fun _ => none }

omit [Support] in
theorem coherent_clear : s.clear.Coherent := fun _ _ h => by cases h

theorem rely_clear {j : ℤ} : Rely j (s, g) (s.clear, g) :=
  { Rely.refl j (s, g) with }

theorem Core.clear (h : Core sure tapes (s, g)) : Core sure tapes (s.clear, g) :=
  h.still ⟨rfl, rfl, rfl⟩ rfl rfl rfl rfl rfl

/-- A dying process that holds `swapSem`, with interrupts disabled. Its entries may still be cached
if it has modified some. -/
structure Reaping (sure : Prop) (tapes : ℤ → List Page) (i : ℤ) (modified : Bool) (x : Noted) :
    Prop where
  /-- the pool, the tables and the pages -/
  core : Core sure tapes x
  /-- the TLB -/
  coherent : modified = false → x.1.Coherent
  /-- its interrupts are disabled -/
  masked : Masked i x.1
  /-- its mutexes -/
  held : ∀ m, x.1.holder m = some i ↔ m ∈ [Sem.swapSem]
  /-- nobody works on a frame -/
  hole : x.2.hole = none
  /-- it is dying -/
  own : Dying sure i x

/-- The loop of `virtualDeath`. -/
theorem runs_invalidateFrames (hfit : PoolFits) {n f : ℕ} {modified : Bool} (hi : IsUser i)
    (hf : f + n ≤ Support.swapSize) {Q : Bool → Noted → Prop}
    (hx : Reaping sure tapes i modified x)
    (hQ : ∀ modified' y, Reaping sure tapes i modified' y → Q modified' y) :
    Prog.wpx ((outline sure tapes).spec i) (invalidateFrames i n f modified) Q E x := by
  induction n generalizing f modified x with
  | zero => exact hQ _ _ hx
  | succ n ih =>
    have hlock : x.1.holder .swapSem = some i := (hx.held _).mpr (List.mem_singleton_self _)
    have hother : ∀ j, j ≠ i → x.1.holder .swapSem ≠ some j := by
      intro j hj
      simpa [hlock] using hj.symm
    simp only [invalidateFrames, Prog.wpx_bind]
    refine runs_masked hx.masked rfl (x.1.swapPool f) x.1 x.2 (fun _ => rfl)
      (fun hsure => .of_same hfit hsure hx.core hx.core ⟨rfl, rfl, rfl⟩)
      (fun j _ => Rely.refl j x) ?_
    by_cases hasid : (x.1.swapPool f).swAsid = i
    · -- if transfers may fail, a dying process has no frame
      have hsure : sure := by
        by_contra hno
        exact hx.core.doomed hno i hx.own.dying hlock f (by omega) hasid
      have hactive : x.1.Active f := by
        refine ⟨by omega, ?_⟩
        have h1 := hi.1
        omega
      obtain ⟨i', k, hs⟩ := hx.core.table.slot f hactive
      obtain rfl : i' = i := hs.asid.symm.trans hasid
      rw [if_pos hasid, hs.pte]
      simp only [Prog.wpx_bind]
      let e : Word := x.1.pte (.uProc i' k) ||| ~~~valid
      let frame : Swap :=
        ⟨-1, (x.1.swapPool f).swSegNo, (x.1.swapPool f).swPageNo, some (.uProc i' k)⟩
      refine runs_masked hx.masked rfl (x.1.pte (.uProc i' k)) x.1 x.2 (fun _ => rfl)
        (fun hno => absurd hsure hno) (fun j _ => Rely.refl j x) ?_
      refine runs_masked hx.masked rfl () (x.1.setPte (.uProc i' k) e) x.2 (fun _ => rfl)
        (fun hno => absurd hsure hno) (fun j hj => ?_) ?_
      · refine rely_setPte (hother j hj) rfl fun k' _ he => ?_
        exact hj (PteRef.uProc.inj he).1.symm
      refine runs_masked hx.masked rfl () ((x.1.setPte (.uProc i' k) e).setFrame f frame) x.2
        (fun _ => rfl) (fun hno => absurd hsure hno) (fun j hj => ?_) ?_
      · exact rely_setFrame (hother j hj)
      refine ih (by omega) ⟨?_, fun h => absurd h (by simp), hx.masked, hx.held, hx.hole, ?_⟩
      · exact hx.core.drop hfit hx.hole hs hactive (hx.own.age hsure) rfl
      · exact ⟨hx.own.dying, hx.own.age⟩
    · rw [if_neg hasid]
      exact ih (by omega) hx

/-- `virtualDeath` -/
theorem runs_virtualDeath (hfit : PoolFits) {α : Type} (hi : IsUser i) {Q : α → Noted → Prop}
    (hx : Point sure tapes i [] (Dying sure i) x) :
    Prog.wpx ((outline sure tapes).spec i) (virtualDeath i) Q
      (fun e => (outline sure tapes).post i (.error e)) x := by
  have hkept := (Dying.kept sure i).and
    (Locked.kept i fun _ _ _ hole => hole = none)
  simp only [virtualDeath, Prog.wpx_bind]
  refine runs_lock hfit (Dying.kept sure i).toSteady hx (C := fun x => Dying sure i x ∧
    Locked i (fun _ _ _ hole => hole = none) x) (fun h _ hh => ⟨⟨h.dying, h.age⟩, ?_, hh⟩)
    fun y hy => ?_
  · exact onto_hold_self
  refine runs_enableInterrupts hfit hkept.toSteady hy fun y hy hm => ?_
  have hreap : Reaping sure tapes i false y :=
    ⟨hy.inv.core, fun _ => hy.inv.coherent, hm rfl, hy.held, hy.own.2.2, hy.own.1⟩
  refine runs_invalidateFrames hfit hi (by omega) hreap fun modified z hz => ?_
  have hlock : z.1.holder .swapSem = some i := (hz.held _).mpr (List.mem_singleton_self _)
  -- the rest, with the TLB in order
  have hrest : ∀ z, Point sure tapes i [.swapSem] (fun x => Dying sure i x ∧
      Locked i (fun _ _ _ hole => hole = none) x) z →
      Prog.wpx ((outline sure tapes).spec i) (enableInterrupts true) (fun _ =>
        Prog.wpx ((outline sure tapes).spec i) (sup (.verhogen .swapSem)) (fun _ =>
          Prog.wpx ((outline sure tapes).spec i) (sup (.verhogen .masterSem)) (fun _ =>
            Prog.wpx ((outline sure tapes).spec i) (throw End.terminated : SupM α) Q
              fun e => (outline sure tapes).post i (.error e))
            fun e => (outline sure tapes).post i (.error e))
          fun e => (outline sure tapes).post i (.error e))
        (fun e => (outline sure tapes).post i (.error e)) z := by
    intro z hz
    refine runs_enableInterrupts hfit hkept.toSteady hz fun z hz _ => ?_
    refine runs_unlock hfit hkept.toSteady hz (C := Dying sure i) (fun h => h.2.2)
      (fun h => ⟨h.1.dying, h.1.age⟩) fun z hz => ?_
    refine runs_read hfit (Dying.kept sure i).toSteady (fun _ => ()) (fun _ _ => rfl) hz
      fun z hz => ?_
    exact ⟨hz.inv, fun h => h.elim⟩
  cases modified with
  | true =>
    rw [if_pos rfl]
    simp only [Prog.wpx_bind]
    refine runs_masked hz.masked rfl () z.1.clear z.2 (fun _ => rfl) (fun hsure => ?_)
      (fun j _ => rely_clear) (hrest _ ⟨⟨?_, ?_⟩, hz.held, ?_, hlock, hz.hole⟩)
    · exact .of_same hfit hsure hz.core hz.core.clear ⟨rfl, rfl, rfl⟩
    · exact hz.core.clear
    · exact coherent_clear
    · exact ⟨hz.own.dying, hz.own.age⟩
  | false =>
    rw [if_neg (by simp)]
    simp only [Prog.wpx_bind]
    exact hrest z ⟨⟨hz.core, hz.coherent rfl⟩, hz.held, hz.own, hlock, hz.hole⟩

/-! ## A page fault -/

/-- What a process knows that misses a page. -/
structure Faulting (sure : Prop) (i : ℤ) (entryHi : Word) (x : Noted) : Prop where
  /-- it does not die -/
  dying : x.1.dying i = false
  /-- it runs -/
  age : x.2.age i = .live
  /-- `EntryHi` -/
  missing : x.1.missing i = entryHi
  /-- the page is not mapped, if faults are for such pages -/
  unmapped : sure → ¬ IsValid (x.1.pte (.uProc i (missingPageNum entryHi)))

theorem Faulting.kept (sure : Prop) (i : ℤ) (entryHi : Word) :
    Kept i (Faulting sure i entryHi) where
  rely h hr := ⟨hr.dying.trans h.dying, hr.age.trans h.age,
    (congrFun (congrFun hr.old .tlbTrap) sEntryHi).trans h.missing,
    fun hsure hv => h.unmapped hsure (hr.unmapped _ hv)⟩
  status _ h := ⟨h.dying, h.age, h.missing, h.unmapped⟩
  hold _ _ h := ⟨h.dying, h.age, h.missing, h.unmapped⟩
  reg _ _ h := ⟨h.dying, h.age, h.missing, h.unmapped⟩
  arm _ h := ⟨h.dying, h.age, h.missing, h.unmapped⟩

variable {a : Word} {P P' : ℕ → (ℕ → Swap) → (PteRef → Word) → Option (ℕ × Stage) → Prop} {f : ℕ}

/-- It holds `swapSem`, and knows this of the pool. -/
abbrev Working (sure : Prop) (i : ℤ) (a : Word)
    (P : ℕ → (ℕ → Swap) → (PteRef → Word) → Option (ℕ × Stage) → Prop) (x : Noted) : Prop :=
  Faulting sure i a x ∧ Locked i P x

theorem Working.kept (sure : Prop) (i : ℤ) (a : Word)
    (P : ℕ → (ℕ → Swap) → (PteRef → Word) → Option (ℕ × Stage) → Prop) :
    Kept i (Working sure i a P) :=
  (Faulting.kept sure i a).and (Locked.kept i P)

/-- The page that is missed is not mapped, and the frame has come as far as this. -/
def Reached (sure : Prop) (i : ℤ) (a : Word) (f : ℕ) (st : Stage) :
    ℕ → (ℕ → Swap) → (PteRef → Word) → Option (ℕ × Stage) → Prop := fun _ _ pte hole =>
  (∃ st', hole = some (f, st') ∧ (sure → st' = st)) ∧
    ¬ IsValid (pte (.uProc i (missingPageNum a)))

omit [Support] in
/-- Nobody else holds `swapSem`. -/
theorem Locked.ne (h : Locked i P x) {j : ℤ} (hj : j ≠ i) : x.1.holder .swapSem ≠ some j := by
  rw [h.1]
  simpa using hj.symm

/-- The page of the frame loses its mapping. -/
theorem runs_unmap (hfit : PoolFits) {frame : Swap} {r : PteRef} {Q : Unit → Noted → Prop}
    (hm : Masked i x.1) (hf : f < Support.swapSize) (hasid : frame.swAsid ≠ -1)
    (hr : frame.swPte = some r)
    (hx : Point sure tapes i [.swapSem] (Working sure i a fun nextFrame pool pte hole =>
      nextFrame = f ∧ pool f = frame ∧ hole = none ∧
        (IsValid (pte (.uProc i (missingPageNum a))) →
          frame.swPte = some (.uProc i (missingPageNum a)))) x)
    (hQ : ∀ y, Point sure tapes i [.swapSem] (Working sure i a fun _ pool pte hole =>
      pool f = frame ∧ hole = some (f, .out) ∧
        ¬ IsValid (pte (.uProc i (missingPageNum a)))) y → Q () y) :
    Prog.wpx ((outline sure tapes).spec i) (sup (.pteEntryLO r)) (fun v =>
      Prog.wpx ((outline sure tapes).spec i) (sup (.setPteEntryLO r (v &&& ~~~valid))) (fun _ =>
        Prog.wpx ((outline sure tapes).spec i) (sup .tlbclr) Q E) E) E x := by
  obtain ⟨hfault, hlock, hturn, hpool, hhole, hmine⟩ := hx.own
  have hother : ∀ j, j ≠ i → x.1.holder .swapSem ≠ some j := fun j hj => hx.own.2.ne hj
  have hgood : ∀ {s s' : Paging}, s'.holder .swapSem = some i → s.dying i = false →
      ¬ sure → Settles i s s' := fun hl hd _ => .of_lock hl hd
  have hactive : x.1.Active f := ⟨hf, hpool ▸ hasid⟩
  obtain ⟨i', k', hs⟩ := hx.inv.core.table.slot f hactive
  have hr' : r = .uProc i' k' := Option.some.inj (hr.symm.trans (hpool ▸ hs.pte))
  subst hr'
  have hnone : x.1.holder .swapSem ≠ none := by
    rw [hlock]
    simp
  let e : Word := x.1.pte (.uProc i' k') &&& ~~~valid
  let s₁ : Paging := x.1.setPte (.uProc i' k') e
  have hcore : Core sure tapes (s₁, x.2.work f .out) :=
    hx.inv.core.unmap hfit hhole hnone hturn hs hactive (not_isValid_and _)
  have hpage : ¬ IsValid (s₁.pte (.uProc i (missingPageNum a))) := by
    by_cases hsame : PteRef.uProc i (missingPageNum a) = .uProc i' k'
    · rw [hsame]
      have hself : s₁.pte (.uProc i' k') = e := Function.update_self ..
      exact hself ▸ not_isValid_and _
    · have hsame' : s₁.pte (.uProc i (missingPageNum a)) = x.1.pte (.uProc i (missingPageNum a)) :=
        Function.update_of_ne hsame ..
      rw [hsame']
      exact fun hv => hsame (Option.some.inj ((hmine hv).symm.trans hr))
  refine runs_masked hm rfl (x.1.pte (.uProc i' k')) x.1 x.2 (fun _ => rfl)
    (hgood hlock hfault.dying) (fun j _ => Rely.refl j x) ?_
  refine runs_masked hm rfl () s₁ (x.2.work f .out) (fun _ => rfl) (hgood hlock hfault.dying)
    (fun j hj => ?_) ?_
  · exact rely_setPte (hother j hj) rfl fun k hv => absurd hv (not_isValid_and _)
  refine runs_masked hm rfl () s₁.clear (x.2.work f .out) (fun _ => rfl) (hgood hlock hfault.dying)
    (fun j _ => rely_clear) (hQ _ ⟨⟨hcore.clear, coherent_clear⟩, hx.held, ?_, hlock, ?_⟩)
  · exact ⟨hfault.dying, hfault.age, hfault.missing, fun _ => hpage⟩
  · exact ⟨hpool, rfl, hpage⟩

/-- The frame is given to the page that has been read in. -/
theorem runs_map (hfit : PoolFits) {seg : ℤ} {Q : Unit → Noted → Prop} (hm : Masked i x.1)
    (hi : IsUser i) (hf : f < Support.swapSize)
    (hx : Point sure tapes i [.swapSem]
      (Working sure i a (Reached sure i a f (.filled i (missingPageNum a)))) x)
    (hQ : ∀ y, Point sure tapes i [.swapSem] (fun z => z.2.age i = .live ∧
      Locked i (fun _ _ _ hole => hole = none) z) y → Q () y) :
    Prog.wpx ((outline sure tapes).spec i) (sup (.setSwapPool f
        ⟨i, seg, missingPageNum a, some (.uProc i (missingPageNum a))⟩)) (fun _ =>
      Prog.wpx ((outline sure tapes).spec i) (sup (.setPteEntryLO (.uProc i (missingPageNum a))
          (swapAddr f ||| valid ||| dirty))) (fun _ =>
        Prog.wpx ((outline sure tapes).spec i) (sup .tlbclr) Q E) E) E x := by
  obtain ⟨hfault, hlock, ⟨st, hhole, hst⟩, hv⟩ := hx.own
  have hother : ∀ j, j ≠ i → x.1.holder .swapSem ≠ some j := fun j hj => hx.own.2.ne hj
  have hk : IsPage (missingPageNum a) := hfault.missing ▸ isPage_missingPage x.1 i
  let frame : Swap := ⟨i, seg, missingPageNum a, some (.uProc i (missingPageNum a))⟩
  let s₁ : Paging := x.1.setFrame f frame
  let s₂ : Paging := s₁.setPte (.uProc i (missingPageNum a)) (mapping f)
  have hself : s₁.swapPool f = frame := Function.update_self ..
  have hcore : Core sure tapes (s₁, x.2) :=
    hx.inv.core.enter hlock hfault.dying hhole hst hi hk hv (by simp [hfault.age]) ⟨rfl, rfl, rfl⟩
  have hactive : s₁.Active f := by
    refine ⟨hf, ?_⟩
    rw [hself]
    have h1 := hi.1
    change i ≠ -1
    omega
  have hs : Slot (s₁, x.2) f i (missingPageNum a) :=
    hcore.table.slot_of_pte hactive (congrArg Swap.swPte hself)
  refine runs_masked hm rfl () s₁ x.2 (fun _ => rfl) (fun _ => .of_lock hlock hfault.dying)
    (fun j hj => rely_setFrame (hother j hj)) ?_
  refine runs_masked hm rfl () s₂ { x.2 with hole := none } (fun _ => rfl)
    (fun _ => .of_lock hlock hfault.dying) (fun j hj => ?_) ?_
  · refine rely_setPte (hother j hj) rfl fun k _ he => ?_
    exact hj (PteRef.uProc.inj he).1.symm
  refine runs_masked hm rfl () s₂.clear { x.2 with hole := none } (fun _ => rfl)
    (fun _ => .of_lock hlock hfault.dying) (fun j _ => rely_clear)
    (hQ _ ⟨⟨?_, coherent_clear⟩, hx.held, hfault.age, hlock, rfl⟩)
  exact (hcore.map hfit hhole hst hs hactive).clear

/-- The page that is missed is read into the frame and mapped, and the process goes on. -/
theorem runs_fill (hfit : PoolFits) {seg page : ℤ} {Q : Unit → Noted → Prop} (hi : IsUser i)
    (hf : f < Support.swapSize) (hseg : seg ≠ kUseg3) (hpage : page = missingPageNum a)
    (hx : Point sure tapes i [.swapSem] (Working sure i a (Reached sure i a f .gone)) x) :
    Prog.wpx ((outline sure tapes).spec i) (do
      readWriteBacking page i userProcHead readBlk (swapAddr f)
      enableInterrupts false
      if seg = kUseg3 then
        sup (.setSwapPool f ⟨i, seg, page, some (.kUSeg3 page)⟩)
        sup (.setPteEntryLO (.kUSeg3 page) (swapAddr f ||| valid ||| dirty ||| global))
      else
        sup (.setSwapPool f ⟨i, seg, page, some (.uProc i page)⟩)
        sup (.setPteEntryLO (.uProc i page) (swapAddr f ||| valid ||| dirty))
      sup .tlbclr
      enableInterrupts true
      sup (.verhogen .swapSem)
      throw (.ldst i .tlbTrap)) Q (fun e => (outline sure tapes).post i (.error e)) x := by
  subst hpage
  have hk : IsPage (missingPageNum a) := hx.own.1.missing ▸ isPage_missingPage x.1 i
  obtain ⟨n, hn⟩ : ∃ n : ℕ, missingPageNum a = n :=
    ⟨(missingPageNum a).toNat, by have := hk.1; omega⟩
  have hsize : kUsegPteSize = 32 := rfl
  have hlt : n < 2 ^ 16 := by
    have := hk.2
    omega
  have hdone : Kept i fun z : Noted => z.2.age i = .live ∧
      Locked i (fun _ _ _ hole => hole = none) z := by
    refine .and ⟨⟨fun h hr => hr.age.trans h, fun _ h => h⟩, fun _ _ h => h, fun _ _ h => h,
      fun _ h => h⟩ (Locked.kept i _)
  simp only [Prog.wpx_bind, if_neg hseg]
  rw [hn]
  refine runs_readWriteBacking hfit (Working.kept sure i a _) (Working.kept sure i a
    (Reached sure i a f (.filled i (missingPageNum a)))) (.inl rfl) hlt hi.1
      (hi.lt_64 hfit) (by simp)
    hx (fun hno y hy => ?_) (fun y hinv hy => ?_) fun y hy => ?_
  · -- if the transfer fails, the frame has come no further
    obtain ⟨hfault, hlock, ⟨st, hhole, -⟩, hv⟩ := hy
    exact ⟨hfault, hlock, ⟨st, hhole, fun h => absurd h hno⟩, hv⟩
  · have hother : ∀ j, j ≠ i → y.1.holder .swapSem ≠ some j := fun j hj => hy.2.ne hj
    obtain ⟨hfault, hlock, ⟨st, hhole, hst⟩, hv⟩ := hy
    have hnone : y.1.holder .swapSem ≠ none := by
      rw [hlock]
      simp
    rw [transfer_read]
    refine ⟨y.2.work f (.filled i (missingPageNum a)), ⟨?_, hinv.coherent⟩, ⟨?_, hlock, ?_⟩,
      ?_, fun j hj => ?_⟩
    · refine hinv.core.readIn hfit ⟨rfl, rfl, rfl⟩ rfl rfl rfl hnone hf hhole hst hi hk hv
        (by simp [hfault.age]) rfl ?_
      rw [hn]
      rfl
    · exact ⟨hfault.dying, hfault.age, hfault.missing, hfault.unmapped⟩
    · exact ⟨⟨_, rfl, fun _ => rfl⟩, hv⟩
    · -- the frame is the one that has been chosen
      intro b hb _ hidle
      refine Ram.page_setPage_of_ne (hfit.swapAddr_aligned hf) hb ?_
      rintro rfl
      have hturn := hinv.core.table.turn f ⟨st, hhole⟩
      exact (hidle f hf rfl).2.elim hnone fun hne => hne hturn
    · have hrely := rely_read hfit (s := y.1) (g := y.2)
        (y.2.work f (.filled i (missingPageNum a))) hf (pageBlock i n) rfl
        fun hl => absurd hl (hother j hj)
      rwa [transfer_read] at hrely
  · rw [← hn]
    refine runs_enableInterrupts hfit (Working.kept sure i a _).toSteady hy fun y hy hm => ?_
    refine runs_map hfit (hm rfl) hi hf hy fun y hy => ?_
    refine runs_enableInterrupts hfit hdone.toSteady hy fun y hy _ => ?_
    refine runs_unlock hfit hdone.toSteady hy (C := fun z => z.2.age i = .live) (fun h => h.2.2)
      (fun h => h.1) fun y hy => ?_
    refine ⟨hy.inv, fun _ => ⟨hi, hy.own, fun m hm' => ?_⟩⟩
    exact absurd ((hy.held m).mp hm') (by simp)

/-- The page of the frame loses its mapping and is written back, and the fault goes on. -/
theorem runs_evict (hfit : PoolFits) {frame : Swap} {seg page : ℤ} {Q : Unit → Noted → Prop}
    (hi : IsUser i) (hf : f < Support.swapSize) (hasid : frame.swAsid ≠ -1) (hseg : seg ≠ kUseg3)
    (hpage : page = missingPageNum a)
    (hx : Point sure tapes i [.swapSem] (Working sure i a fun nextFrame pool pte hole =>
      nextFrame = f ∧ pool f = frame ∧ hole = none ∧
        (IsValid (pte (.uProc i (missingPageNum a))) →
          frame.swPte = some (.uProc i (missingPageNum a)))) x) :
    Prog.wpx ((outline sure tapes).spec i) (do
      enableInterrupts false
      match frame.swPte with
      | none => throw .stuck
      | some pte => sup (.setPteEntryLO pte ((← sup (.pteEntryLO pte)) &&& ~~~valid))
      sup .tlbclr
      enableInterrupts true
      let frame ← sup (.swapPool f)
      readWriteBacking frame.swPageNo frame.swAsid userProcHead writeBlk (swapAddr f)
      readWriteBacking page i userProcHead readBlk (swapAddr f)
      enableInterrupts false
      if seg = kUseg3 then
        sup (.setSwapPool f ⟨i, seg, page, some (.kUSeg3 page)⟩)
        sup (.setPteEntryLO (.kUSeg3 page) (swapAddr f ||| valid ||| dirty ||| global))
      else
        sup (.setSwapPool f ⟨i, seg, page, some (.uProc i page)⟩)
        sup (.setPteEntryLO (.uProc i page) (swapAddr f ||| valid ||| dirty))
      sup .tlbclr
      enableInterrupts true
      sup (.verhogen .swapSem)
      throw (.ldst i .tlbTrap)) Q (fun e => (outline sure tapes).post i (.error e)) x := by
  obtain ⟨-, -, -, hpool, -, -⟩ := hx.own
  have hactive : x.1.Active f := ⟨hf, hpool ▸ hasid⟩
  obtain ⟨i', k', hs⟩ := hx.inv.core.table.slot f hactive
  have hr : frame.swPte = some (.uProc i' k') := hpool ▸ hs.pte
  have hentry : frame.swAsid = i' ∧ frame.swPageNo = k' := ⟨hpool ▸ hs.asid, hpool ▸ hs.page⟩
  obtain ⟨n, hn⟩ : ∃ n : ℕ, k' = n := ⟨k'.toNat, by have := hs.isPage.1; omega⟩
  have hsize : kUsegPteSize = 32 := rfl
  have hlt : n < 2 ^ 16 := by
    have := hs.isPage.2
    omega
  have hkept := Working.kept sure i a fun _ pool pte hole => pool f = frame ∧
    hole = some (f, .out) ∧ ¬ IsValid (pte (.uProc i (missingPageNum a)))
  rw [Prog.wpx_bind]
  refine runs_enableInterrupts hfit (Working.kept sure i a _).toSteady hx fun y hy hm => ?_
  rw [hr]
  simp only [Prog.wpx_bind]
  refine runs_unmap hfit (hm rfl) hf hasid hr hy fun y hy => ?_
  refine runs_enableInterrupts hfit hkept.toSteady hy fun y hy _ => ?_
  refine runs_read hfit hkept.toSteady (fun s => s.swapPool f) (fun _ _ => rfl) hy fun y hy => ?_
  rw [hy.own.2.2.1, hentry.1, hentry.2, hn]
  refine runs_readWriteBacking hfit hkept (Working.kept sure i a (Reached sure i a f .gone))
    (.inr rfl)
    hlt hs.user.1 (hs.user.lt_64 hfit) (by simp) hy (fun hno y hy => ?_) (fun y hinv hy => ?_)
    fun y hy => ?_
  · obtain ⟨hfault, hlock, -, hhole, hv⟩ := hy
    exact ⟨hfault, hlock, ⟨_, hhole, fun h => absurd h hno⟩, hv⟩
  · have hother : ∀ j, j ≠ i → y.1.holder .swapSem ≠ some j := fun j hj => hy.2.ne hj
    obtain ⟨hfault, hlock, hpool', hhole, hv⟩ := hy
    have hnone : y.1.holder .swapSem ≠ none := by
      rw [hlock]
      simp
    have hactive' : y.1.Active f := ⟨hf, hpool' ▸ hasid⟩
    have hs' : Slot y f i' k' := by
      refine hinv.core.table.slot_of_pte hactive' ?_
      rw [hpool']
      exact hr
    have hblocks := transfer_write_blocks y.1.toHardware (swapAddr f) (pageBlock i' n)
    rw [transfer_write] at hblocks ⊢
    refine ⟨y.2.work f .gone, ⟨?_, hinv.coherent⟩, ⟨?_, hlock, ?_⟩, .of_ram rfl, fun j hj => ?_⟩
    · refine hinv.core.writeOut ⟨rfl, rfl, rfl⟩ rfl rfl rfl hnone hhole hs' hactive' rfl ?_
      rw [hn]
      exact hblocks
    · exact ⟨hfault.dying, hfault.age, hfault.missing, hfault.unmapped⟩
    · exact ⟨⟨_, rfl, fun _ => rfl⟩, hv⟩
    · have hrely := rely_write y.1 y.2 (y.2.work f .gone) (j := j) n
        (swapAddr f) hs.user.1 (fun hu hfresh he => ?_) rfl fun hl => absurd hl (hother j hj)
      · rwa [transfer_write] at hrely
      · exact (hinv.core.table.fresh j hu hfresh).1 f hf (he ▸ hs'.asid)
  · have hfill := runs_fill (Q := Q) hfit hi hf hseg hpage hy
    simp only [Prog.wpx_bind] at hfill
    exact hfill

/-- The holder of `swapSem` has come further with its frame. -/
theorem rely_work {j : ℤ} {st : Stage} (hlock : s.holder .swapSem ≠ some j) :
    Rely j (s, g) (s, g.work f st) :=
  { Rely.refl j (s, g) with
    pool hj := absurd hj hlock }

/-- The static variable of `chooseFrame`. -/
theorem runs_setNextFrame {P : (ℕ → Swap) → (PteRef → Word) → Prop} {Q : Unit → Noted → Prop}
    (hx : Point sure tapes i [.swapSem] (Working sure i a fun _ pool pte hole =>
      hole = none ∧ P pool pte) x)
    (hQ : ∀ y, Point sure tapes i [.swapSem] (Working sure i a fun nextFrame pool pte hole =>
      nextFrame = f ∧ hole = none ∧ P pool pte) y → Q () y) :
    Prog.wpx ((outline sure tapes).spec i) (sup (.setNextFrame f)) Q E x := by
  refine runs_op rfl (Working.kept sure i a _).toSteady hx fun y hy ans b s' _ _ hsem => ?_
  obtain ⟨-, rfl⟩ := Prod.mk.inj (Option.some.inj hsem)
  obtain ⟨hfault, hlock, hhole, hP⟩ := hy.own
  have hcore : Core sure tapes ({ y.1 with nextFrame := f }, y.2) := hy.inv.core.choose hhole
  refine ⟨fun _ => .of_lock hlock hfault.dying, y.2, fun j hj => ?_,
    hQ _ ⟨⟨hcore, hy.inv.coherent⟩, hy.held, ?_, hlock, rfl, hhole, hP⟩⟩
  · exact { Rely.refl j (y.1, y.2) with
      pool hl := absurd hl (hy.own.2.ne hj) }
  · exact ⟨hfault.dying, hfault.age, hfault.missing, hfault.unmapped⟩

/-- `vmMemHandler` -/
theorem runs_vmMemHandler (hfit : PoolFits) {cause : Word} {Q : Unit → Noted → Prop}
    (hi : IsUser i) (hx : Point sure tapes i [] (fun z => z.1.old i .tlbTrap sCause = cause ∧
      if cause ≠ tlbl ∧ cause ≠ tlbs then Dying sure i z else Faulting sure i a z) x) :
    Prog.wpx ((outline sure tapes).spec i) vmMemHandler Q
      (fun e => (outline sure tapes).post i (.error e)) x := by
  have hcausekept : Kept i fun z : Noted => z.1.old i .tlbTrap sCause = cause :=
    ⟨⟨fun h hr => (congrFun (congrFun hr.old .tlbTrap) sCause).trans h, fun _ h => h⟩,
      fun _ _ h => h, fun _ _ h => h, fun _ h => h⟩
  have h1 := hi.1
  simp only [vmMemHandler, chooseFrame, Prog.wpx_bind]
  by_cases hcause : cause ≠ tlbl ∧ cause ≠ tlbs
  · simp only [if_pos hcause] at hx
    have hkept := hcausekept.and (Dying.kept sure i)
    refine runs_read hfit hkept.toSteady (fun _ => word i <<< asidShift) (fun _ _ => rfl) hx
      fun y hy => ?_
    rw [asid_word (by omega) (hi.lt_64 hfit)]
    refine runs_read hfit hkept.toSteady (fun s => s.old i .tlbTrap sCause) (fun _ _ => rfl) hy
      fun y hy => ?_
    rw [hy.own.1, if_pos hcause]
    simp only [Prog.wpx_bind]
    exact runs_virtualDeath hfit hi (hy.imp And.right)
  · simp only [if_neg hcause] at hx
    have hkept := hcausekept.and (Faulting.kept sure i a)
    refine runs_read hfit hkept.toSteady (fun _ => word i <<< asidShift) (fun _ _ => rfl) hx
      fun y hy => ?_
    rw [asid_word (by omega) (hi.lt_64 hfit)]
    refine runs_read hfit hkept.toSteady (fun s => s.old i .tlbTrap sCause) (fun _ _ => rfl) hy
      fun y hy => ?_
    rw [hy.own.1, if_neg hcause]
    simp only [Prog.wpx_bind]
    refine runs_read hfit (Faulting.kept sure i a).toSteady (fun s => s.missing i) (fun _ _ => rfl)
      (hy.imp And.right) fun y hy => ?_
    rw [hy.own.missing]
    -- if the page is mapped, its frame is the one that is about to be chosen
    refine runs_lock hfit (Faulting.kept sure i a).toSteady hy (C := Working sure i a
      fun nextFrame pool pte hole => hole = none ∧ (IsValid (pte (.uProc i (missingPageNum a))) →
        (pool ((nextFrame + 1) % Support.swapSize)).swAsid ≠ -1 ∧
        (pool ((nextFrame + 1) % Support.swapSize)).swPte = some (.uProc i (missingPageNum a))))
      (fun {s g} hf hcalm hh => ⟨⟨hf.dying, hf.age, hf.missing, hf.unmapped⟩, ?_, hh, ?_⟩)
      fun y hy => ?_
    · exact onto_hold_self
    · intro hv
      have hno : ¬ sure := fun h => hf.unmapped h hv
      have hc := hcalm hno
      rw [Calm, if_neg (by simpa using hf.dying)] at hc
      have hpage : s.missingPage i = missingPageNum a := congrArg missingPageNum hf.missing
      rw [hpage] at hc
      exact hc hv
    refine runs_read hfit (Working.kept sure i a _).toSteady (fun s => s.nextFrame) (fun _ _ => rfl)
      hy fun y hy => ?_
    have hlt : (y.1.nextFrame + 1) % Support.swapSize < Support.swapSize := Nat.mod_lt _ hfit.frames
    generalize hchosen : (y.1.nextFrame + 1) % Support.swapSize = f at hlt
    refine runs_setNextFrame (P := fun pool pte => IsValid (pte (.uProc i (missingPageNum a))) →
      (pool f).swAsid ≠ -1 ∧ (pool f).swPte = some (.uProc i (missingPageNum a)))
      (hy.imp fun h => ⟨h.1, h.2.1, h.2.2.1, hchosen ▸ h.2.2.2⟩) fun y hy => ?_
    rw [Prog.wpx_pure]
    refine runs_op rfl (Working.kept sure i a _).toSteady hy fun y hy ans frame s' _ _ hsem => ?_
    obtain ⟨rfl, rfl⟩ := Prod.mk.inj (Option.some.inj hsem)
    obtain ⟨hfault, hlock, hturn, hhole, hmine⟩ := hy.own
    have hseg := missingSegNum_ne a
    by_cases hasid : (y.1.swapPool f).swAsid ≠ -1
    · refine ⟨fun _ => .of_lock hlock hfault.dying, y.2, fun j _ => Rely.refl j y, ?_⟩
      rw [if_pos hasid]
      refine runs_evict hfit hi hlt hasid hseg rfl
        ⟨hy.inv, hy.held, hfault, hlock, hturn, rfl, hhole, ?_⟩
      exact fun hv => (hmine hv).2
    · have hnone : y.1.holder .swapSem ≠ none := by
        rw [hlock]
        simp
      have hfree : (y.1.swapPool f).swAsid = -1 := not_not.mp hasid
      refine ⟨fun _ => .of_lock hlock hfault.dying, y.2.work f .gone,
        fun j hj => rely_work (hy.own.2.ne hj), ?_⟩
      rw [if_neg hasid]
      refine runs_fill hfit hi hlt hseg rfl ⟨⟨?_, hy.inv.coherent⟩, hy.held, ?_, hlock, ?_⟩
      · exact hy.inv.core.take hhole hnone hturn hlt hfree
      · exact ⟨hfault.dying, hfault.age, hfault.missing, hfault.unmapped⟩
      · exact ⟨⟨_, rfl, fun _ => rfl⟩, fun hv => (hmine hv).1 hfree⟩

end

end Paging

end Jaeos
