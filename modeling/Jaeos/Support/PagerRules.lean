import Jaeos.Support.PagerSteps
import Jaeos.Support.Fault
import Jaeos.Support.Sections

/-!
# Rules for the operations of the pager

The outline of the proofs about the pager, and a rule for each operation or pair of operations:
what holds after it for the process that performs it. What a process knows is a predicate that the
others keep (`Steady`), and that its own use of mutexes and of the backing store keeps (`Kept`).
-/

namespace Jaeos

/-- The arm of the backing store moves. -/
def Hardware.setArm (s : Hardware) (cylinder : ℕ) : Hardware :=
  { s with arm := Function.update s.arm backingStore cylinder }

theorem Hardware.setArm_arm (s : Hardware) (n : ℕ) : (s.setArm n).arm backingStore = n := by
  change Function.update s.arm backingStore n backingStore = n
  exact Function.update_self ..

/-- A device does not touch the mutexes. -/
theorem Hardware.complete_holder (s : Hardware) (line dev : ℤ) (status : Word) :
    (s.complete line dev status).holder = s.holder := by
  unfold complete diskCommand tapeCommand
  repeat' split
  all_goals rfl

namespace Paging

open Hardware

/-! ## What is followed, and what is good -/

/-- A device that a process waits for reports `READY`. -/
def Answered (ans : Word) : ∀ β, SupOp β → Prop
  | _, .waitForIo _ _ _ => ans = ready
  | _, _ => True

instance (ans : Word) (β : Type) (o : SupOp β) : Decidable (Answered ans β o) := by
  unfold Answered
  split <;> infer_instance

section

variable [Support]

/-- A user page is mapped exactly if one frame in use is its own, and then to this frame. -/
def Consistent (s : Paging) : Prop := ∀ r : PteRef, r.IsUser →
  (IsValid (s.pte r) ↔ ∃! f, s.Active f ∧ (s.swapPool f).swPte = some r) ∧
  ∀ f, IsValid (s.pte r) → s.Active f → (s.swapPool f).swPte = some r →
    frameAddress (s.pte r) = swapAddr f

/-- A process that is about to take `swapSem` has no frame if it dies; and if its missing page is
mapped, the frame it is going to take is the one of this page. -/
def Calm (s : Paging) (i : ℤ) : Prop :=
  if s.dying i then ∀ f < Support.swapSize, (s.swapPool f).swAsid ≠ i
  else IsValid (s.pte (.uProc i (s.missingPage i))) →
    s.victim.swAsid ≠ -1 ∧ s.victim.swPte = some (.uProc i (s.missingPage i))

instance (s : Paging) (i : ℤ) : Decidable (s.Calm i) := by
  unfold Calm
  infer_instance

/-- The process takes `swapSem` only if it is calm. -/
def TakesCalmly (i : ℤ) : ∀ β, SupOp β → Paging → Prop
  | _, .passeren .swapSem, s => s.Calm i
  | _, _, _ => True

instance (i : ℤ) (β : Type) (o : SupOp β) (s : Paging) : Decidable (TakesCalmly i β o s) := by
  unfold TakesCalmly
  split <;> infer_instance

/-- A step of a process that dies: it changes neither the pool nor a table, and once it has
`swapSem` it has no frame, and none of its pages is mapped. -/
structure Dies (i : ℤ) (s s' : Paging) : Prop where
  /-- the pool -/
  swapPool : s'.swapPool = s.swapPool
  /-- the tables -/
  pte : s'.pte = s.pte
  /-- its frames -/
  frames : s.holder .swapSem = some i → ∀ f < Support.swapSize, (s'.swapPool f).swAsid ≠ i
  /-- its pages -/
  pages : s.holder .swapSem = some i → ∀ k, (PteRef.uProc i k).IsUser →
    ¬ IsValid (s'.pte (.uProc i k))

/-- After a step of a process the pool and the tables agree if `swapSem` is free. -/
structure Settles (i : ℤ) (s s' : Paging) : Prop where
  /-- the pool and the tables -/
  consistent : s'.holder .swapSem = none → s'.Consistent
  /-- a process that dies -/
  dies : s.dying i = true → Dies i s s'

/-- `EntryHi` names this page of kUseg2: its number is that of its entry, but for the last page of
the stack. -/
def Names (entryHi : Word) (k : ℤ) : Prop :=
  IsPage k ∧ entryHi >>> 12 = if k = 31 then 0xBFFFF else 0x80000 + word k

instance (entryHi : Word) (k : ℤ) : Decidable (Names entryHi k) :=
  inferInstanceAs (Decidable (_ ∧ _))

/-- A TLB exception is for a page of kUseg2 that has an entry and is not mapped. -/
def Faithful (i : ℤ) (l : Act) (s : Paging) : Prop :=
  match l with
  | .fault cause entryHi =>
    cause = tlbl ∨ cause = tlbs → ∃ k, Names entryHi k ∧ ¬ IsValid (s.pte (.uProc i k))
  | _ => True

omit [Support] in
/-- `missingPageNum` finds the entry of the page. -/
theorem Names.missingPageNum_eq {entryHi : Word} {k : ℤ} (h : Names entryHi k) :
    missingPageNum entryHi = k := by
  obtain ⟨⟨h0, h32⟩, hvpn⟩ := h
  have hsize : kUsegPteSize = 32 := rfl
  have hmask : ((entryHi &&& 0x3FFFF000) >>> 12 : Word) = (entryHi >>> 12) &&& 0x3FFFF := by
    apply BitVec.eq_of_getLsbD_eq
    intro j hj
    rw [BitVec.getLsbD_ushiftRight, BitVec.getLsbD_and, BitVec.getLsbD_and,
      BitVec.getLsbD_ushiftRight]
    congr 1
    interval_cases j <;> rfl
  rw [hsize] at h32
  rw [missingPageNum, hmask, hvpn, hsize]
  interval_cases k <;> rfl

instance (i : ℤ) (s : Paging) : ∀ l, Decidable (Faithful i l s)
  | .fault cause entryHi =>
    have h : (cause = tlbl ∨ cause = tlbs → Names entryHi (missingPageNum entryHi) ∧
        ¬ IsValid (s.pte (.uProc i (missingPageNum entryHi)))) ↔
        Faithful i (.fault cause entryHi) s := by
      refine imp_congr_right fun _ => ⟨fun h => ⟨_, h⟩, ?_⟩
      rintro ⟨k, hk, hv⟩
      rw [hk.missingPageNum_eq]
      exact ⟨hk, hv⟩
    decidable_of_iff _ h
  | .load _ _ _ _ | .store _ _ _ _ | .death => .isTrue trivial

/-- The page at this address is not that of a frame that is in use or about to be. -/
def Idle (s : Paging) (a : Word) : Prop := ∀ f < Support.swapSize, swapAddr f = a →
  (s.swapPool f).swAsid = -1 ∧ (s.holder .swapSem = none ∨ s.nextFrame ≠ f)

instance (s : Paging) (a : Word) : Decidable (s.Idle a) :=
  inferInstanceAs (Decidable (∀ _ < _, _ → _))

/-- A page that is neither a buffer nor that of such a frame stays as it is. -/
def Spares (s s' : Paging) : Prop := ∀ a : Word, a.Aligned → (∀ p, IsUser p → a ≠ tapeBuffer p) →
  s.Idle a → s'.ram.page a = s.ram.page a

theorem Spares.of_ram {s s' : Paging} (h : s'.ram = s.ram) : Spares s s' :=
  fun a _ _ _ => congrArg (Ram.page · a) h

omit [Support] in
theorem sem_ram {α : Type} {o : SupOp α} {i : ℤ} {ans : Word} {b : α} {s s' : Paging}
    (ho : transfers o = false) (h : (sem i ans α o).run s = some (b, s')) : s'.ram = s.ram := by
  cases o with
  | tlbclr | nextFrame | setNextFrame | swapPool | setSwapPool | pteEntryLO | setPteEntryLO =>
    obtain ⟨-, rfl⟩ := Prod.mk.inj (Option.some.inj h)
    rfl
  | _ =>
    simp only [sem, StateT.run, Option.map_eq_some_iff] at h
    obtain ⟨r, hr, heq⟩ := h
    obtain ⟨-, rfl⟩ := Prod.mk.inj heq
    exact Hardware.sem_ram ho hr

/-- A load gives what is expected. -/
def LoadsRight (tapes : ℤ → List Page) (i : ℤ) (l : Act) (s : Paging) : Prop :=
  ∀ k w v keep u, l = .load (.uProc i k) w v keep → s.expected tapes i k w = some u → v = u

/-- The outline of the proofs. If `sure`, every transfer succeeds and a fault is for a page that is
not mapped, and loads are right; else processes take `swapSem` calmly, and the pool and the tables
agree. In any case pages that nobody uses stay as they are. -/
def outline (sure : Prop) (tapes : ℤ → List Page) : threads.Outline Record where
  inv := Inv sure tapes
  rely := Rely
  good i _ _ s s' := Spares s s' ∧ (¬ sure → Settles i s s')
  goodAct i l s s' := Spares s s' ∧ (sure → LoadsRight tapes i l s) ∧
    (¬ sure → s'.holder .swapSem = none → s'.Consistent)
  allow i ans β o s := (sure → Answered ans β o) ∧ (¬ sure → TakesCalmly i β o s)
  allowAct i l s := sure → Faithful i l s
  done i a x := InUserMode a → IsUser i ∧ x.2.age i = .live ∧ ∀ m, x.1.holder m ≠ some i

variable {sure : Prop} {tapes : ℤ → List Page} {s s' : Paging} {g g' : Record} {i : ℤ}

/-- The pool and the tables agree if transfers may fail and nobody is at work. -/
theorem Core.consistent (hfit : PoolFits) (h : Core sure tapes (s, g)) (hsure : ¬ sure)
    (hfree : s.holder .swapSem = none) : s.Consistent := by
  have hclosed : ∀ f, ¬ g.Open f := fun f => Record.not_open (h.table.lock hfree)
  intro r hr
  cases r with
  | kUSeg3 k =>
    have hv := h.table.shared k hr
    refine ⟨iff_of_false hv ?_, fun f hv' => absurd hv' hv⟩
    rintro ⟨f, ⟨hf, hpte⟩, -⟩
    obtain ⟨i, l, hs⟩ := h.table.slot f hf
    have heq := hpte.symm.trans hs.pte
    simp at heq
  | uProc i k =>
    have hslot : ∀ f, s.Active f → (s.swapPool f).swPte = some (.uProc i k) →
        s.pte (.uProc i k) = mapping f :=
      fun f hf hpte => (h.table.slot_of_pte hf hpte).mapped (hclosed f)
    refine ⟨⟨fun hv => ?_, ?_⟩, fun f _ hf hpte => ?_⟩
    · obtain ⟨f, hf, hpte⟩ := h.table.mapped i k hr.1 hr.2 (h.ages hsure i) hv
      refine ⟨f, ⟨hf, hpte⟩, ?_⟩
      rintro f' ⟨hf', hpte'⟩
      exact h.table.slot_inj hfit hf' hf hpte' hpte
    · rintro ⟨f, ⟨hf, hpte⟩, -⟩
      rw [hslot f hf hpte]
      exact isValid_mapping f
    · rw [hslot f hf hpte]
      exact hfit.frameAddress_mapping hf.1

/-- A step that leaves the pool and the tables alone. -/
theorem Settles.of_same (hfit : PoolFits) (hsure : ¬ sure) (h : Core sure tapes (s, g))
    (h' : Core sure tapes (s', g')) (hsame : SamePool s s') : Settles i s s' where
  consistent hfree := h'.consistent hfit hsure hfree
  dies hd := by
    refine ⟨hsame.swapPool, hsame.pte, fun hl f hf => ?_, fun hl k hk hv => ?_⟩
    · rw [hsame.swapPool]
      exact h.doomed hsure i hd hl f hf
    · rw [hsame.pte] at hv
      obtain ⟨f, hf, hpte⟩ := h.table.mapped i k hk.1 hk.2 (h.ages hsure i) hv
      exact h.doomed hsure i hd hl f hf.1 (h.table.slot_of_pte hf hpte).asid

/-- A step of a process that holds `swapSem` and does not die. -/
theorem Settles.of_lock (hlock : s'.holder .swapSem = some i) (hd : s.dying i = false) :
    Settles i s s' where
  consistent hfree := absurd (hlock.symm.trans hfree) (by simp)
  dies hd' := absurd (hd.symm.trans hd') (by simp)

/-! ## What a process knows -/

/-- Its interrupts are disabled. -/
def Masked (i : ℤ) (s : Paging) : Prop := Word.Disabled (s.status i)

/-- What a process knows is kept by the others, and when it sets its status register. -/
structure Steady (i : ℤ) (B : Noted → Prop) : Prop where
  /-- the others -/
  rely : ∀ {x y}, B x → Rely i x y → B y
  /-- its status register -/
  status : ∀ {s g} v, B (s, g) → B (s.onto (s.setStatus i v), g)

/-- It is also kept when it uses mutexes, and the backing store. -/
structure Kept (i : ℤ) (B : Noted → Prop) : Prop extends Steady i B where
  /-- a mutex -/
  hold : ∀ {s g m} o, m ≠ .swapSem → B (s, g) → B (s.onto (s.hold m o), g)
  /-- the registers of the backing store -/
  reg : ∀ {s g} f v, B (s, g) → B (s.onto (s.setReg backingStore f v), g)
  /-- its arm -/
  arm : ∀ {s g} a, B (s, g) → B (s.onto (s.setArm a), g)

/-- Where a process is between two operations: the invariant holds, it holds these mutexes, and
knows `B`. -/
structure Point (sure : Prop) (tapes : ℤ → List Page) (i : ℤ) (L : List Sem) (B : Noted → Prop)
    (x : Noted) : Prop where
  /-- the invariant -/
  inv : Inv sure tapes x
  /-- its mutexes -/
  held : ∀ m, x.1.holder m = some i ↔ m ∈ L
  /-- what it knows -/
  own : B x

variable {L L' : List Sem} {B C : Noted → Prop} {x y : Noted}

theorem Point.rely (hB : Steady i B) (h : Point sure tapes i L B x) (hr : Rely i x y)
    (hinv : Inv sure tapes y) : Point sure tapes i L B y :=
  ⟨hinv, fun m => (hr.holder m).symm.trans (h.held m), hB.rely h.own hr⟩

theorem Point.imp (h : Point sure tapes i L B x) (hBC : B x → C x) : Point sure tapes i L C x :=
  ⟨h.inv, h.held, hBC h.own⟩

/-! ## Rules for single operations -/

variable {β : Type} {o : SupOp β} {Q : β → Noted → Prop} {E : End → Noted → Prop}

/-- An operation before which the process may lose the processor. -/
theorem runs_step (hB : Steady i B) (hx : Point sure tapes i L B x)
    (hstep : ∀ y, Point sure tapes i L B y → ∀ ans b s', (sure → Answered ans β o) →
      (¬ sure → TakesCalmly i β o y.1) → (sem i ans β o).run y.1 = some (b, s') →
      Spares y.1 s' ∧ (¬ sure → Settles i y.1 s') ∧
        ∃ g', (∀ j, j ≠ i → Rely j y (s', g')) ∧ Q b (s', g')) :
    Prog.wpx ((outline sure tapes).spec i) (sup o) Q E x := by
  refine ⟨fun _ => hx.inv, ?_⟩
  rintro y (rfl | ⟨-, hrely, hinv⟩) ans b s' hallow hsem
  · obtain ⟨hspares, hsettles, hQ⟩ := hstep y hx ans b s' hallow.1 hallow.2 hsem
    exact ⟨⟨hspares, hsettles⟩, hQ⟩
  · obtain ⟨hspares, hsettles, hQ⟩ :=
      hstep y (hx.rely hB hrely hinv) ans b s' hallow.1 hallow.2 hsem
    exact ⟨⟨hspares, hsettles⟩, hQ⟩

/-- So it is with one that leaves memory alone. -/
theorem runs_op (ho : transfers o = false) (hB : Steady i B) (hx : Point sure tapes i L B x)
    (hstep : ∀ y, Point sure tapes i L B y → ∀ ans b s', (sure → Answered ans β o) →
      (¬ sure → TakesCalmly i β o y.1) → (sem i ans β o).run y.1 = some (b, s') →
      (¬ sure → Settles i y.1 s') ∧
        ∃ g', (∀ j, j ≠ i → Rely j y (s', g')) ∧ Q b (s', g')) :
    Prog.wpx ((outline sure tapes).spec i) (sup o) Q E x :=
  runs_step hB hx fun y hy ans b s' hans hcalm hsem =>
    ⟨.of_ram (sem_ram ho hsem), hstep y hy ans b s' hans hcalm hsem⟩

/-- An operation that only reads. -/
theorem runs_read (hfit : PoolFits) (hB : Steady i B) (f : Paging → β)
    (hrun : ∀ ans s, (sem i ans β o).run s = some (f s, s)) (hx : Point sure tapes i L B x)
    (hQ : ∀ y, Point sure tapes i L B y → Q (f y.1) y) :
    Prog.wpx ((outline sure tapes).spec i) (sup o) Q E x := by
  refine runs_step hB hx fun y hy ans b s' _ _ hsem => ?_
  obtain ⟨rfl, rfl⟩ := Prod.mk.inj (Option.some.inj ((hrun ans y.1).symm.trans hsem))
  exact ⟨.of_ram rfl, fun hsure => .of_same hfit hsure hy.inv.core hy.inv.core ⟨rfl, rfl, rfl⟩, y.2,
    fun j _ => Rely.refl j y, hQ y hy⟩

/-- An operation with interrupts disabled. -/
theorem runs_masked (hm : Masked i x.1) (ho : atSyscall o = false) (b : β) (s' : Paging)
    (g' : Record) (hrun : ∀ ans, (sem i ans β o).run x.1 = some (b, s'))
    (hgood : ¬ sure → Settles i x.1 s') (hrely : ∀ j, j ≠ i → Rely j x (s', g'))
    (hQ : Q b (s', g')) :
    Prog.wpx ((outline sure tapes).spec i) (sup o) Q E x := by
  have hy : threads.yields i β o x.1 = false := by
    change (atSyscall o || decide (x.1.status i &&& allIntDisabled ≠ allIntDisabled)) = false
    rw [ho, Bool.false_or, decide_eq_false_iff_not, not_not]
    exact hm
  refine ⟨fun h => absurd (hy.symm.trans h) (by simp), ?_⟩
  rintro y (rfl | ⟨h, -, -⟩) ans b' s'' _ hsem
  · have htransfers : transfers o = false := by
      cases o with
      | waitForIo => cases ho
      | _ => rfl
    have hram := sem_ram htransfers hsem
    obtain ⟨rfl, rfl⟩ := Prod.mk.inj (Option.some.inj ((hrun ans).symm.trans hsem))
    exact ⟨⟨.of_ram hram, hgood⟩, g', hrely, hQ⟩
  · exact absurd (hy.symm.trans h) (by simp)

/-! ## The status register -/

theorem Inv.setStatus (h : Inv sure tapes (s, g)) (v : Word) :
    Inv sure tapes (s.onto (s.setStatus i v), g) :=
  ⟨h.core.still ⟨rfl, rfl, rfl⟩ rfl rfl rfl rfl rfl, h.coherent⟩

theorem rely_setStatus {j : ℤ} (hj : j ≠ i) (v : Word) :
    Rely j (s, g) (s.onto (s.setStatus i v), g) :=
  { Rely.refl j (s, g) with
    status := Function.update_of_ne hj .. }

theorem runs_setStatus (hfit : PoolFits) (hB : Steady i B) {v : Word}
    {Q : Unit → Noted → Prop} (hx : Point sure tapes i L B x)
    (hQ : ∀ y, Point sure tapes i L B y → y.1.status i = v → Q () y) :
    Prog.wpx ((outline sure tapes).spec i) (sup (.setSTATUS v)) Q E x := by
  refine runs_op rfl hB hx fun y hy ans b s' _ _ hsem => ?_
  obtain ⟨-, rfl⟩ := Prod.mk.inj (Option.some.inj hsem)
  have hinv : Inv sure tapes (y.1.onto (y.1.setStatus i v), y.2) := Inv.setStatus hy.inv v
  refine ⟨fun hsure => .of_same hfit hsure hy.inv.core hinv.core ⟨rfl, rfl, rfl⟩, y.2,
    fun j hj => rely_setStatus hj v, hQ _ ⟨hinv, hy.held, hB.status v hy.own⟩ ?_⟩
  exact Function.update_self ..

/-- `enableInterrupts` -/
theorem runs_enableInterrupts (hfit : PoolFits) (hB : Steady i B) {on : Bool}
    {Q : Unit → Noted → Prop} (hx : Point sure tapes i L B x)
    (hQ : ∀ y, Point sure tapes i L B y → (on = false → Masked i y.1) → Q () y) :
    Prog.wpx ((outline sure tapes).spec i) (enableInterrupts on) Q E x := by
  simp only [enableInterrupts, Prog.wpx_bind]
  refine runs_read hfit hB (fun s => s.status i) (fun _ _ => rfl) hx fun y hy => ?_
  refine runs_setStatus hfit hB hy fun z hz hv => hQ z hz fun hon => ?_
  rw [Masked, hv, hon]
  exact disabled_or _

/-! ## Mutexes -/

theorem Inv.hold (h : Inv sure tapes (s, g)) {m : Sem} (hm : m ≠ .swapSem) (o : Option ℤ) :
    Inv sure tapes (s.onto (s.hold m o), g) := by
  have hlock : Function.update s.holder m o .swapSem = s.holder .swapSem :=
    Function.update_of_ne hm.symm ..
  refine ⟨h.core.stay ⟨rfl, rfl, rfl⟩ rfl (fun hl => ?_) (fun hsure j hd hl => ?_) (fun _ _ => rfl)
    fun _ _ _ _ => rfl, h.coherent⟩
  · exact h.core.table.lock (hlock ▸ hl)
  · exact h.core.doomed hsure j hd (hlock ▸ hl)

/-- A process takes a mutex that is free, or releases its own. -/
theorem rely_hold {j : ℤ} {m : Sem} {o : Option ℤ} (hm : s.holder m ≠ some j) (ho : o ≠ some j) :
    Rely j (s, g) (s.onto (s.hold m o), g) :=
  { Rely.refl j (s, g) with
    holder m' := by
      by_cases hmm : m' = m
      · subst hmm
        refine iff_of_false hm ?_
        change Function.update s.holder m' o m' ≠ some j
        rwa [Function.update_self]
      · exact iff_of_eq (congrArg (· = some j) (Function.update_of_ne hmm ..).symm) }

omit [Support] in
theorem sem_passeren {ans : Word} {m : Sem} {b : Unit}
    (h : (sem i ans Unit (.passeren m)).run s = some (b, s')) :
    s.holder m = none ∧ s' = s.onto (s.hold m (some i)) := by
  simp only [sem, Hardware.sem, Hardware.passeren, StateT.run] at h
  split at h
  · next hfree => exact ⟨hfree, (Prod.mk.inj (Option.some.inj h)).2.symm⟩
  · cases h

omit [Support] in
theorem sem_verhogen {ans : Word} {m : Sem} {b : Unit} (hm : m ≠ .masterSem)
    (h : (sem i ans Unit (.verhogen m)).run s = some (b, s')) :
    s.holder m = some i ∧ s' = s.onto (s.hold m none) := by
  have hv : (Hardware.sem i ans Unit (.verhogen m)) =
      fun h => (h.verhogen i m).map fun h' => ((), h') := by
    cases m with
    | masterSem => exact absurd rfl hm
    | _ => rfl
  simp only [sem, hv, Hardware.verhogen, StateT.run] at h
  split at h
  · next hheld => exact ⟨hheld, (Prod.mk.inj (Option.some.inj h)).2.symm⟩
  · cases h

omit [Support] in
theorem onto_hold_self {m : Sem} {o : Option ℤ} : (s.onto (s.hold m o)).holder m = o :=
  Function.update_self ..

omit [Support] in
theorem held_cons {m : Sem} (hheld : ∀ m, s.holder m = some i ↔ m ∈ L) :
    ∀ m', (s.onto (s.hold m (some i))).holder m' = some i ↔ m' ∈ m :: L := by
  intro m'
  change Function.update s.holder m (some i) m' = some i ↔ _
  by_cases hmm : m' = m
  · simp [hmm]
  · rw [Function.update_of_ne hmm, hheld, List.mem_cons]
    simp [hmm]

omit [Support] in
theorem held_tail {m : Sem} (hm : m ∉ L) (hheld : ∀ m', s.holder m' = some i ↔ m' ∈ m :: L) :
    ∀ m', (s.onto (s.hold m none)).holder m' = some i ↔ m' ∈ L := by
  intro m'
  change Function.update s.holder m none m' = some i ↔ _
  by_cases hmm : m' = m
  · subst hmm
    simp [hm]
  · rw [Function.update_of_ne hmm, hheld, List.mem_cons]
    simp [hmm]

/-- P on a mutex. -/
theorem runs_passeren (hfit : PoolFits) (hB : Kept i B) {m : Sem} (hm : m ≠ .swapSem)
    {Q : Unit → Noted → Prop} (hx : Point sure tapes i L B x)
    (hQ : ∀ y, Point sure tapes i (m :: L) B y → Q () y) :
    Prog.wpx ((outline sure tapes).spec i) (sup (.passeren m)) Q E x := by
  refine runs_op rfl hB.toSteady hx fun y hy ans b s' _ _ hsem => ?_
  obtain ⟨hfree, rfl⟩ := sem_passeren hsem
  have hinv : Inv sure tapes (y.1.onto (y.1.hold m (some i)), y.2) := Inv.hold hy.inv hm _
  refine ⟨fun hsure => .of_same hfit hsure hy.inv.core hinv.core ⟨rfl, rfl, rfl⟩, y.2,
    fun j hj => rely_hold (by simp [hfree]) (by simpa using hj.symm), hQ _ ⟨hinv, ?_, ?_⟩⟩
  · exact held_cons hy.held
  · exact hB.hold _ hm hy.own

/-- V on a mutex. -/
theorem runs_verhogen (hfit : PoolFits) (hB : Kept i B) {m : Sem} (hm : m ≠ .swapSem)
    (hmaster : m ≠ .masterSem) (hL : m ∉ L) {Q : Unit → Noted → Prop}
    (hx : Point sure tapes i (m :: L) B x) (hQ : ∀ y, Point sure tapes i L B y → Q () y) :
    Prog.wpx ((outline sure tapes).spec i) (sup (.verhogen m)) Q E x := by
  refine runs_op rfl hB.toSteady hx fun y hy ans b s' _ _ hsem => ?_
  obtain ⟨hheld, rfl⟩ := sem_verhogen hmaster hsem
  have hinv : Inv sure tapes (y.1.onto (y.1.hold m none), y.2) := Inv.hold hy.inv hm _
  refine ⟨fun hsure => .of_same hfit hsure hy.inv.core hinv.core ⟨rfl, rfl, rfl⟩, y.2,
    fun j hj => rely_hold (by simpa [hheld] using hj.symm) (by simp), hQ _ ⟨hinv, ?_, ?_⟩⟩
  · exact held_tail hL hy.held
  · exact hB.hold _ hm hy.own

/-- P on `swapSem` -/
theorem runs_lock (hfit : PoolFits) (hB : Steady i B) {Q : Unit → Noted → Prop}
    (hx : Point sure tapes i [] B x)
    (hC : ∀ {s g}, B (s, g) → (¬ sure → s.Calm i) → g.hole = none →
      C (s.onto (s.hold .swapSem (some i)), g))
    (hQ : ∀ y, Point sure tapes i [.swapSem] C y → Q () y) :
    Prog.wpx ((outline sure tapes).spec i) (sup (.passeren .swapSem)) Q E x := by
  refine runs_op rfl hB hx fun y hy ans b s' _ hcalm hsem => ?_
  obtain ⟨hfree, rfl⟩ := sem_passeren hsem
  have hhole := hy.inv.core.table.lock hfree
  have hcore : Core sure tapes (y.1.onto (y.1.hold .swapSem (some i)), y.2) := by
    refine hy.inv.core.stay ⟨rfl, rfl, rfl⟩ rfl (fun _ => hhole) (fun hsure j hd hl => ?_)
      (fun _ _ => rfl)
      fun _ _ _ _ => rfl
    -- it is calm
    obtain rfl := Option.some.inj (onto_hold_self.symm.trans hl)
    have hc : y.1.Calm i := hcalm hsure
    rw [Calm, if_pos (show y.1.dying i = true from hd)] at hc
    exact hc
  refine ⟨fun hsure => .of_same hfit hsure hy.inv.core hcore ⟨rfl, rfl, rfl⟩, y.2,
    fun j hj => rely_hold (by simp [hfree]) (by simpa using hj.symm),
    hQ _ ⟨⟨hcore, hy.inv.coherent⟩, held_cons hy.held, hC hy.own hcalm hhole⟩⟩

/-- V on `swapSem` -/
theorem runs_unlock (hfit : PoolFits) (hB : Steady i B) {Q : Unit → Noted → Prop}
    (hx : Point sure tapes i [.swapSem] B x) (hhole : ∀ {y}, B y → y.2.hole = none)
    (hC : ∀ {s g}, B (s, g) → C (s.onto (s.hold .swapSem none), g))
    (hQ : ∀ y, Point sure tapes i [] C y → Q () y) :
    Prog.wpx ((outline sure tapes).spec i) (sup (.verhogen .swapSem)) Q E x := by
  refine runs_op rfl hB hx fun y hy ans b s' _ _ hsem => ?_
  obtain ⟨hheld, rfl⟩ := sem_verhogen (by simp) hsem
  have hcore : Core sure tapes (y.1.onto (y.1.hold .swapSem none), y.2) := by
    refine hy.inv.core.stay ⟨rfl, rfl, rfl⟩ rfl (fun _ => hhole hy.own) (fun hsure j hd hl => ?_)
      (fun _ _ => rfl) fun _ _ _ _ => rfl
    exact absurd (onto_hold_self.symm.trans hl) (by simp)
  refine ⟨fun hsure => .of_same hfit hsure hy.inv.core hcore ⟨rfl, rfl, rfl⟩, y.2,
    fun j hj => rely_hold (by simpa [hheld] using hj.symm) (by simp),
    hQ _ ⟨⟨hcore, hy.inv.coherent⟩, held_tail (by simp) hy.held, hC hy.own⟩⟩

/-! ## The backing store -/

/-- The registers of a device do not matter. -/
theorem Inv.setReg (h : Inv sure tapes (s, g)) (dev : ℤ) (f : DevField) (v : Word) :
    Inv sure tapes (s.onto (s.setReg dev f v), g) :=
  ⟨h.core.still ⟨rfl, rfl, rfl⟩ rfl rfl rfl rfl rfl, h.coherent⟩

theorem Inv.setArm (h : Inv sure tapes (s, g)) (n : ℕ) :
    Inv sure tapes (s.onto (s.setArm n), g) :=
  ⟨h.core.still ⟨rfl, rfl, rfl⟩ rfl rfl rfl rfl rfl, h.coherent⟩

/-- A process sets a register of the backing store, if it has the mutex, or of its tape. -/
theorem rely_setReg {j dev : ℤ} (hdisk : dev = 0 → s.holder (.mutexSemArray backingStore) ≠ some j)
    (htape : IsUser j → dev ≠ tapeDev j) (f : DevField) (v : Word) :
    Rely j (s, g) (s.onto (s.setReg dev f v), g) :=
  { Rely.refl j (s, g) with
    disk hj := ⟨Function.update_of_ne (fun hd => hdisk hd.symm hj) .., rfl⟩
    tape hj := ⟨rfl, Function.update_of_ne (htape hj).symm ..⟩ }

theorem rely_setArm {j : ℤ} (hdisk : s.holder (.mutexSemArray backingStore) ≠ some j) (n : ℕ) :
    Rely j (s, g) (s.onto (s.setArm n), g) :=
  { Rely.refl j (s, g) with
    disk hj := absurd hj hdisk }

omit [Support] in
/-- The backing store is not a tape. -/
theorem zero_ne_tapeDev {j : ℤ} (hj : 1 ≤ j) : (0 : ℤ) ≠ tapeDev j := by
  have hdev : tapeDev j = 8 + (j - 1) := rfl
  omega

theorem Steady.and (hB : Steady i B) (hC : Steady i C) : Steady i fun x => B x ∧ C x where
  rely h hr := ⟨hB.rely h.1 hr, hC.rely h.2 hr⟩
  status v h := ⟨hB.status v h.1, hC.status v h.2⟩

theorem Steady.imp {P : Prop} (hC : P → Steady i C) : Steady i fun x => P → C x where
  rely h hr hP := (hC hP).rely (h hP) hr
  status v h hP := (hC hP).status v (h hP)

/-- The process uses the backing store, and its arm is at this cylinder. -/
def Armed (i : ℤ) (n : ℕ) (x : Noted) : Prop :=
  x.1.holder (.mutexSemArray backingStore) = some i ∧ x.1.arm backingStore = n

theorem Armed.steady (i : ℤ) (n : ℕ) : Steady i (Armed i n) where
  rely h hr := ⟨(hr.holder _).mp h.1, (hr.disk h.1).2.trans h.2⟩
  status _ h := h

/-- The process uses the backing store, and has set these registers. -/
def Told (i : ℤ) (P : (DevField → Word) → Prop) (x : Noted) : Prop :=
  x.1.holder (.mutexSemArray backingStore) = some i ∧ P (x.1.reg backingStore)

theorem Told.steady (i : ℤ) (P : (DevField → Word) → Prop) : Steady i (Told i P) where
  rely h hr := ⟨(hr.holder _).mp h.1, (hr.disk h.1).1.symm ▸ h.2⟩
  status _ h := h

/-- A process that uses the backing store sets one of its registers. -/
theorem runs_writeDisk (hfit : PoolFits) (hB : Kept i B) {f : DevField} {v : Word}
    {Q : Unit → Noted → Prop} (hm : Masked i x.1)
    (hL : .mutexSemArray backingStore ∈ L) (hx : Point sure tapes i L B x)
    (hQ : Masked i (x.1.onto (x.1.setReg backingStore f v)) →
      Point sure tapes i L B (x.1.onto (x.1.setReg backingStore f v), x.2) →
        Q () (x.1.onto (x.1.setReg backingStore f v), x.2)) :
    Prog.wpx ((outline sure tapes).spec i) (sup (.writeDev backingStore f v)) Q E x := by
  have hheld := (hx.held _).mpr hL
  have hinv : Inv sure tapes (x.1.onto (x.1.setReg backingStore f v), x.2) :=
    Inv.setReg hx.inv backingStore f v
  refine runs_masked hm rfl () _ x.2 (fun _ => rfl)
    (fun hsure => .of_same hfit hsure hx.inv.core hinv.core ⟨rfl, rfl, rfl⟩) (fun j hj => ?_)
    (hQ hm ⟨hinv, hx.held, hB.reg f v hx.own⟩)
  exact rely_setReg (fun _ => by simpa [hheld] using hj.symm) (fun hj => zero_ne_tapeDev hj.1) f v

/-- The seek: if it succeeds, the arm is where it should be. -/
theorem runs_seek (hfit : PoolFits) (hB : Kept i B) {command : Word}
    {Q : Word → Noted → Prop} (hcommand : opcode command = diskSeek) (hm : Masked i x.1)
    (hL : .mutexSemArray backingStore ∈ L) (hx : Point sure tapes i L B x)
    (hQ : ∀ status y, (sure → status = ready) → Point sure tapes i L
      (fun z => B z ∧ (status = ready → Armed i (seekCylinder command) z)) y → Q status y) :
    Prog.wpx ((outline sure tapes).spec i) (sup (.writeDev backingStore .dCommand command))
      (fun _ => Prog.wpx ((outline sure tapes).spec i)
        (sup (.waitForIo diskInt backingStore 0)) Q E) E x := by
  refine runs_writeDisk hfit hB hm hL hx fun _ hy => ?_
  let P : (DevField → Word) → Prop := fun r => r .dCommand = command
  refine runs_step (hB.toSteady.and (Told.steady i P)) (hy.imp fun hown => ⟨hown, ?_⟩)
    fun z hz ans b s' hans _ hsem => ?_
  · exact ⟨(hx.held _).mpr hL, setReg_reg_self ..⟩
  obtain ⟨rfl, rfl⟩ := Prod.mk.inj (Option.some.inj hsem)
  by_cases hready : ans = ready
  · have hcode : opcode (z.1.reg backingStore .dCommand) = diskSeek := by
      rw [show z.1.reg backingStore .dCommand = command from hz.own.2.2, hcommand]
    have hseek : z.1.complete diskInt backingStore ans = z.1.setArm (seekCylinder command) := by
      rw [hready, complete_seek hcode, show z.1.reg backingStore .dCommand =
        command from hz.own.2.2]
      rfl
    have hinv : Inv sure tapes (z.1.onto (z.1.setArm (seekCylinder command)), z.2) :=
      Inv.setArm hz.inv _
    change Spares z.1 (z.1.onto (z.1.complete diskInt backingStore ans)) ∧
      (¬ sure → Settles i z.1 (z.1.onto (z.1.complete diskInt backingStore ans))) ∧
      ∃ g', (∀ j, j ≠ i → Rely j z (z.1.onto (z.1.complete diskInt backingStore ans), g')) ∧
        Q ans (z.1.onto (z.1.complete diskInt backingStore ans), g')
    rw [hseek]
    refine ⟨.of_ram rfl, fun hsure => .of_same hfit hsure hz.inv.core hinv.core ⟨rfl, rfl, rfl⟩,
      z.2, fun j hj => ?_,
      hQ ans _ (fun _ => hready) ⟨hinv, hz.held, ?_, fun _ => ⟨hz.own.2.1, ?_⟩⟩⟩
    · exact rely_setArm (by simpa [hz.own.2.1] using hj.symm) _
    · exact hB.arm _ hz.own.1
    · exact setArm_arm ..
  · have hsame : z.1.complete diskInt backingStore ans = z.1.toHardware := complete_of_ne _ hready
    change Spares z.1 (z.1.onto (z.1.complete diskInt backingStore ans)) ∧
      (¬ sure → Settles i z.1 (z.1.onto (z.1.complete diskInt backingStore ans))) ∧
      ∃ g', (∀ j, j ≠ i → Rely j z (z.1.onto (z.1.complete diskInt backingStore ans), g')) ∧
        Q ans (z.1.onto (z.1.complete diskInt backingStore ans), g')
    rw [hsame]
    exact ⟨.of_ram rfl,
      fun hsure => .of_same hfit hsure hz.inv.core hz.inv.core ⟨rfl, rfl, rfl⟩, z.2,
      fun j _ => Rely.refl j z,
      hQ ans z hans ⟨hz.inv, hz.held, hz.own.1, fun h => absurd h hready⟩⟩

/-- The transfer: `hmove` says what it does if it succeeds, and `hfail` what holds if it fails. -/
theorem runs_transfer (hfit : PoolFits) (hB : Kept i B) {n : ℕ} {address command : Word}
    {Q : Word → Noted → Prop} (hm : Masked i x.1)
    (hL : .mutexSemArray backingStore ∈ L)
    (hx : Point sure tapes i L (fun z => B z ∧ Armed i n z) x)
    (hfail : ¬ sure → ∀ y, B y → C y)
    (hmove : ∀ y, Inv sure tapes y → y.1.holder (.mutexSemArray backingStore) = some i → B y →
      y.1.reg backingStore .dData0 = address → y.1.reg backingStore .dCommand = command →
      y.1.arm backingStore = n → ∃ g', Inv sure tapes
        (y.1.onto (y.1.complete diskInt backingStore ready), g') ∧
          C (y.1.onto (y.1.complete diskInt backingStore ready), g') ∧
          Spares y.1 (y.1.onto (y.1.complete diskInt backingStore ready)) ∧
          ∀ j, j ≠ i → Rely j y (y.1.onto (y.1.complete diskInt backingStore ready), g'))
    (hQ : ∀ status y, (sure → status = ready) → Point sure tapes i L C y → Q status y) :
    Prog.wpx ((outline sure tapes).spec i) (sup (.writeDev backingStore .dData0 address))
      (fun _ => Prog.wpx ((outline sure tapes).spec i)
        (sup (.writeDev backingStore .dCommand command)) (fun _ =>
          Prog.wpx ((outline sure tapes).spec i)
            (sup (.waitForIo diskInt backingStore 0)) Q E) E) E x := by
  have harm : x.1.arm backingStore = n := hx.own.2.2
  have hheld := (hx.held _).mpr hL
  refine runs_writeDisk hfit hB hm hL (hx.imp And.left) fun hm' hy => ?_
  refine runs_writeDisk hfit hB hm' hL hy fun _ hz => ?_
  let P : (DevField → Word) → Prop := fun r => r .dData0 = address ∧ r .dCommand = command
  refine runs_step ((hB.toSteady.and (Told.steady i P)).and (Armed.steady i n))
    (hz.imp fun hown => ⟨⟨hown, hheld, ?_, ?_⟩, hheld, harm⟩) fun z hz ans b s' hans _ hsem => ?_
  · exact (setReg_reg_of_ne _ _ (by decide)).trans (setReg_reg_self ..)
  · exact setReg_reg_self ..
  obtain ⟨rfl, rfl⟩ := Prod.mk.inj (Option.some.inj hsem)
  change Spares z.1 (z.1.onto (z.1.complete diskInt backingStore ans)) ∧
    (¬ sure → Settles i z.1 (z.1.onto (z.1.complete diskInt backingStore ans))) ∧
    ∃ g', (∀ j, j ≠ i → Rely j z (z.1.onto (z.1.complete diskInt backingStore ans), g')) ∧
      Q ans (z.1.onto (z.1.complete diskInt backingStore ans), g')
  obtain ⟨⟨hown, -, hdata, hcmd⟩, hheld', harm'⟩ := hz.own
  have hholder := complete_holder z.1.toHardware diskInt backingStore ans
  by_cases hready : ans = ready
  · obtain ⟨g', hinv, hC, hspares, hrely⟩ := hmove z hz.inv hheld' hown hdata hcmd harm'
    rw [hready] at hholder ⊢
    refine ⟨hspares, fun hsure => .of_same hfit hsure hz.inv.core hinv.core ⟨rfl, rfl, rfl⟩, g',
      hrely, hQ _ _ (fun _ => rfl) ⟨hinv, fun m => ?_, hC⟩⟩
    exact (iff_of_eq (congrArg (· = some i) (congrFun hholder m))).trans (hz.held m)
  · have hsame : z.1.complete diskInt backingStore ans = z.1.toHardware := complete_of_ne _ hready
    rw [hsame]
    exact ⟨.of_ram rfl, fun hsure => .of_same hfit hsure hz.inv.core hz.inv.core ⟨rfl, rfl, rfl⟩,
      z.2, fun j _ => Rely.refl j z, hQ ans z hans
        ⟨hz.inv, hz.held, hfail (fun hsure => hready (hans hsure)) z hown⟩⟩

end

end Paging

end Jaeos
