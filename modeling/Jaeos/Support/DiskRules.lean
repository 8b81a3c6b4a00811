import Jaeos.Support.Disks

/-!
# Rules for disks and tapes

What holds of the disks whenever control may change hands, what a process relies on from the
others, and a rule for each kind of operation. A process owns the devices whose mutexes it has:
their registers, their blocks and their buffers.
-/

namespace Jaeos

namespace Disks

open Hardware

/-! ## Buffers -/

section

variable {dev dev' : ℤ} {a b : Word}

theorem tapeDev_eq (i : ℤ) : tapeDev i = i + 7 := by
  change 8 + (i - 1) = i + 7
  omega

theorem buffer_disk {d : Word} (h1 : 1 ≤ d.toInt) (h7 : d.toInt ≤ 7) :
    buffer d.toInt = diskBuffer d := by
  rw [buffer, if_pos (by omega), word, BitVec.ofInt_toInt]

theorem buffer_tapeDev {i : ℤ} (h1 : 1 ≤ i) : buffer (tapeDev i) = tapeBuffer i := by
  rw [tapeDev_eq, buffer, if_neg (by omega)]
  congr 1
  omega

/-- Disk `d` and the tape of process `d + 1` have one buffer. -/
theorem buffer_toNat (h1 : 1 ≤ dev) (h15 : dev ≤ 15) :
    (buffer dev).toNat = 0x20020000 + (dev % 8).toNat * 4096 := by
  unfold buffer
  split
  · obtain ⟨n, rfl⟩ : ∃ n : ℕ, dev = n := ⟨dev.toNat, by omega⟩
    have hword : word (n : ℤ) = BitVec.ofNat 32 n := BitVec.ofInt_natCast 32 n
    have hcode : osCodeTop.toNat = 0x20020000 := rfl
    have hpage : pageSize.toNat = 4096 := rfl
    rw [diskBuffer, hword, BitVec.toNat_add, BitVec.toNat_mul, hcode, hpage, BitVec.toNat_ofNat]
    omega
  · rw [tapeBuffer_toNat (by omega) (by omega)]
    change 0x20020000 + _ = _
    omega

theorem buffer_aligned (h1 : 1 ≤ dev) (h15 : dev ≤ 15) : (buffer dev).Aligned := by
  rw [Word.Aligned, buffer_toNat h1 h15]
  omega

/-- A page that is not a user's. -/
structure KernelPage (a : Word) : Prop where
  /-- it is a page -/
  aligned : a.Aligned
  /-- of memory -/
  above : osCodeTop.toNat ≤ a.toNat
  /-- below kUseg2 -/
  below : a.toNat + 4096 ≤ kUseg2Addr.toNat

theorem buffer_kernel (h1 : 1 ≤ dev) (h15 : dev ≤ 15) : KernelPage (buffer dev) where
  aligned := buffer_aligned h1 h15
  above := by
    have hcode : osCodeTop.toNat = 0x20020000 := rfl
    rw [buffer_toNat h1 h15]
    omega
  below := by
    have huser : kUseg2Addr.toNat = 0x80000000 := rfl
    rw [buffer_toNat h1 h15]
    omega

theorem buffer_inj (h1 : 1 ≤ dev) (h15 : dev ≤ 15) (h1' : 1 ≤ dev') (h15' : dev' ≤ 15)
    (h : buffer dev = buffer dev') : dev % 8 = dev' % 8 := by
  have hnat := congrArg BitVec.toNat h
  rw [buffer_toNat h1 h15, buffer_toNat h1' h15'] at hnat
  omega

/-- A page of the user has no word in common with it. -/
theorem KernelPage.wordAt_ne (h : KernelPage b) (ha : kUseg2Addr ≤ a) (v w : Fin 1024) :
    wordAt b v ≠ wordAt a w := by
  intro he
  have hnat := congrArg BitVec.toNat he
  have hv := v.isLt
  have hw := w.isLt
  have hlt := a.isLt
  have hcode : osCodeTop.toNat = 0x20020000 := rfl
  have huser : kUseg2Addr.toNat = 0x80000000 := rfl
  have hle : (2147483648 : ℕ) ≤ a.toNat := ha
  have habove := h.above
  have hbelow := h.below
  simp only [wordAt, BitVec.toNat_add, BitVec.toNat_ofNat] at hnat
  omega

/-- Its words are the same for all. -/
theorem KernelPage.not_private (h : KernelPage b) (w : Fin 1024) : ¬ (wordAt b w).Private := by
  rintro ⟨hle, -⟩
  have hw := w.isLt
  have huser : kUseg2Addr.toNat = 0x80000000 := rfl
  have hle' : (2147483648 : ℕ) ≤ (wordAt b w).toNat := hle
  have hbelow := h.below
  simp only [wordAt, BitVec.toNat_add, BitVec.toNat_ofNat] at hle'
  omega

end

/-! ## Memory -/

section

variable {s : Disks} {i : ℤ} {a b v : Word}

theorem page_buffer {dev : ℤ} (h1 : 1 ≤ dev) (h15 : dev ≤ 15) :
    s.page i (buffer dev) = s.ram.page (buffer dev) := by
  funext w
  exact if_neg ((buffer_kernel h1 h15).not_private w)

theorem view_store_self : (s.store i a v).view i a = v := by
  unfold view store
  split
  · simp [Ram.store]
  · simp [Ram.store]

theorem view_store_of_ne (h : b ≠ a) : (s.store i a v).view i b = s.view i b := by
  unfold view store
  split <;> split <;> simp [Ram.store, h]

/-- A store that is not to a page. -/
theorem page_store (h : ∀ w, b ≠ wordAt a w) : (s.store i b v).ram.page a = s.ram.page a := by
  funext w
  unfold store
  split
  · rfl
  · exact Function.update_of_ne (h w).symm ..

/-- Everything but the words of the users, the pool, the tables and the status registers. -/
structure Same (s s' : Disks) : Prop where
  /-- the mutexes -/
  holder : s'.holder = s.holder
  /-- the old areas -/
  old : s'.old = s.old
  /-- the registers of the devices -/
  reg : s'.reg = s.reg
  /-- the arms of the disks -/
  arm : s'.arm = s.arm
  /-- the tapes -/
  tape : s'.tape = s.tape
  /-- the disks -/
  blocks : s'.blocks = s.blocks
  /-- what has been written -/
  put : s'.put = s.put
  /-- the pages of the kernel -/
  page : ∀ b, KernelPage b → s'.ram.page b = s.ram.page b

theorem same_refl (s : Disks) : Same s s := ⟨rfl, rfl, rfl, rfl, rfl, rfl, rfl, fun _ _ => rfl⟩

/-- A store to a page of the user. -/
theorem same_store (ha : kUseg2Addr ≤ a) (w : Fin 1024) : Same s (s.store i (wordAt a w) v) := by
  have hpage : ∀ b, KernelPage b → (s.store i (wordAt a w) v).ram.page b = s.ram.page b :=
    fun b hb => page_store fun w' he => hb.wordAt_ne ha w' w he.symm
  unfold store at hpage ⊢
  split
  · exact ⟨rfl, rfl, rfl, rfl, rfl, rfl, rfl, fun _ _ => rfl⟩
  · next hp =>
    simp only [if_neg hp] at hpage
    exact ⟨rfl, rfl, rfl, rfl, rfl, rfl, rfl, hpage⟩

end

/-! ## The invariant -/

/-- A sector has what was written there last, or what was there at first. -/
def Right (blocks : ℤ → Block → Page) (d : ℤ) (n : Word) (s : Disks) : Prop :=
  s.blocks d (sectorBlock n) = (s.put d n).getD (blocks d (sectorBlock n))

/-- What holds whenever control may change hands: the sectors of a disk that nobody uses. -/
def Inv (blocks : ℤ → Block → Page) (s : Disks) : Prop :=
  ∀ d, 1 ≤ d → d ≤ 7 → s.holder (.mutexSemArray d) = none →
    ∀ n : Word, n.toNat < 2 ^ 20 → Right blocks d n s

/-- What the other processes do while a process has yielded. -/
structure Rely (j : ℤ) (s s' : Disks) : Prop where
  /-- its mutexes stay its own -/
  holder : ∀ m, s.holder m = some j ↔ s'.holder m = some j
  /-- its old areas -/
  old : s'.old j = s.old j
  /-- nobody else uses a device of which it has the mutex -/
  device : ∀ d, s.holder (.mutexSemArray d) = some j → s'.reg d = s.reg d ∧ s'.arm d = s.arm d ∧
    s'.blocks d = s.blocks d ∧ s'.put d = s.put d
  /-- nor its buffer -/
  buffer : ∀ d, 1 ≤ d → d ≤ 15 → s.holder (.mutexSemArray d) = some j →
    s'.ram.page (buffer d) = s.ram.page (buffer d)
  /-- nobody else writes its blocks of the backing store -/
  backing : 1 ≤ j → ∀ k, s'.blocks 0 (pageBlock j k) = s.blocks 0 (pageBlock j k)
  /-- nor reads its tape -/
  tape : 1 ≤ j → s'.tape (tapeDev j) = s.tape (tapeDev j)

namespace Rely

variable {j : ℤ} {s s' s₁ : Disks}

theorem of_same (h : Same s s') : Rely j s s' where
  holder m := by rw [h.holder]
  old := congrFun h.old j
  device d _ := ⟨congrFun h.reg d, congrFun h.arm d, congrFun h.blocks d, congrFun h.put d⟩
  buffer d h1 h15 _ := h.page _ (buffer_kernel h1 h15)
  backing _ k := by rw [h.blocks]
  tape _ := congrFun h.tape _

theorem refl (j : ℤ) (s : Disks) : Rely j s s := .of_same (same_refl s)

theorem trans (h : Rely j s s₁) (h' : Rely j s₁ s') : Rely j s s' where
  holder m := (h.holder m).trans (h'.holder m)
  old := h'.old.trans h.old
  device d hd := by
    obtain ⟨hr, ha, hb, hp⟩ := h.device d hd
    obtain ⟨hr', ha', hb', hp'⟩ := h'.device d ((h.holder _).mp hd)
    exact ⟨hr'.trans hr, ha'.trans ha, hb'.trans hb, hp'.trans hp⟩
  buffer d h1 h15 hd :=
    (h'.buffer d h1 h15 ((h.holder _).mp hd)).trans (h.buffer d h1 h15 hd)
  backing hj k := (h'.backing hj k).trans (h.backing hj k)
  tape hj := (h'.tape hj).trans (h.tape hj)

end Rely

theorem Inv.of_same {blocks : ℤ → Block → Page} {s s' : Disks} (h : Inv blocks s)
    (hs : Same s s') : Inv blocks s' := by
  intro d h1 h7 hd n hn
  rw [hs.holder] at hd
  rw [Right, hs.blocks, hs.put]
  exact h d h1 h7 hd n hn

/-! ## The outline -/

/-- The pages of the kernel that are no buffers stay as they are. -/
def LeavesSpare (s s' : Disks) : Prop :=
  ∀ b, KernelPage b → (∀ dev, 1 ≤ dev → dev ≤ 15 → b ≠ buffer dev) → s'.ram.page b = s.ram.page b

theorem Same.leavesSpare {s s' : Disks} (h : Same s s') : LeavesSpare s s' :=
  fun b hb _ => h.page b hb

/-- The outline of the proof: the operations find what they should, the buffers of others and the
rest of the kernel's memory are left alone, and a process in user mode has its tape on the backing
store. -/
def outline [Support] (blocks : ℤ → Block → Page) (tapes : ℤ → List Page) :
    threads.Outline Unit where
  inv x := Inv blocks x.1
  rely j x y := Rely j x.1 y.1
  good i β o s s' := Exact s.put blocks i s β o ∧ LeavesBuffers i s s' ∧ LeavesSpare s s'
  goodAct i _ s s' := HasTape tapes i s ∧ LeavesBuffers i s s' ∧ LeavesSpare s s'
  allow i ans β o s := Paging.Answered ans β o ∧ FillsAlone i s β o
  allowAct _ l _ := l.Fits
  done i a x := InUserMode a → IsUser i ∧ (∀ m, x.1.holder m ≠ some i) ∧ HasTape tapes i x.1

/-- What a process knows is kept by the others. -/
def Steady (i : ℤ) (B : Disks → Prop) : Prop := ∀ ⦃s s'⦄, B s → Rely i s s' → B s'

/-- It is also kept when it uses a device. -/
structure Kept (i dev : ℤ) (B : Disks → Prop) : Prop where
  /-- the others -/
  steady : Steady i B
  /-- the registers -/
  reg : ∀ {s} f v, B s → B (s.onto (s.setReg dev f v))
  /-- the arm -/
  arm : ∀ {s} n, B s → B (s.onto { s.toHardware with arm := Function.update s.arm dev n })

/-- Where a process is between two operations: the invariant holds, it has these mutexes, and
knows `B`. -/
structure Point (blocks : ℤ → Block → Page) (i : ℤ) (L : List Sem) (B : Disks → Prop)
    (s : Disks) : Prop where
  /-- the invariant -/
  inv : Inv blocks s
  /-- its mutexes -/
  held : ∀ m, s.holder m = some i ↔ m ∈ L
  /-- what it knows -/
  own : B s

section

variable [Support] {blocks : ℤ → Block → Page} {tapes : ℤ → List Page} {i : ℤ} {L : List Sem}
  {B C : Disks → Prop} {s s' : Disks} {x : Disks × Unit} {β : Type} {o : SupOp β}
  {Q : β → Disks × Unit → Prop} {E : End → Disks × Unit → Prop}

omit [Support] in
theorem Point.imp (h : Point blocks i L B s) (hBC : B s → C s) : Point blocks i L C s :=
  ⟨h.inv, h.held, hBC h.own⟩

omit [Support] in
theorem Point.rely (hB : Steady i B) (h : Point blocks i L B s) (hr : Rely i s s')
    (hinv : Inv blocks s') : Point blocks i L B s' :=
  ⟨hinv, fun m => (hr.holder m).symm.trans (h.held m), hB h.own hr⟩

omit [Support] in
theorem Point.same (hB : Steady i B) (h : Point blocks i L B s) (hs : Same s s') :
    Point blocks i L B s' := h.rely hB (.of_same hs) (h.inv.of_same hs)

omit [Support] in
/-- The others can rely on a step, so it leaves their buffers alone. -/
theorem leavesBuffers (h : ∀ j, j ≠ i → Rely j s s') : LeavesBuffers i s s' :=
  fun j hj dev h1 h15 hd => (h j hj).buffer dev h1 h15 hd

/-! ## Rules for single operations -/

/-- What an operation must do from here. -/
def StepsTo (blocks : ℤ → Block → Page) (i : ℤ) (o : SupOp β) (Q : β → Disks × Unit → Prop)
    (s : Disks) : Prop :=
  ∀ ans b s', Paging.Answered ans β o → FillsAlone i s β o →
    (sem i ans β o).run s = some (b, s') →
    Exact s.put blocks i s β o ∧ LeavesSpare s s' ∧ (∀ j, j ≠ i → Rely j s s') ∧ Q b (s', ())

theorem StepsTo.spec_step (h : StepsTo blocks i o Q x.1) :
    ∀ ans b s', (outline blocks tapes).allow i ans β o x.1 →
      (threads.sem i ans β o).run x.1 = some (b, s') →
      (outline blocks tapes).good i β o x.1 s' ∧
        ∃ g', (∀ j, j ≠ i → (outline blocks tapes).rely j x (s', g')) ∧ Q b (s', g') := by
  intro ans b s' hallow hsem
  obtain ⟨hexact, hspare, hrely, hQ⟩ := h ans b s' hallow.1 hallow.2 hsem
  exact ⟨⟨hexact, leavesBuffers hrely, hspare⟩, (), hrely, hQ⟩

/-- An operation before which the process may lose the processor. -/
theorem runs_op (hB : Steady i B) (hx : Point blocks i L B x.1)
    (hstep : ∀ s, Point blocks i L B s → StepsTo blocks i o Q s) :
    Prog.wpx ((outline blocks tapes).spec i) (sup o) Q E x := by
  refine ⟨fun _ => hx.inv, ?_⟩
  rintro y (rfl | ⟨-, hrely, hinv⟩)
  · exact (hstep _ hx).spec_step (x := y)
  · exact (hstep _ (hx.rely hB hrely hinv)).spec_step (x := y)

/-- An operation before which it keeps the processor. -/
theorem runs_now (ho : yields i β o x.1 = false) (hstep : StepsTo blocks i o Q x.1) :
    Prog.wpx ((outline blocks tapes).spec i) (sup o) Q E x := by
  refine ⟨fun h => absurd (ho.symm.trans h) (by simp), ?_⟩
  rintro y (rfl | ⟨h, -, -⟩)
  · exact hstep.spec_step (x := y)
  · exact absurd (ho.symm.trans h) (by simp)

/-- An operation that changes nothing the others could see. -/
theorem runs_same (hB : Steady i B) (hexact : ∀ s, Exact s.put blocks i s β o)
    (hrun : ∀ ans s b s', (sem i ans β o).run s = some (b, s') → Same s s')
    (hx : Point blocks i L B x.1) (hQ : ∀ b y, Point blocks i L B y → Q b (y, ())) :
    Prog.wpx ((outline blocks tapes).spec i) (sup o) Q E x :=
  runs_op hB hx fun s hs ans b s' _ _ hsem =>
    have hsame := hrun ans s b s' hsem
    ⟨hexact s, hsame.leavesSpare, fun _ _ => .of_same hsame, hQ b s' (hs.same hB hsame)⟩

/-- An operation that only reads. -/
theorem runs_read (hB : Steady i B) (hexact : ∀ s, Exact s.put blocks i s β o) (f : Disks → β)
    (hrun : ∀ ans s, (sem i ans β o).run s = some (f s, s)) (hx : Point blocks i L B x.1)
    (hQ : ∀ y, Point blocks i L B y → Q (f y) (y, ())) :
    Prog.wpx ((outline blocks tapes).spec i) (sup o) Q E x := by
  refine runs_op hB hx fun s hs ans b s' _ _ hsem => ?_
  obtain ⟨rfl, rfl⟩ := Prod.mk.inj (Option.some.inj ((hrun ans s).symm.trans hsem))
  exact ⟨hexact s, fun _ _ _ => rfl, fun j _ => .refl j s, hQ s hs⟩

/-- `enableInterrupts` -/
theorem runs_enableInterrupts (hB : Steady i B) {on : Bool} {Q : Unit → Disks × Unit → Prop}
    (hx : Point blocks i L B x.1) (hQ : ∀ y, Point blocks i L B y → Q () (y, ())) :
    Prog.wpx ((outline blocks tapes).spec i) (enableInterrupts on) Q E x := by
  simp only [enableInterrupts, Prog.wpx_bind]
  refine runs_read hB (fun _ => trivial) (fun s => s.status i) (fun _ _ => rfl) hx fun y hy => ?_
  refine runs_same hB (fun _ => trivial) (fun ans s b s' hsem => ?_) hy fun _ => hQ
  obtain ⟨-, rfl⟩ := Prod.mk.inj (Option.some.inj hsem)
  exact ⟨rfl, rfl, rfl, rfl, rfl, rfl, rfl, fun _ _ => rfl⟩

/-! ## Mutexes -/

omit [Support] in
/-- P on a mutex. -/
def take (s : Disks) (i : ℤ) (m : Sem) : Disks := (s.offer i m).onto (s.hold m (some i))

omit [Support] in
theorem take_put_of_ne {m : Sem} {d : ℤ} (h : m ≠ .mutexSemArray d) :
    (s.take i m).put d = s.put d := by
  cases m with
  | mutexSemArray d' =>
    have hd : d ≠ d' := fun he => h (he ▸ rfl)
    simp only [take, onto, offer]
    split
    · exact Function.update_of_ne hd ..
    · rfl
  | _ => rfl

omit [Support] in
theorem take_put_self {d : ℤ} (h : s.number i = 14) : (s.take i (.mutexSemArray d)).put d =
    Function.update (s.put d) (s.sectNo i) (some (s.page i (s.address i))) := by
  simp only [take, onto, offer, if_pos h]
  exact Function.update_self ..

omit [Support] in
theorem take_of_number {m : Sem} (h : s.number i ≠ 14) :
    s.take i m = s.onto (s.hold m (some i)) := by
  cases m with
  | mutexSemArray d => simp only [take, offer, if_neg h]
  | _ => rfl

omit [Support] in
theorem take_user {m : Sem} : (s.take i m).user = s.user := by
  cases m with
  | mutexSemArray d =>
    simp only [take, onto, offer]
    split <;> rfl
  | _ => rfl

omit [Support] in
/-- Taking a mutex changes no memory. -/
theorem take_page {m : Sem} {a : Word} : (s.take i m).page i a = s.page i a := by
  funext w
  simp only [page, view, take_user]
  rfl

omit [Support] in
theorem sem_passeren {ans : Word} {m : Sem} {b : Unit}
    (h : (sem i ans Unit (.passeren m)).run s = some (b, s')) :
    s.holder m = none ∧ s' = s.take i m := by
  simp only [sem, Hardware.passeren, StateT.run] at h
  split at h
  · next hfree => exact ⟨hfree, (Prod.mk.inj (Option.some.inj h)).2.symm⟩
  · cases h

omit [Support] in
theorem sem_verhogen {ans : Word} {m : Sem} {b : Unit} (hm : m ≠ .masterSem)
    (h : (sem i ans Unit (.verhogen m)).run s = some (b, s')) :
    s.holder m = some i ∧ s' = s.onto (s.hold m none) := by
  have hv : (Hardware.sem i ans Unit (.verhogen m)) =
      fun h => (h.verhogen i m).map fun h' => ((), h') := by
    cases m with
    | masterSem => exact absurd rfl hm
    | _ => rfl
  simp only [sem, hv, Hardware.verhogen, StateT.run] at h
  split at h
  · next hheld => exact ⟨hheld, (Prod.mk.inj (Option.some.inj h)).2.symm⟩
  · cases h

omit [Support] in
/-- A mutex that is taken was free, so the others do not have it. -/
theorem rely_take {j : ℤ} {m : Sem} (hm : s.holder m = none) (hj : j ≠ i) :
    Rely j s (s.take i m) :=
  { Rely.refl j s with
    holder m' := by
      change _ ↔ Function.update s.holder m (some i) m' = some j
      by_cases hmm : m' = m
      · subst hmm
        rw [hm, Function.update_self]
        simpa using hj.symm
      · rw [Function.update_of_ne hmm]
    device d hd := by
      refine ⟨rfl, rfl, rfl, take_put_of_ne ?_⟩
      rintro rfl
      exact absurd (hm.symm.trans hd) (by simp) }

omit [Support] in
theorem rely_release {j : ℤ} {m : Sem} (hm : s.holder m = some i) (hj : j ≠ i) :
    Rely j s (s.onto (s.hold m none)) :=
  { Rely.refl j s with
    holder m' := by
      change _ ↔ Function.update s.holder m none m' = some j
      by_cases hmm : m' = m
      · subst hmm
        rw [hm, Function.update_self]
        simpa using hj.symm
      · rw [Function.update_of_ne hmm] }

omit [Support] in
/-- The mutex is taken. -/
theorem Inv.take {m : Sem} (h : Inv blocks s) : Inv blocks (s.take i m) := by
  intro d h1 h7 hd n hn
  change Function.update s.holder m (some i) _ = none at hd
  have hne : m ≠ .mutexSemArray d := by
    rintro rfl
    rw [Function.update_self] at hd
    cases hd
  rw [Function.update_of_ne hne.symm] at hd
  rw [Right, take_put_of_ne hne]
  exact h d h1 h7 hd n hn

omit [Support] in
theorem Inv.release {m : Sem} (h : Inv blocks s) (hright : ∀ d, m = .mutexSemArray d → 1 ≤ d →
    d ≤ 7 → ∀ n : Word, n.toNat < 2 ^ 20 → Right blocks d n s) :
    Inv blocks (s.onto (s.hold m none)) := by
  intro d h1 h7 hd n hn
  by_cases hm : m = .mutexSemArray d
  · exact hright d hm h1 h7 n hn
  · change Function.update s.holder m none _ = none at hd
    rw [Function.update_of_ne (Ne.symm hm)] at hd
    exact h d h1 h7 hd n hn

omit [Support] in
theorem held_take {m : Sem} (hheld : ∀ m, s.holder m = some i ↔ m ∈ L) :
    ∀ m', (s.take i m).holder m' = some i ↔ m' ∈ m :: L := by
  intro m'
  change Function.update s.holder m (some i) m' = some i ↔ _
  by_cases hmm : m' = m
  · simp [hmm]
  · rw [Function.update_of_ne hmm, hheld, List.mem_cons]
    simp [hmm]

omit [Support] in
theorem held_release {m : Sem} (hm : m ∉ L) (hheld : ∀ m', s.holder m' = some i ↔ m' ∈ m :: L) :
    ∀ m', (s.onto (s.hold m none)).holder m' = some i ↔ m' ∈ L := by
  intro m'
  change Function.update s.holder m none m' = some i ↔ _
  by_cases hmm : m' = m
  · subst hmm
    simp [hm]
  · rw [Function.update_of_ne hmm, hheld, List.mem_cons]
    simp [hmm]

/-- P on a mutex. -/
theorem runs_passeren (hB : Steady i B) {m : Sem} {Q : Unit → Disks × Unit → Prop}
    (hx : Point blocks i L B x.1)
    (hQ : ∀ s, Point blocks i L B s → s.holder m = none → FillsAlone i s Unit (.passeren m) →
      Inv blocks (s.take i m) → (∀ m', (s.take i m).holder m' = some i ↔ m' ∈ m :: L) →
      Q () (s.take i m, ())) :
    Prog.wpx ((outline blocks tapes).spec i) (sup (.passeren m)) Q E x := by
  refine runs_op hB hx fun s hs ans b s' _ halone hsem => ?_
  obtain ⟨hfree, rfl⟩ := sem_passeren hsem
  exact ⟨trivial, fun _ _ _ => rfl, fun j hj => rely_take hfree hj,
    hQ s hs hfree halone hs.inv.take (held_take hs.held)⟩

/-- V on a mutex. Whoever releases a disk leaves its sectors as they should be. -/
theorem runs_verhogen (hB : Steady i B) {m : Sem} (hm : m ≠ .masterSem) (hL : m ∉ L)
    {Q : Unit → Disks × Unit → Prop} (hx : Point blocks i (m :: L) B x.1)
    (hright : ∀ {s}, B s → ∀ d, m = .mutexSemArray d → 1 ≤ d → d ≤ 7 →
      ∀ n : Word, n.toNat < 2 ^ 20 → Right blocks d n s)
    (hC : ∀ {s}, B s → C (s.onto (s.hold m none)))
    (hQ : ∀ y, Point blocks i L C y → Q () (y, ())) :
    Prog.wpx ((outline blocks tapes).spec i) (sup (.verhogen m)) Q E x := by
  refine runs_op hB hx fun s hs ans b s' _ _ hsem => ?_
  obtain ⟨hheld, rfl⟩ := sem_verhogen hm hsem
  exact ⟨trivial, fun _ _ _ => rfl, fun j hj => rely_release hheld hj,
    hQ _ ⟨hs.inv.release (hright hs.own), held_release hL hs.held, hC hs.own⟩⟩

end

end Disks

end Jaeos
