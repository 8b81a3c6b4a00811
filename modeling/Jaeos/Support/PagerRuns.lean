import Jaeos.Support.PagerLoader
import Jaeos.Support.PageFaults

/-!
# Runs of the pager

What a process does in user mode keeps the invariant of the pager, and so does every run. If
transfers may fail, the pool and the page tables still agree, as long as nobody dies that has a
page in a frame and nobody misses a page that is mapped.
-/

namespace Jaeos

namespace Paging

section

variable [Support] {sure : Prop} {tapes : ℤ → List Page} {s s' : Paging} {g g' : Record} {i : ℤ}
  {x : Noted}

/-! ## User mode -/

theorem wp_of_runs {m : SupM Unit} (h : Prog.wpx ((outline sure tapes).spec i) m
    (fun b => (outline sure tapes).post i (.ok b))
    (fun e => (outline sure tapes).post i (.error e)) x) :
    m.run.wp ((outline sure tapes).spec i) ((outline sure tapes).post i) x := by
  refine Prog.wp_mono ((outline sure tapes).spec_mono i) ?_ h
  rintro (e | b) y hy
  · exact hy
  · exact hy

/-- The entry that an access uses is that of the table, and maps the page to its frame. -/
theorem Inv.entry (hfit : PoolFits) (h : Inv sure tapes (s, g)) (hi : IsUser i)
    (hage : g.age i = .live) {r : PteRef} {e : Word} (hr : r.Of i) (he : s.entry r = some e) :
    ∃ k f, r = .uProc i k ∧ IsPage k ∧ At (s, g) i k f ∧ ¬ g.Open f ∧ IsValid (s.pte r) ∧
      s.pte r = e ∧ frameAddress e = swapAddr f := by
  have hentry : s.pte r = e ∧ IsValid e := by
    unfold Paging.entry at he
    split at he
    · next e' hcached =>
      obtain rfl := Option.some.inj he
      exact h.coherent r e' hcached
    · split at he
      · next hv =>
        obtain rfl := Option.some.inj he
        exact ⟨rfl, hv⟩
      · cases he
  obtain ⟨rfl, hv⟩ := hentry
  cases r with
  | kUSeg3 k => exact absurd hv (h.core.table.shared k hr)
  | uProc p k =>
    obtain ⟨rfl, hk⟩ : p = i ∧ IsPage k := hr
    obtain ⟨f, hat, ho, hmap⟩ := h.core.table.at_of_isValid hi hk (by simp [hage]) hv
    refine ⟨k, f, rfl, hk, hat, ho, hv, rfl, ?_⟩
    rw [hmap]
    exact hfit.frameAddress_mapping hat.1.1

/-- An entry that is in the table is cached. -/
theorem Inv.cache (h : Inv sure tapes (s, g)) {r : PteRef} {keep : PteRef → Bool}
    (hv : IsValid (s.pte r)) : Inv sure tapes (s.cache r (s.pte r) keep, g) := by
  refine ⟨h.core.still ⟨rfl, rfl, rfl⟩ rfl rfl rfl rfl rfl, fun q e hq => ?_⟩
  simp only [Paging.cache] at hq
  split at hq
  · next hqr =>
    obtain rfl := Option.some.inj hq
    exact ⟨congrArg s.pte hqr, hv⟩
  · split at hq
    · exact h.coherent q e hq
    · cases hq

theorem rely_cache {j : ℤ} {r : PteRef} {e : Word} (keep : PteRef → Bool) :
    Rely j (s, g) (s.cache r e keep, g) :=
  { Rely.refl j (s, g) with }

/-- A store is to a frame. -/
theorem rely_stores (hfit : PoolFits) {j : ℤ} {r : PteRef} {e v : Word} {w : Fin 1024} {f : ℕ}
    (hf : f < Support.swapSize) (he : frameAddress e = swapAddr f) :
    Rely j (s, g) (s.write r e w v, g) :=
  { Rely.refl j (s, g) with
    buffer hj := by
      change (s.ram.store (wordAt (frameAddress e) w) v).page (tapeBuffer j) = _
      rw [he]
      exact Ram.page_store_of_ne (hfit.swapAddr_aligned hf)
        (tapeBuffer_aligned hj.1 (hj.lt_64 hfit))
        (hfit.swapAddr_ne_tapeBuffer hf hj).symm }

/-- A process that holds no mutex traps. -/
theorem Core.trap (h : Core sure tapes (s, g)) (hfree : ∀ m, s.holder m ≠ some i) {h' : Hardware}
    {d : ℤ → Bool} (hholder : h'.holder = s.holder) (hram : h'.ram = s.ram)
    (hblocks : h'.blocks = s.blocks) (hd : ∀ j, j ≠ i → d j = s.dying j) :
    Core sure tapes ({ s with toHardware := h', dying := d }, g) := by
  refine h.stay ⟨rfl, rfl, rfl⟩ rfl (fun hl => ?_) (fun hsure j hdj hl => ?_) (fun f _ => ?_)
    fun j k _ _ => ?_
  · exact h.table.lock (hholder ▸ hl)
  · have hj : j ≠ i := by
      rintro rfl
      exact hfree _ (hholder ▸ hl)
    exact h.doomed hsure j (hd j hj ▸ hdj) (hholder ▸ hl)
  · rw [hram]
  · rw [hblocks]

theorem rely_trap {j : ℤ} {h' : Hardware} {d : ℤ → Bool} (hage : g'.age j = g.age j)
    (hhole : g'.hole = g.hole) (hholder : h'.holder = s.holder) (hstatus : h'.status j = s.status j)
    (hold : h'.old j = s.old j) (hd : d j = s.dying j) (hreg : h'.reg = s.reg)
    (harm : h'.arm = s.arm) (htape : h'.tape = s.tape) (hram : h'.ram = s.ram)
    (hblocks : h'.blocks = s.blocks) :
    Rely j (s, g) ({ s with toHardware := h', dying := d }, g') :=
  { Rely.refl j (s, g) with
    holder m := iff_of_eq (congrArg (· = some j) (congrFun hholder m).symm)
    status := hstatus
    old := hold
    dying := hd
    age := hage
    pool _ := ⟨rfl, rfl, rfl, hhole⟩
    disk _ := ⟨congrFun hreg 0, congrFun harm 0⟩
    tape _ := ⟨congrFun htape _, congrFun hreg _⟩
    buffer _ := by rw [hram]
    fresh _ _ _ := by rw [hblocks] }

/-! ## The outline is a proof -/

/-- What a process in user mode does keeps its promises, and its next program does. -/
abbrev ActsWell (sure : Prop) (tapes : ℤ → List Page) (i : ℤ) (l : Act) (x : Noted)
    (p : Prog SupOp (Except End Unit)) (s' : Paging) : Prop :=
  (outline sure tapes).goodAct i l x.1 s' ∧ ∃ g', (∀ j, j ≠ i → Rely j x (s', g')) ∧
    p.wp ((outline sure tapes).spec i) ((outline sure tapes).post i) (s', g')

variable {r : PteRef} {e v : Word} {w : Fin 1024} {keep : PteRef → Bool} {a : Except End Unit}

theorem actsWell_load (hfit : PoolFits) (hinv : Inv sure tapes (s, g)) (hi : IsUser i)
    (hage : g.age i = .live) (hdone : (outline sure tapes).done i a (s, g)) (hr : r.Of i)
    (he : s.entry r = some e) (hv : s.ram.page (frameAddress e) w = v) :
    ActsWell sure tapes i (.load r w v keep) (s, g) (.ret a) (s.cache r e keep) := by
  obtain ⟨k, f, rfl, hk, hat, -, hvalid, rfl, hframe⟩ := hinv.entry hfit hi hage hr he
  have hinv' : Inv sure tapes (s.cache (.uProc i k) (s.pte (.uProc i k)) keep, g) :=
    hinv.cache hvalid
  refine ⟨⟨.of_ram rfl, fun hsure => ?_,
    fun hsure hfree => hinv'.core.consistent hfit hsure hfree⟩, g, fun j _ => rely_cache _, hinv',
    hdone⟩
  rintro k' w' v' keep' u heq hu
  obtain ⟨hkk, rfl, rfl, -⟩ := Act.load.inj heq
  obtain ⟨-, rfl⟩ := PteRef.uProc.inj hkk
  rw [← hv, hframe]
  exact (hinv.core.contents hsure).inFrame i k f hi hk hage hat w u hu

theorem actsWell_store (hfit : PoolFits) (hinv : Inv sure tapes (s, g)) (hi : IsUser i)
    (hage : g.age i = .live) (hdone : (outline sure tapes).done i a (s, g)) (hr : r.Of i)
    (he : s.entry r = some e) :
    ActsWell sure tapes i (.store r w v keep) (s, g) (.ret a)
      ((s.cache r e keep).write r e w v) := by
  obtain ⟨k, f, rfl, hk, hat, ho, hvalid, rfl, hframe⟩ := hinv.entry hfit hi hage hr he
  have hcache : Inv sure tapes (s.cache (.uProc i k) (s.pte (.uProc i k)) keep, g) :=
    hinv.cache hvalid
  have hcore : Core sure tapes ((s.cache (.uProc i k) (s.pte (.uProc i k)) keep).write (.uProc i k)
      (s.pte (.uProc i k)) w v, g) :=
    hcache.core.stores hfit hi hk hage hat ho hvalid hframe
  refine ⟨⟨fun b hb _ hidle => ?_, fun _ => ?_,
    fun hsure hfree => hcore.consistent hfit hsure hfree⟩, g,
    fun j hj => (rely_cache keep).trans (rely_stores hfit hat.1.1 hframe),
    ⟨hcore, hcache.coherent⟩, hdone⟩
  · -- the frame is in use
    have hlt := hat.1.1
    change (s.ram.store (wordAt (frameAddress (s.pte (.uProc i k))) w) v).page b = _
    rw [hframe]
    refine Ram.page_store_of_ne (hfit.swapAddr_aligned hlt) hb ?_
    rintro rfl
    exact hat.1.2 (hidle f hlt rfl).1
  · intro k' w' v' keep' u heq
    cases heq

/-- A process that dies is counted as dead if transfers cannot fail. -/
theorem Core.doom (h : Core sure tapes (s, g)) : ∃ g' : Record, Core sure tapes (s, g') ∧
    g'.hole = g.hole ∧ (∀ j, j ≠ i → g'.age j = g.age j) ∧ (sure → g'.age i = .dead) := by
  by_cases hsure : sure
  · exact ⟨g.grow i .dead, h.die hsure, rfl, fun j hj => Record.age_grow_of_ne hj,
      fun _ => Record.age_grow_self⟩
  · exact ⟨g, h, rfl, fun _ _ => rfl, fun hs => absurd hs hsure⟩

theorem actsWell_death (hfit : PoolFits) (hinv : Inv sure tapes (s, g)) (hi : IsUser i)
    (hfree : ∀ m, s.holder m ≠ some i) :
    ActsWell sure tapes i .death (s, g) (virtualDeath i : SupM Unit).run (s.death i) := by
  obtain ⟨g', hcore, hhole, hage, hdead⟩ := hinv.core.doom (i := i)
  have hcore' : Core sure tapes (s.death i, g') :=
    hcore.trap hfree rfl rfl rfl fun j hj => Function.update_of_ne hj ..
  refine ⟨⟨.of_ram rfl, fun _ k w v keep u heq => (by cases heq),
    fun hsure hfree' => hcore'.consistent hfit hsure hfree'⟩, g', fun j hj => ?_, ?_⟩
  · exact rely_trap (hage j hj) hhole rfl (Function.update_of_ne hj ..) rfl
      (Function.update_of_ne hj ..) rfl rfl rfl rfl rfl
  · refine wp_of_runs (runs_virtualDeath hfit hi ⟨⟨hcore', hinv.coherent⟩, fun m => ?_, ?_, hdead⟩)
    · exact iff_of_false (hfree m) (by simp)
    · exact Function.update_self ..

omit [Support] in
theorem fault_missing (s : Paging) (i : ℤ) (cause entryHi : Word) :
    (s.fault i cause entryHi).missing i = entryHi ∧
      (s.fault i cause entryHi).old i .tlbTrap sCause = cause := by
  have hne : sCause ≠ sEntryHi := by decide
  simp [missing, fault, Hardware.setStatus, Hardware.setOld, Function.update_of_ne hne]

theorem actsWell_fault (hfit : PoolFits) {cause entryHi : Word} (hinv : Inv sure tapes (s, g))
    (hi : IsUser i) (hage : g.age i = .live) (hfree : ∀ m, s.holder m ≠ some i)
    (hok : sure → Faithful i (.fault cause entryHi) s) :
    ActsWell sure tapes i (.fault cause entryHi) (s, g) vmMemHandler.run
      (s.fault i cause entryHi) := by
  obtain ⟨hmissing, hcause⟩ := fault_missing s i cause entryHi
  have hdying : (s.fault i cause entryHi).dying i = decide (cause ≠ tlbl ∧ cause ≠ tlbs) :=
    Function.update_self ..
  have hold : ∀ j, j ≠ i → (s.fault i cause entryHi).old j = s.old j := fun j hj =>
    (Function.update_of_ne hj ..).trans (Function.update_of_ne hj ..)
  have hheld : ∀ m, (s.fault i cause entryHi).holder m = some i ↔ m ∈ ([] : List Sem) :=
    fun m => iff_of_false (hfree m) (by simp)
  -- the state after the trap, with a record of the same hole
  have hnext : ∀ g', Core sure tapes (s, g') → g'.hole = g.hole →
      (∀ j, j ≠ i → g'.age j = g.age j) →
      (if cause ≠ tlbl ∧ cause ≠ tlbs then Dying sure i (s.fault i cause entryHi, g')
        else Faulting sure i entryHi (s.fault i cause entryHi, g')) →
      ActsWell sure tapes i (.fault cause entryHi) (s, g) vmMemHandler.run
        (s.fault i cause entryHi) := by
    intro g' hcore hhole hages hown
    have hcore' : Core sure tapes (s.fault i cause entryHi, g') :=
      hcore.trap hfree rfl rfl rfl fun j hj => Function.update_of_ne hj ..
    refine ⟨⟨.of_ram rfl, fun _ k w v keep u heq => (by cases heq),
      fun hsure hfree' => hcore'.consistent hfit hsure hfree'⟩, g', fun j hj => ?_, ?_⟩
    · exact rely_trap (hages j hj) hhole rfl (Function.update_of_ne hj ..) (hold j hj)
        (Function.update_of_ne hj ..) rfl rfl rfl rfl rfl
    · exact wp_of_runs (runs_vmMemHandler hfit hi
        ⟨⟨hcore', hinv.coherent⟩, hheld, hcause, hown⟩)
  by_cases hbad : cause ≠ tlbl ∧ cause ≠ tlbs
  · obtain ⟨g', hcore, hhole, hages, hdead⟩ := hinv.core.doom (i := i)
    refine hnext g' hcore hhole hages ?_
    rw [if_pos hbad]
    exact ⟨hdying.trans (decide_eq_true hbad), hdead⟩
  · refine hnext g hinv.core rfl (fun _ _ => rfl) ?_
    rw [if_neg hbad]
    refine ⟨hdying.trans (decide_eq_false hbad), hage, hmissing, fun hsure => ?_⟩
    obtain ⟨k, hnames, hv⟩ := hok hsure (by tauto)
    rw [hnames.missingPageNum_eq]
    exact hv

/-- The outline is a proof about all interleavings. -/
theorem outline_sound (hfit : PoolFits) (sure : Prop) (tapes : ℤ → List Page) :
    (outline sure tapes).Sound where
  refl := Rely.refl
  trans _ _ _ _ := Rely.trans
  done i a x y h hr _ hmode := by
    obtain ⟨hi, hage, hfree⟩ := h hmode
    exact ⟨hi, hr.age.trans hage, fun m hm => hfree m ((hr.holder m).mpr hm)⟩
  act i l a x p s' hinv hdone hok hact := by
    obtain ⟨s, g⟩ := x
    change act i l a s = some (p, s') at hact
    unfold act at hact
    split at hact
    · next hmode =>
      obtain ⟨hi, hage, hfree⟩ := hdone hmode
      cases l with
      | load r w v keep =>
        obtain ⟨e, he, hif⟩ := Option.bind_eq_some_iff.mp hact
        split at hif
        · next hr =>
          obtain ⟨rfl, rfl⟩ := Prod.mk.inj (Option.some.inj hif)
          exact actsWell_load hfit hinv hi hage hdone hr.1 he hr.2
        · cases hif
      | store r w v keep =>
        obtain ⟨e, he, hif⟩ := Option.bind_eq_some_iff.mp hact
        split at hif
        · next hr =>
          obtain ⟨rfl, rfl⟩ := Prod.mk.inj (Option.some.inj hif)
          exact actsWell_store hfit hinv hi hage hdone hr.1 he
        · cases hif
      | fault cause entryHi =>
        obtain ⟨rfl, rfl⟩ := Prod.mk.inj (Option.some.inj hact)
        exact actsWell_fault hfit hinv hi hage hfree hok
      | death =>
        obtain ⟨rfl, rfl⟩ := Prod.mk.inj (Option.some.inj hact)
        exact actsWell_death hfit hinv hi hfree
    · cases hact

/-! ## The beginning -/

/-- The record at the beginning: no user process has run. -/
def firstRecord : Record where
  hole := none
  age i := if IsUser i then .fresh else .live

theorem Initial.inv (h : s.Initial) (sure : Prop) (tapes : ℤ → List Page) :
    Inv sure tapes (s, firstRecord) := by
  have hfree : ∀ f, ¬ s.Active f := fun f hf => hf.2 (h.swapPool f hf.1).1
  have hpte : ∀ i k, IsUser i → IsPage k → ¬ IsValid (s.pte (.uProc i k)) := by
    intro i k hi hk
    rw [h.uProc i k hi hk]
    decide
  have hlive : ∀ i, IsUser i → firstRecord.age i ≠ .live := by
    intro i hi
    simp [firstRecord, hi]
  refine ⟨⟨?_, fun _ i hd => ?_, fun _ i => ?_, fun _ => ?_⟩, fun r e he => ?_⟩
  · refine ⟨fun _ => rfl, fun f hf => absurd hf (Record.not_open rfl),
      fun f hf => absurd hf (Record.not_open rfl), fun f hf => absurd hf (hfree f),
      fun i k hi hk _ hv => absurd hv (hpte i k hi hk), fun k hk => ?_, fun i hi _ => ⟨?_, ?_⟩, ?_⟩
    · rw [h.kUSeg3 k hk]
      decide
    · intro f hf
      rw [(h.swapPool f hf).1]
      have h1 := hi.1
      omega
    · exact fun k w => h.stored i k w
    · intro f i k hh
      cases hh
  · exact absurd ((h.dying i).symm.trans hd) (by simp)
  · simp only [firstRecord]
    split <;> simp
  · refine ⟨fun f i k hh => (by cases hh), fun i k f hi hk hl => absurd hl (hlive i hi),
      fun i k hi hk hl => absurd hl (hlive i hi)⟩
  · rw [h.tlb r] at he
    cases he

/-- The proof begins with the processes in front of `uProcInit`. -/
theorem Initial.begins (hfit : PoolFits) (h : s.Initial)
    (htape : sure → ∀ i, s.tape (tapeDev i) = tapes i)
    (hsize : sure → ∀ i, IsUser i → (tapes i).length ≤ 2 ^ 16) (pc : Handler → Word)
    (fuel : ℤ → ℕ) : (outline sure tapes).Begins (s.configFor pc fuel) firstRecord := by
  refine ⟨rfl, h.inv sure tapes, fun i => ?_, fun i => ?_⟩
  · simp only [configFor]
    split
    · -- interrupts are enabled
      change (false || decide (s.status i &&& allIntDisabled ≠ allIntDisabled)) = true
      rw [Bool.false_or, decide_eq_true_eq]
      exact h.status i
    · rfl
  · simp only [configFor]
    split
    · next hi =>
      refine wp_of_runs (runs_uProcInit hfit hi pc (fun hsure => hsize hsure i hi)
        ⟨h.inv sure tapes, fun m => ?_, ?_, fun hsure => htape hsure i, fun _ k p hk => by omega⟩)
      · rw [h.holder m]
        simp
      · simp [firstRecord, hi]
    · exact ⟨h.inv sure tapes, fun hmode => hmode.elim⟩

end

/-! ## The pool and the tables -/

section

variable [Support] {s : Paging} {c : Config} {e : Event} {tr : List (Config × Event)}
  {pc : Handler → Word}

/-- Whoever takes `swapSem` is calm. -/
def TakenCalmly (c : Config) : Event → Prop
  | .call i _ =>
    match c.prog i with
    | .ret _ => True
    | .call o _ => TakesCalmly i _ o c.shared
  | .act _ _ => True

theorem TakenCalmly.allowed {tapes : ℤ → List Page} (h : TakenCalmly c e) :
    (outline False tapes).Allowed c e := by
  cases e with
  | call i ans =>
    cases hp : c.prog i with
    | ret a => simp only [Threads.Outline.Allowed, hp]
    | call o k =>
      simp only [TakenCalmly, hp] at h
      simp only [Threads.Outline.Allowed, hp]
      exact ⟨fun hno => hno.elim, fun _ => h⟩
  | act i l => exact fun hno => hno.elim

/-- The pool and the page tables agree whenever `swapSem` is free, and a process that dies changes
neither and leaves no frame behind, as long as everybody who takes `swapSem` is calm: no process
dies that has a page in a frame, and none misses a page that is mapped to another frame than the
one it is going to take. -/
theorem pool_agrees (hfit : PoolFits) (hrun : Run pc tr c)
    (hcalm : ∀ x ∈ tr, TakenCalmly x.1 x.2) :
    (c.shared.holder .swapSem = none → c.shared.Consistent) ∧
      ∀ i ans c', TakenCalmly c (.call i ans) → threads.Step c (.call i ans) c' →
        c.shared.dying i = true → Dies i c.shared c'.shared := by
  -- the tapes do not matter here
  have hbegin : ∀ c, Starts pc c → ∃ g, (outline False fun _ => []).Begins c g := by
    rintro _ ⟨s, hs, rfl⟩
    exact ⟨firstRecord, hs.begins hfit (fun hno => hno.elim) (fun hno => hno.elim) pc _⟩
  have hsound := outline_sound hfit False fun _ => []
  have hallowed : ∀ x ∈ tr, (outline False fun _ => []).Allowed x.1 x.2 :=
    fun x hx => (hcalm x hx).allowed
  refine ⟨?_, fun i ans c' hc hstep hd => ?_⟩
  · cases hrun with
    | start h =>
      obtain ⟨s, hs, rfl⟩ := h
      exact (hs.inv False fun _ => []).core.consistent hfit not_false
    | @next tr c₀ c e hrun hstep =>
      have hgood := hsound.step_good hbegin hrun
        (fun x hx => hallowed x (List.mem_cons_of_mem _ hx))
        (hallowed _ List.mem_cons_self) hstep
      rcases hstep.cases with
        ⟨i, ans, β, o, p, b, s', rfl, hp, -, rfl⟩ | ⟨i, l, a, p, s', rfl, -, -, rfl⟩
      · simp only [Threads.Outline.Good, hp] at hgood
        exact (hgood.2 not_false).consistent
      · exact hgood.2.2 not_false
  · have hgood := hsound.step_good hbegin hrun hallowed hc.allowed hstep
    rcases hstep.cases with
      ⟨j, ans', β, o, p, b, s', heq, hp, -, rfl⟩ | ⟨j, l, a, p, s', heq, -, -, rfl⟩
    · obtain ⟨rfl, rfl⟩ := Threads.Event.call.inj heq
      simp only [Threads.Outline.Good, hp] at hgood
      exact (hgood.2 not_false).dies hd
    · cases heq

end

/-! ## Sample runs -/

section

variable [Support]

instance (c : Config) (e : Event) : Decidable (TakenCalmly c e) := by
  unfold TakenCalmly
  split
  · split <;> infer_instance
  · infer_instance

/-- The states before the first step. Each tape has one block. -/
abbrev sampleBoot : Paging where
  holder _ := none
  status _ := 0
  old _ _ _ := 0
  reg _ _ := 0
  arm _ := 0
  blocks _ _ _ := 0
  tape _ := [fun _ => 7]
  ram _ := 0
  nextFrame := 0
  swapPool _ := ⟨-1, 0, 0, none⟩
  pte
    | .uProc _ _ => allOff ||| dirty
    | .kUSeg3 _ => allOff ||| dirty ||| global
  tlb _ := none
  stored _ _ _ := none
  dying _ := false

theorem sampleBoot_initial : sampleBoot.Initial :=
  ⟨fun _ => rfl, fun _ => (by decide : (0 : Word) &&& allIntDisabled ≠ allIntDisabled), rfl,
    fun _ _ => ⟨rfl, rfl⟩, fun _ _ _ _ => rfl, fun _ _ => rfl,
    fun _ => rfl, fun _ _ _ => rfl, fun _ => rfl⟩

/-- Process 1 goes on for so many operations, and each device it waits for is ready. -/
def calls (n : ℕ) : List Event := List.replicate n (.call 1 ready)

/-- Process 1 misses a page. -/
def misses (entryHi : Word) : Event := .act 1 (.fault tlbl entryHi)

/-- The configuration after these steps, if they all meet a condition. -/
def sampleRun (P : Config → Event → Prop) [∀ c e, Decidable (P c e)] (es : List Event) :
    Option Config :=
  Transition.execIf (fun e c => threads.exec c e) P es (sampleBoot.config fun _ => 0)

theorem sampleRun_run {P : Config → Event → Prop} [∀ c e, Decidable (P c e)] {es : List Event}
    {c : Config} (h : sampleRun P es = some c) :
    ∃ tr, Transition.Run (· = sampleBoot.config fun _ => 0) threads.Step tr c ∧
      ∀ x ∈ tr, P x.1 x.2 :=
  Transition.execIf_run (fun _ _ _ _ h => h) (.start rfl) (by simp) h

end

/-- After the first page fault the pool and the tables agree. -/
theorem pool_agrees_first : ∃ (_ : Support) (c : Config), c.shared.holder .swapSem = none ∧
    c.shared.Consistent ∧ IsValid (c.shared.pte (.uProc 1 0)) := by
  let _ := sampleSupport
  have hexec : (sampleRun TakenCalmly (calls 45 ++ misses 0x80000000 :: calls 30)).any (fun c =>
      decide (c.shared.holder .swapSem = none ∧ IsValid (c.shared.pte (.uProc 1 0)))) = true := by
    decide +kernel
  obtain ⟨c, hc, hfacts⟩ := (Option.any_eq_true ..).mp hexec
  obtain ⟨hfree, hv⟩ := of_decide_eq_true hfacts
  obtain ⟨tr, hrun, hok⟩ := sampleRun_run hc
  exact ⟨sampleSupport, c, hfree, (pool_agrees sampleSupport_fits
    (hrun.mono fun c hc => ⟨sampleBoot, sampleBoot_initial, hc⟩) hok).1 hfree, hv⟩

/-- A process dies that has a page in a frame: the page stays mapped, and no frame is its own. -/
theorem death_leaves_valid : ¬ ∀ (_ : Support) (pc : Handler → Word) (tr : List (Config × Event))
    (c : Config), PoolFits → Run pc tr c → c.shared.holder .swapSem = none →
      c.shared.Consistent := by
  intro h
  let _ := sampleSupport
  have hexec : (sampleRun (fun _ _ => True) (calls 45 ++ misses 0x80000000 :: calls 30 ++
      .act 1 .death :: calls 13)).any (fun c => decide (c.shared.holder .swapSem = none ∧
        IsValid (c.shared.pte (.uProc 1 0)) ∧
        ∀ f < Support.swapSize, (c.shared.swapPool f).swAsid = -1)) = true := by
    decide +kernel
  obtain ⟨c, hc, hfacts⟩ := (Option.any_eq_true ..).mp hexec
  obtain ⟨hfree, hv, hnone⟩ := of_decide_eq_true hfacts
  obtain ⟨tr, hrun, -⟩ := sampleRun_run hc
  have hagree := h sampleSupport (fun _ => 0) tr c sampleSupport_fits
    (hrun.mono fun c hc => ⟨sampleBoot, sampleBoot_initial, hc⟩) hfree
  have huser : (PteRef.uProc 1 0).IsUser := ⟨by decide, by decide⟩
  obtain ⟨f, ⟨hf, -⟩, -⟩ := (hagree (.uProc 1 0) huser).1.mp hv
  exact hf.2 (hnone f hf.1)

end Paging

end Jaeos
