import Jaeos.Support.Pager

/-!
# What the pager's steps do to the invariant

One lemma for each thing that happens to a frame: its page loses its mapping, is written to the
backing store, another is read in, and is mapped; and for what happens to a process.
-/

namespace Jaeos

namespace Paging

section

variable [Support] {sure : Prop} {tapes : ℤ → List Page} {s s' : Paging} {g g' : Record} {f f' : ℕ}
  {i k : ℤ} {e : Word}

omit [Support] in
theorem Record.open_inj (hf : g.Open f) (hf' : g.Open f') : f = f' := by
  obtain ⟨st, hst⟩ := hf
  obtain ⟨st', hst'⟩ := hf'
  have heq := hst.symm.trans hst'
  simp only [Option.some.injEq, Prod.mk.injEq] at heq
  exact heq.1

omit [Support] in
theorem Record.Left.open (h : g.Left f) : g.Open f := h.imp fun _ h => h.1

omit [Support] in
theorem Record.not_open (h : g.hole = none) : ¬ g.Open f := by
  rintro ⟨st, hst⟩
  simp [h] at hst

/-! ## Reading the invariant -/

theorem Table.slot_of_pte (h : Table (s, g)) (hf : s.Active f)
    (hpte : (s.swapPool f).swPte = some (.uProc i k)) : Slot (s, g) f i k := by
  obtain ⟨i', k', hs⟩ := h.slot f hf
  have hik := hs.pte.symm.trans hpte
  simp only [Option.some.injEq, PteRef.uProc.injEq] at hik
  obtain ⟨rfl, rfl⟩ := hik
  exact hs

/-- A page has one frame. -/
theorem Table.slot_inj (hfit : PoolFits) (h : Table (s, g)) (hf : s.Active f) (hf' : s.Active f')
    (hpte : (s.swapPool f).swPte = some (.uProc i k))
    (hpte' : (s.swapPool f').swPte = some (.uProc i k)) : f = f' := by
  have hs := h.slot_of_pte hf hpte
  have hs' := h.slot_of_pte hf' hpte'
  by_cases ho : g.Open f
  · by_cases ho' : g.Open f'
    · exact Record.open_inj ho ho'
    · have hvalid := hs'.mapped ho'
      exact absurd (hvalid ▸ isValid_mapping f') (hs.unmapped ho)
  · by_cases ho' : g.Open f'
    · have hvalid := hs.mapped ho
      exact absurd (hvalid ▸ isValid_mapping f) (hs'.unmapped ho')
    · exact hfit.mapping_inj hf.1 hf'.1 ((hs.mapped ho).symm.trans (hs'.mapped ho'))

/-- A page that is mapped is in a frame. -/
theorem Table.at_of_isValid (h : Table (s, g)) (hi : IsUser i) (hk : IsPage k)
    (hage : g.age i ≠ .dead) (hv : IsValid (s.pte (.uProc i k))) :
    ∃ f, At (s, g) i k f ∧ ¬ g.Open f ∧ s.pte (.uProc i k) = mapping f := by
  obtain ⟨f, hf, hpte⟩ := h.mapped i k hi hk hage hv
  have hs := h.slot_of_pte hf hpte
  have ho : ¬ g.Open f := fun ho => hs.unmapped ho hv
  exact ⟨f, ⟨hf, hpte, fun hl => ho hl.open⟩, ho, hs.mapped ho⟩

/-- A process that has done nothing has no page in a frame. -/
theorem Table.not_at_of_fresh (h : Table (s, g)) (hi : IsUser i) (hage : g.age i = .fresh) (f : ℕ) :
    ¬ At (s, g) i k f := by
  rintro ⟨hf, hpte, -⟩
  exact (h.fresh i hi hage).1 f hf.1 (h.slot_of_pte hf hpte).asid

/-- A page that is not mapped is in no frame but the one that is worked on. -/
theorem Table.open_of_active (h : Table (s, g)) (hv : ¬ IsValid (s.pte (.uProc i k)))
    (hf : s.Active f) (hpte : (s.swapPool f).swPte = some (.uProc i k)) : g.Open f := by
  by_contra ho
  exact hv ((h.slot_of_pte hf hpte).mapped ho ▸ isValid_mapping f)

omit [Support] in
theorem Holds.congr {p : Page} (h : s.Holds tapes i k p) (hst : s'.stored i k = s.stored i k) :
    s'.Holds tapes i k p := by
  intro w v hv
  apply h w v
  rw [expected, hst] at hv
  exact hv

/-! ## Steps that leave the pool and the tables alone -/

/-- The swap pool and the tables are the same. -/
structure SamePool (s s' : Paging) : Prop where
  /-- `nextFrame` -/
  nextFrame : s'.nextFrame = s.nextFrame
  /-- `swapPool` -/
  swapPool : s'.swapPool = s.swapPool
  /-- the tables -/
  pte : s'.pte = s.pte

namespace SamePool

theorem at_iff (h : SamePool s s') (hleft : g'.Left f ↔ g.Left f) :
    At (s', g') i k f ↔ At (s, g) i k f := by
  simp only [At, Active, h.swapPool, hleft]

theorem slot (h : SamePool s s') (hopen : g'.Open f ↔ g.Open f) (hs : Slot (s, g) f i k) :
    Slot (s', g') f i k := by
  obtain ⟨ha, hp, hpte, hu, hk, hm, hn⟩ := hs
  refine ⟨?_, ?_, ?_, hu, hk, ?_, ?_⟩
  · exact h.swapPool ▸ ha
  · exact h.swapPool ▸ hp
  · exact h.swapPool ▸ hpte
  · rw [hopen, h.pte]
    exact hm
  · rw [hopen, h.pte]
    exact hn

theorem table (h : SamePool s s') (ht : Table (s, g)) (hopen : ∀ f, g'.Open f ↔ g.Open f)
    (hdead : ∀ i, g'.age i ≠ .dead → g.age i ≠ .dead)
    (hfresh : ∀ i, g'.age i = .fresh → g.age i = .fresh ∧ s'.stored i = s.stored i)
    (hlock : s'.holder .swapSem = none → g'.hole = none)
    (hfilling : ∀ f i k, g'.hole = some (f, .filled i k) →
      ¬ IsValid (s.pte (.uProc i k)) ∧ g'.age i ≠ .fresh) : Table (s', g') where
  lock := hlock
  range f hf := ht.range f ((hopen f).mp hf)
  turn f hf := h.nextFrame.trans (ht.turn f ((hopen f).mp hf))
  slot f hf := by
    obtain ⟨i, k, hs⟩ := ht.slot f (by simpa only [Active, h.swapPool] using hf)
    exact ⟨i, k, h.slot (hopen f) hs⟩
  mapped i k hi hk hage hv := by
    simp only [Active, h.swapPool]
    exact ht.mapped i k hi hk (hdead i hage) (h.pte ▸ hv)
  shared k hk := h.pte ▸ ht.shared k hk
  fresh i hi hage := by
    obtain ⟨hage', hst⟩ := hfresh i hage
    simp only [h.swapPool, hst]
    exact ht.fresh i hi hage'
  filling f i k hhole := by
    rw [h.pte]
    exact hfilling f i k hhole

end SamePool

/-- The pages stay where they are. -/
theorem Contents.stay (h : Contents tapes (s, g)) (hlive : ∀ i, g'.age i = .live → g.age i = .live)
    (hstored : s'.stored = s.stored)
    (hfilled : ∀ f i k, g'.hole = some (f, .filled i k) → f < Support.swapSize ∧
      g.hole = some (f, .filled i k))
    (hin : ∀ i k f, g.age i = .live → At (s', g') i k f →
      At (s, g) i k f ∨ g.hole = some (f, .filled i k))
    (hout : ∀ i k f, g.age i = .live → At (s, g) i k f → At (s', g') i k f)
    (hram : ∀ f < Support.swapSize, s'.ram.page (swapAddr f) = s.ram.page (swapAddr f))
    (hblocks : ∀ i k, IsUser i → g.age i = .live →
      s'.blocks 0 (pageBlock i k) = s.blocks 0 (pageBlock i k)) : Contents tapes (s', g') where
  filled f i k hhole hage := by
    obtain ⟨hlt, hhole'⟩ := hfilled f i k hhole
    rw [hram f hlt]
    exact (h.filled f i k hhole' (hlive i hage)).congr (congrFun (congrFun hstored i) k)
  inFrame i k f hi hk hage hat := by
    rw [hram f hat.1.1]
    apply Holds.congr (s := s) _ (congrFun (congrFun hstored i) k)
    rcases hin i k f (hlive i hage) hat with hat' | hhole
    · exact h.inFrame i k f hi hk (hlive i hage) hat'
    · exact h.filled f i k hhole (hlive i hage)
  onDisk i k hi hk hage hno := by
    rw [hblocks i k.toNat hi (hlive i hage)]
    exact (h.onDisk i k hi hk (hlive i hage) fun f hat =>
      hno f (hout i k f (hlive i hage) hat)).congr
      (congrFun (congrFun hstored i) k)

/-- Nothing happens to the pool, the tables and the pages. -/
theorem Core.stay (h : Core sure tapes (s, g)) (hsame : SamePool s s')
    (hstored : s'.stored = s.stored) (hlock : s'.holder .swapSem = none → g.hole = none)
    (hdoomed : ¬ sure → ∀ i, s'.dying i = true → s'.holder .swapSem = some i →
      ∀ f < Support.swapSize, (s.swapPool f).swAsid ≠ i)
    (hram : ∀ f < Support.swapSize, s'.ram.page (swapAddr f) = s.ram.page (swapAddr f))
    (hblocks : ∀ i k, IsUser i → g.age i = .live →
      s'.blocks 0 (pageBlock i k) = s.blocks 0 (pageBlock i k)) : Core sure tapes (s', g) where
  table := hsame.table h.table (fun _ => Iff.rfl) (fun _ h => h)
    (fun i h => ⟨h, congrFun hstored i⟩)
    hlock h.table.filling
  doomed hsure i hd hl := hsame.swapPool ▸ hdoomed hsure i hd hl
  ages := h.ages
  contents hsure := (h.contents hsure).stay (fun _ h => h) hstored
    (fun f _ _ hhole => ⟨h.table.range f ⟨_, hhole⟩, hhole⟩)
    (fun _ _ _ _ hat => .inl ((hsame.at_iff Iff.rfl).mp hat))
    (fun _ _ _ _ hat => (hsame.at_iff Iff.rfl).mpr hat) hram hblocks

/-- So it is when nothing that the invariant is about changes. -/
theorem Core.still (h : Core sure tapes (s, g)) (hsame : SamePool s s')
    (hstored : s'.stored = s.stored) (hholder : s'.holder = s.holder) (hdying : s'.dying = s.dying)
    (hram : s'.ram = s.ram) (hblocks : s'.blocks = s.blocks) : Core sure tapes (s', g) := by
  apply h.stay hsame hstored
  · exact fun hl => h.table.lock (hholder ▸ hl)
  · exact fun hsure j hd hl => h.doomed hsure j (hdying ▸ hd) (hholder ▸ hl)
  · exact fun _ _ => by rw [hram]
  · exact fun _ _ _ _ => by rw [hblocks]

/-! ## What happens to a frame -/

/-- An entry of a page table is set. -/
def setPte (s : Paging) (r : PteRef) (e : Word) : Paging :=
  { s with pte := Function.update s.pte r e }

/-- An entry of the swap pool is set. -/
def setFrame (s : Paging) (f : ℕ) (frame : Swap) : Paging :=
  { s with swapPool := Function.update s.swapPool f frame }

/-- Somebody works on a frame. -/
abbrev Record.work (g : Record) (f : ℕ) (st : Stage) : Record := { g with hole := some (f, st) }

omit [Support] in
theorem Record.open_work {st : Stage} : (g.work f st).Open f' ↔ f' = f := by
  simp [Record.Open, eq_comm]

omit [Support] in
theorem Record.left_work {st : Stage} : (g.work f st).Left f' ↔ f' = f ∧ st ≠ .out := by
  simp [Record.Left, eq_comm]

/-- A frame is chosen. -/
theorem Core.choose (h : Core sure tapes (s, g)) (hhole : g.hole = none) :
    Core sure tapes ({ s with nextFrame := f }, g) := by
  refine ⟨?_, h.doomed, h.ages, fun hsure => ?_⟩
  · constructor
    · exact h.table.lock
    · exact h.table.range
    · exact fun f' ho => absurd ho (Record.not_open hhole)
    · intro f' hf'
      obtain ⟨i', k', hs⟩ := h.table.slot f' hf'
      exact ⟨i', k', hs.asid, hs.page, hs.pte, hs.user, hs.isPage, hs.mapped, hs.unmapped⟩
    · exact h.table.mapped
    · exact h.table.shared
    · exact h.table.fresh
    · exact h.table.filling
  · have hc := h.contents hsure
    exact ⟨hc.filled, hc.inFrame, hc.onDisk⟩

/-- The page of the entry loses its mapping. -/
theorem Core.unmap (hfit : PoolFits) (h : Core sure tapes (s, g)) (hhole : g.hole = none)
    (hlock : s.holder .swapSem ≠ none) (hturn : s.nextFrame = f) (hs : Slot (s, g) f i k)
    (hf : s.Active f) (he : ¬ IsValid e) :
    Core sure tapes (s.setPte (.uProc i k) e, g.work f .out) := by
  have hopen : ∀ f', ¬ g.Open f' := fun f' => Record.not_open hhole
  have hpte : ∀ r, r ≠ .uProc i k → (s.setPte (.uProc i k) e).pte r = s.pte r :=
    fun r hne => Function.update_of_ne hne ..
  have hself : (s.setPte (.uProc i k) e).pte (.uProc i k) = e := Function.update_self ..
  have hvalid : ∀ i' k', IsValid ((s.setPte (.uProc i k) e).pte (.uProc i' k')) →
      PteRef.uProc i' k' ≠ .uProc i k ∧ IsValid (s.pte (.uProc i' k')) := by
    intro i' k' hv
    by_cases hne : PteRef.uProc i' k' = .uProc i k
    · exact absurd (hself ▸ hne ▸ hv) he
    · exact ⟨hne, hpte _ hne ▸ hv⟩
  have hat : ∀ i' k' f', At (s.setPte (.uProc i k) e, g.work f .out) i' k' f' ↔
      At (s, g) i' k' f' := by
    intro i' k' f'
    have hleft : ¬ g.Left f' := fun hl => hopen f' hl.open
    have hleft' : ¬ (g.work f .out).Left f' := fun hl => (Record.left_work.mp hl).2 rfl
    exact and_congr_right fun _ => and_congr_right fun _ => iff_of_true hleft' hleft
  refine ⟨?_, h.doomed, h.ages, fun hsure => ?_⟩
  · constructor
    · exact fun hl => absurd hl hlock
    · intro f' ho
      rw [Record.open_work.mp ho]
      exact hf.1
    · intro f' ho
      exact hturn.trans (Record.open_work.mp ho).symm
    · intro f' hf'
      obtain ⟨i', k', hs'⟩ := h.table.slot f' hf'
      refine ⟨i', k', hs'.asid, hs'.page, hs'.pte, hs'.user, hs'.isPage, fun ho => ?_, fun ho => ?_⟩
      · have hne : PteRef.uProc i' k' ≠ .uProc i k := fun hik => ho (Record.open_work.mpr
          (h.table.slot_inj hfit hf' hf (hik ▸ hs'.pte) hs.pte))
        exact (hpte _ hne).trans (hs'.mapped (hopen f'))
      · obtain rfl := Record.open_work.mp ho
        have hik := Option.some.inj (hs'.pte.symm.trans hs.pte)
        exact fun hv => (hvalid i' k' hv).1 hik
    · exact fun i' k' hi hk hage hv => h.table.mapped i' k' hi hk hage (hvalid i' k' hv).2
    · intro k' hk hv
      rw [hpte _ (by simp)] at hv
      exact h.table.shared k' hk hv
    · exact h.table.fresh
    · intro f' i' k' hh
      simp at hh
  · refine (h.contents hsure).stay (fun _ h => h) rfl (fun _ _ _ hh => ?_)
      (fun _ _ _ _ hx => .inl ((hat _ _ _).mp hx)) (fun _ _ _ _ hx => (hat _ _ _).mpr hx)
      (fun _ _ => rfl) (fun _ _ _ _ => rfl)
    simp at hh

/-- A frame that is not in use is taken. -/
theorem Core.take (h : Core sure tapes (s, g)) (hhole : g.hole = none)
    (hlock : s.holder .swapSem ≠ none) (hturn : s.nextFrame = f) (hlt : f < Support.swapSize)
    (hf : (s.swapPool f).swAsid = -1) : Core sure tapes (s, g.work f .gone) := by
  have hopen : ∀ f', ¬ g.Open f' := fun f' => Record.not_open hhole
  have hne : ∀ f', s.Active f' → f' ≠ f := fun f' hf' hff => hf'.2 (hff ▸ hf)
  have hat : ∀ i' k' f', At (s, g.work f .gone) i' k' f' ↔ At (s, g) i' k' f' := by
    intro i' k' f'
    have hleft : ¬ g.Left f' := fun hl => hopen f' hl.open
    refine and_congr_right fun hf' => and_congr_right fun _ => iff_of_true ?_ hleft
    exact fun hl => hne f' hf' (Record.left_work.mp hl).1
  refine ⟨?_, h.doomed, h.ages, fun hsure => ?_⟩
  · constructor
    · exact fun hl => absurd hl hlock
    · intro f' ho
      rw [Record.open_work.mp ho]
      exact hlt
    · intro f' ho
      exact hturn.trans (Record.open_work.mp ho).symm
    · intro f' hf'
      obtain ⟨i', k', hs'⟩ := h.table.slot f' hf'
      exact ⟨i', k', hs'.asid, hs'.page, hs'.pte, hs'.user, hs'.isPage,
        fun _ => hs'.mapped (hopen f'), fun ho => absurd (Record.open_work.mp ho) (hne f' hf')⟩
    · exact h.table.mapped
    · exact h.table.shared
    · exact h.table.fresh
    · intro f' i' k' hh
      simp at hh
  · refine (h.contents hsure).stay (fun _ h => h) rfl (fun _ _ _ hh => ?_)
      (fun _ _ _ _ hx => .inl ((hat _ _ _).mp hx)) (fun _ _ _ _ hx => (hat _ _ _).mpr hx)
      (fun _ _ => rfl) (fun _ _ _ _ => rfl)
    simp at hh

/-- The page of the entry has been written to the backing store. -/
theorem Core.writeOut (h : Core sure tapes (s, g)) (hsame : SamePool s s')
    (hstored : s'.stored = s.stored) (hholder : s'.holder = s.holder) (hdying : s'.dying = s.dying)
    (hlock : s.holder .swapSem ≠ none) (hhole : g.hole = some (f, .out))
    (hs : Slot (s, g) f i k) (hf : s.Active f) (hram : s'.ram = s.ram)
    (hblock : s'.blocks 0 = Function.update (s.blocks 0) (pageBlock i k.toNat)
      (s.ram.page (swapAddr f))) : Core sure tapes (s', g.work f .gone) := by
  have hopen : ∀ f', (g.work f .gone).Open f' ↔ g.Open f' := by
    intro f'
    rw [Record.open_work]
    simp [Record.Open, hhole, eq_comm]
  have hstay : ∀ f', ¬ g.Left f' := by
    rintro f' ⟨st, hst, hne⟩
    rw [hhole] at hst
    exact hne (Prod.mk.inj (Option.some.inj hst)).2.symm
  refine ⟨?_, ?_, h.ages, fun hsure => ?_⟩
  · refine hsame.table h.table hopen (fun _ h => h) (fun i' h => ⟨h, congrFun hstored i'⟩)
      (fun hl => absurd (hholder ▸ hl) hlock) fun f' i' k' hh => ?_
    simp at hh
  · intro hsure i' hd hl
    rw [hsame.swapPool]
    exact h.doomed hsure i' (hdying ▸ hd) (hholder ▸ hl)
  · constructor
    · intro f' i' k' hh
      simp at hh
    · rintro i' k' f' hi hk hage ⟨hf', hpte, -⟩
      rw [hram]
      simp only [Active, hsame.swapPool] at hf' hpte
      exact ((h.contents hsure).inFrame i' k' f' hi hk hage ⟨hf', hpte, hstay f'⟩).congr
        (congrFun (congrFun hstored i') k')
    · intro i' k' hi hk hage hno
      apply Holds.congr (s := s) _ (congrFun (congrFun hstored i') k')
      rw [hblock]
      by_cases hik : i' = i ∧ k' = k
      · obtain ⟨rfl, rfl⟩ := hik
        rw [Function.update_self]
        exact (h.contents hsure).inFrame i' k' f hi hk hage ⟨hf, hs.pte, hstay f⟩
      · have hother : pageBlock i' k'.toNat ≠ pageBlock i k.toNat := by
          intro he
          obtain ⟨rfl, hkk⟩ := pageBlock_inj hi.1 hs.user.1 he
          have hk1 := hk.1
          have hk2 := hs.isPage.1
          exact hik ⟨rfl, by omega⟩
        rw [Function.update_of_ne hother]
        refine (h.contents hsure).onDisk i' k' hi hk hage ?_
        rintro f' ⟨hf', hpte, -⟩
        refine hno f' ⟨?_, hsame.swapPool ▸ hpte, fun hl => ?_⟩
        · simpa only [Active, hsame.swapPool] using hf'
        · -- the frame that is written back holds another page
          obtain rfl := (Record.left_work.mp hl).1
          have heq := hpte.symm.trans hs.pte
          simp only [Option.some.injEq, PteRef.uProc.injEq] at heq
          exact hik heq

/-- A page has been read into the frame. -/
theorem Core.readIn {st : Stage} (hfit : PoolFits) (h : Core sure tapes (s, g))
    (hsame : SamePool s s')
    (hstored : s'.stored = s.stored) (hholder : s'.holder = s.holder) (hdying : s'.dying = s.dying)
    (hlock : s.holder .swapSem ≠ none) (hlt : f < Support.swapSize)
    (hhole : g.hole = some (f, st)) (hst : sure → st = .gone) (hi : IsUser i) (hk : IsPage k)
    (hv : ¬ IsValid (s.pte (.uProc i k))) (hage : g.age i ≠ .fresh)
    (hblocks : s'.blocks 0 = s.blocks 0)
    (hram : s'.ram = s.ram.setPage (swapAddr f) (s.blocks 0 (pageBlock i k.toNat))) :
    Core sure tapes (s', g.work f (.filled i k)) := by
  have hopen : ∀ f', (g.work f (.filled i k)).Open f' ↔ g.Open f' := by
    intro f'
    rw [Record.open_work]
    simp [Record.Open, hhole, eq_comm]
  have hother : ∀ f' < Support.swapSize, f' ≠ f →
      s'.ram.page (swapAddr f') = s.ram.page (swapAddr f') := by
    intro f' hlt' hne
    rw [hram]
    exact Ram.page_setPage_of_ne (hfit.swapAddr_aligned hlt) (hfit.swapAddr_aligned hlt')
      fun he => hne (hfit.swapAddr_inj hlt' hlt he)
  refine ⟨?_, ?_, h.ages, fun hsure => ?_⟩
  · refine hsame.table h.table hopen (fun _ h => h) (fun i' h => ⟨h, congrFun hstored i'⟩)
      (fun hl => absurd (hholder ▸ hl) hlock) fun f' i' k' hh => ?_
    simp only [Option.some.injEq, Prod.mk.injEq, Stage.filled.injEq] at hh
    obtain ⟨-, rfl, rfl⟩ := hh
    exact ⟨hv, hage⟩
  · intro hsure i' hd hl
    rw [hsame.swapPool]
    exact h.doomed hsure i' (hdying ▸ hd) (hholder ▸ hl)
  · obtain rfl := hst hsure
    have hleft : ∀ f', g.Left f' ↔ f' = f := by
      intro f'
      simp [Record.Left, hhole, eq_comm]
    have hleft' : ∀ f', (g.work f (.filled i k)).Left f' ↔ g.Left f' := by
      intro f'
      simp [Record.left_work, hleft]
    constructor
    · intro f' i' k' hh hage
      simp only [Option.some.injEq, Prod.mk.injEq, Stage.filled.injEq] at hh
      obtain ⟨rfl, rfl, rfl⟩ := hh
      rw [hram, Ram.page_setPage_self]
      refine ((h.contents hsure).onDisk i k hi hk hage ?_).congr
        (congrFun (congrFun hstored i) k)
      rintro f' ⟨hf', hpte, hl⟩
      have ho := h.table.open_of_active hv hf' hpte
      exact hl ((hleft f').mpr (Record.open_inj ho ⟨_, hhole⟩))
    · intro i' k' f' hi' hk' hage hat
      have hat' := (hsame.at_iff (hleft' f')).mp hat
      rw [hother f' hat'.1.1 fun hff => hat'.2.2 ((hleft f').mpr hff)]
      exact ((h.contents hsure).inFrame i' k' f' hi' hk' hage hat').congr
        (congrFun (congrFun hstored i') k')
    · intro i' k' hi' hk' hage hno
      rw [hblocks]
      exact ((h.contents hsure).onDisk i' k' hi' hk' hage fun f' hat =>
        hno f' ((hsame.at_iff (hleft' f')).mpr hat)).congr (congrFun (congrFun hstored i') k')

/-- The frame is given to the page that has been read in. -/
theorem Core.enter {st : Stage} {frame : Swap} (h : Core sure tapes (s, g))
    (hlock : s.holder .swapSem = some i) (hdying : s.dying i = false)
    (hhole : g.hole = some (f, st)) (hst : sure → st = .filled i k) (hi : IsUser i) (hk : IsPage k)
    (hv : ¬ IsValid (s.pte (.uProc i k))) (hage : g.age i ≠ .fresh)
    (hframe : frame.swAsid = i ∧ frame.swPageNo = k ∧ frame.swPte = some (.uProc i k)) :
    Core sure tapes (s.setFrame f frame, g) := by
  have ho : g.Open f := ⟨st, hhole⟩
  have hself : (s.setFrame f frame).swapPool f = frame := Function.update_self ..
  have hother : ∀ f', f' ≠ f → (s.setFrame f frame).swapPool f' = s.swapPool f' :=
    fun f' hne => Function.update_of_ne hne ..
  have hactive : ∀ f', f' ≠ f → ((s.setFrame f frame).Active f' ↔ s.Active f') := by
    intro f' hne
    simp only [Active, hother f' hne]
  refine ⟨?_, ?_, h.ages, fun hsure => ?_⟩
  · constructor
    · exact h.table.lock
    · exact h.table.range
    · exact h.table.turn
    · intro f' hf'
      by_cases hff : f' = f
      · subst hff
        refine ⟨i, k, ?_, ?_, ?_, hi, hk, fun hno => absurd ho hno, fun _ => hv⟩
        · exact (congrArg Swap.swAsid hself).trans hframe.1
        · exact (congrArg Swap.swPageNo hself).trans hframe.2.1
        · exact (congrArg Swap.swPte hself).trans hframe.2.2
      · obtain ⟨i', k', hs'⟩ := h.table.slot f' ((hactive f' hff).mp hf')
        refine ⟨i', k', ?_, ?_, ?_, hs'.user, hs'.isPage, hs'.mapped, hs'.unmapped⟩
        · exact hother f' hff ▸ hs'.asid
        · exact hother f' hff ▸ hs'.page
        · exact hother f' hff ▸ hs'.pte
    · intro i' k' hi' hk' hage' hv'
      obtain ⟨f', hf', hpte⟩ := h.table.mapped i' k' hi' hk' hage' hv'
      -- the page of a frame that is worked on is not mapped
      have hff : f' ≠ f := by
        rintro rfl
        exact (h.table.slot_of_pte hf' hpte).unmapped ho hv'
      exact ⟨f', (hactive f' hff).mpr hf', hother f' hff ▸ hpte⟩
    · exact h.table.shared
    · intro i' hi' hage'
      obtain ⟨hno, hst'⟩ := h.table.fresh i' hi' hage'
      refine ⟨fun f' hf' => ?_, hst'⟩
      by_cases hff : f' = f
      · rw [hff, hself, hframe.1]
        rintro rfl
        exact hage hage'
      · rw [hother f' hff]
        exact hno f' hf'
    · exact h.table.filling
  · intro _ i' hd hl
    obtain rfl := Option.some.inj (hlock.symm.trans hl)
    exact absurd (hdying.symm.trans hd) (by simp)
  · obtain rfl := hst hsure
    have hleft : g.Left f := ⟨_, hhole, by simp⟩
    have hat : ∀ i' k' f', At (s.setFrame f frame, g) i' k' f' ↔ At (s, g) i' k' f' := by
      intro i' k' f'
      by_cases hff : f' = f
      · exact iff_of_false (fun hx => hx.2.2 (hff ▸ hleft)) fun hx => hx.2.2 (hff ▸ hleft)
      · simp only [At, hactive f' hff, hother f' hff]
    exact (h.contents hsure).stay (fun _ h => h) rfl
      (fun f' _ _ hh => ⟨h.table.range f' ⟨_, hh⟩, hh⟩)
      (fun _ _ _ _ hx => .inl ((hat _ _ _).mp hx)) (fun _ _ _ _ hx => (hat _ _ _).mpr hx)
      (fun _ _ => rfl) (fun _ _ _ _ => rfl)

/-- The page is mapped to its frame. -/
theorem Core.map {st : Stage} (hfit : PoolFits) (h : Core sure tapes (s, g))
    (hhole : g.hole = some (f, st)) (hst : sure → st = .filled i k) (hs : Slot (s, g) f i k)
    (hf : s.Active f) : Core sure tapes
    (s.setPte (.uProc i k) (mapping f), { g with hole := none }) := by
  have ho : g.Open f := ⟨st, hhole⟩
  have hclosed : ∀ f', ¬ Record.Open { g with hole := none } f' := fun f' => Record.not_open rfl
  have hself : (s.setPte (.uProc i k) (mapping f)).pte (.uProc i k) = mapping f :=
    Function.update_self ..
  have hpte : ∀ r, r ≠ .uProc i k → (s.setPte (.uProc i k) (mapping f)).pte r = s.pte r :=
    fun r hne => Function.update_of_ne hne ..
  refine ⟨?_, h.doomed, h.ages, fun hsure => ?_⟩
  · constructor
    · exact fun _ => rfl
    · exact fun f' ho' => absurd ho' (hclosed f')
    · exact fun f' ho' => absurd ho' (hclosed f')
    · intro f' hf'
      obtain ⟨i', k', hs'⟩ := h.table.slot f' hf'
      refine ⟨i', k', hs'.asid, hs'.page, hs'.pte, hs'.user, hs'.isPage, fun _ => ?_,
        fun ho' => absurd ho' (hclosed f')⟩
      by_cases hik : PteRef.uProc i' k' = .uProc i k
      · rw [hik, hself, h.table.slot_inj hfit hf' hf (hik ▸ hs'.pte) hs.pte]
      · rw [hpte _ hik]
        refine hs'.mapped fun ho' => hik ?_
        obtain rfl := Record.open_inj ho' ho
        exact Option.some.inj (hs'.pte.symm.trans hs.pte)
    · intro i' k' hi' hk' hage hv
      by_cases hik : PteRef.uProc i' k' = .uProc i k
      · exact ⟨f, hf, hik ▸ hs.pte⟩
      · exact h.table.mapped i' k' hi' hk' hage (hpte _ hik ▸ hv)
    · intro k' hk' hv
      rw [hpte _ (by simp)] at hv
      exact h.table.shared k' hk' hv
    · exact h.table.fresh
    · intro f' i' k' hh
      simp at hh
  · obtain rfl := hst hsure
    have hleft : ∀ f', g.Left f' ↔ f' = f := by
      intro f'
      simp [Record.Left, hhole, eq_comm]
    refine (h.contents hsure).stay (fun _ h => h) rfl (fun _ _ _ hh => ?_)
      (fun i' k' f' _ hx => ?_) (fun i' k' f' _ hx => ?_) (fun _ _ => rfl) (fun _ _ _ _ => rfl)
    · simp at hh
    · by_cases hff : f' = f
      · subst hff
        have heq := hx.2.1.symm.trans hs.pte
        simp only [Option.some.injEq, PteRef.uProc.injEq] at heq
        obtain ⟨rfl, rfl⟩ := heq
        exact .inr hhole
      · exact .inl ⟨hx.1, hx.2.1, fun hl => hff ((hleft f').mp hl)⟩
    · exact ⟨hx.1, hx.2.1, fun hl => hclosed f' hl.open⟩

/-! ## What happens to a process -/

/-- A dying process gives a frame back. Its entry does not matter any more. -/
theorem Core.drop (hfit : PoolFits) (h : Core sure tapes (s, g)) (hhole : g.hole = none)
    (hs : Slot (s, g) f i k) (hf : s.Active f) (hage : g.age i = .dead) {frame : Swap}
    (hframe : frame.swAsid = -1) :
    Core sure tapes ((s.setPte (.uProc i k) e).setFrame f frame, g) := by
  have hopen : ∀ f', ¬ g.Open f' := fun f' => Record.not_open hhole
  let s₁ := (s.setPte (.uProc i k) e).setFrame f frame
  have hself : s₁.swapPool f = frame := Function.update_self ..
  have hother : ∀ f', f' ≠ f → s₁.swapPool f' = s.swapPool f' :=
    fun f' hne => Function.update_of_ne hne ..
  have hpte : ∀ r, r ≠ .uProc i k → s₁.pte r = s.pte r := fun r hne => Function.update_of_ne hne ..
  have hactive : ∀ f', s₁.Active f' → f' ≠ f ∧ s.Active f' := by
    rintro f' ⟨hlt, hf'⟩
    by_cases hff : f' = f
    · rw [hff, hself, hframe] at hf'
      exact absurd rfl hf'
    · exact ⟨hff, hlt, hother f' hff ▸ hf'⟩
  refine ⟨?_, fun hsure => absurd hage (h.ages hsure i), h.ages, fun hsure => ?_⟩
  · constructor
    · exact fun _ => hhole
    · exact h.table.range
    · exact h.table.turn
    · intro f' hf'
      obtain ⟨hff, hf''⟩ := hactive f' hf'
      obtain ⟨i', k', hs'⟩ := h.table.slot f' hf''
      have hne : PteRef.uProc i' k' ≠ .uProc i k := fun hik =>
        hff (h.table.slot_inj hfit hf'' hf (hik ▸ hs'.pte) hs.pte)
      refine ⟨i', k', ?_, ?_, ?_, hs'.user, hs'.isPage, fun ho => ?_, fun ho =>
        absurd ho (hopen f')⟩
      · exact hother f' hff ▸ hs'.asid
      · exact hother f' hff ▸ hs'.page
      · exact hother f' hff ▸ hs'.pte
      · exact (hpte _ hne).trans (hs'.mapped ho)
    · intro i' k' hi' hk' hage' hv
      have hne : PteRef.uProc i' k' ≠ .uProc i k := by
        rintro hik
        obtain ⟨rfl, -⟩ := PteRef.uProc.inj hik
        exact hage' hage
      obtain ⟨f', hf', hpte'⟩ := h.table.mapped i' k' hi' hk' hage' (hpte _ hne ▸ hv)
      have hff : f' ≠ f := by
        rintro rfl
        exact hne (Option.some.inj (hpte'.symm.trans hs.pte))
      exact ⟨f', ⟨hf'.1, hother f' hff ▸ hf'.2⟩, hother f' hff ▸ hpte'⟩
    · intro k' hk' hv
      rw [hpte _ (by simp)] at hv
      exact h.table.shared k' hk' hv
    · intro i' hi' hage'
      obtain ⟨hno, hst⟩ := h.table.fresh i' hi' hage'
      refine ⟨fun f' hf' => ?_, hst⟩
      by_cases hff : f' = f
      · have h1 := hi'.1
        rw [hff, hself, hframe]
        omega
      · rw [hother f' hff]
        exact hno f' hf'
    · exact fun f' i' k' hh => absurd (hh.symm.trans hhole) (by simp)
  · have hat : ∀ i' k' f', g.age i' = .live → (At (s₁, g) i' k' f' ↔ At (s, g) i' k' f') := by
      intro i' k' f' hlive
      by_cases hff : f' = f
      · -- the page of the frame is not that of a process that runs
        refine iff_of_false (fun hx => (hactive f' hx.1).1 hff) fun hx => ?_
        have heq := (hff ▸ hx.2.1).symm.trans hs.pte
        simp only [Option.some.injEq, PteRef.uProc.injEq] at heq
        rw [heq.1, hage] at hlive
        cases hlive
      · simp only [At, Active, hother f' hff]
    exact (h.contents hsure).stay (fun _ h => h) rfl
      (fun f' _ _ hh => ⟨h.table.range f' ⟨_, hh⟩, hh⟩)
      (fun _ _ _ hl hx => .inl ((hat _ _ _ hl).mp hx)) (fun _ _ _ hl hx => (hat _ _ _ hl).mpr hx)
      (fun _ _ => rfl) (fun _ _ _ _ => rfl)

/-- The process has another age. -/
abbrev Record.grow (g : Record) (i : ℤ) (a : Age) : Record :=
  { g with age := Function.update g.age i a }

omit [Support] in
theorem Record.age_grow_of_ne {a : Age} {j : ℤ} (hj : j ≠ i) : (g.grow i a).age j = g.age j :=
  Function.update_of_ne hj ..

omit [Support] in
theorem Record.age_grow_self {a : Age} : (g.grow i a).age i = a := Function.update_self ..

/-- A process begins to die. -/
theorem Core.die (h : Core sure tapes (s, g)) (hsure : sure) :
    Core sure tapes (s, g.grow i .dead) := by
  have hage : ∀ j a, a ≠ .dead → (g.grow i .dead).age j = a → g.age j = a := by
    intro j a ha hj
    by_cases hji : j = i
    · rw [hji, Record.age_grow_self] at hj
      exact absurd hj.symm ha
    · rwa [Record.age_grow_of_ne hji] at hj
  have hsame : SamePool s s := ⟨rfl, rfl, rfl⟩
  refine ⟨?_, h.doomed, fun hno => absurd hsure hno, fun hsure => ?_⟩
  · refine hsame.table h.table (fun _ => Iff.rfl) (fun j hj => ?_)
      (fun j hj => ⟨hage j .fresh (by simp) hj, rfl⟩) h.table.lock fun f j k hh => ?_
    · exact fun hd => hj (by by_cases hji : j = i <;> simp [hji, hd])
    · obtain ⟨hv, hne⟩ := h.table.filling f j k hh
      exact ⟨hv, fun hf => hne (hage j .fresh (by simp) hf)⟩
  · exact (h.contents hsure).stay (fun j hj => hage j .live (by simp) hj) rfl
      (fun f' _ _ hh => ⟨h.table.range f' ⟨_, hh⟩, hh⟩) (fun _ _ _ _ hx => .inl hx)
      (fun _ _ _ _ hx => hx) (fun _ _ => rfl) (fun _ _ _ _ => rfl)

/-- A process begins to run. -/
theorem Core.wake (h : Core sure tapes (s, g)) (hi : IsUser i) (hage : g.age i = .fresh)
    (hloaded : sure → s.Loaded tapes i (tapes i).length) :
    Core sure tapes (s, g.grow i .live) := by
  have hother : ∀ j, j ≠ i → (g.grow i .live).age j = g.age j := fun j => Record.age_grow_of_ne
  have hself : (g.grow i .live).age i = .live := Record.age_grow_self
  have hsame : SamePool s s := ⟨rfl, rfl, rfl⟩
  have hfilling : ∀ f k, g.hole ≠ some (f, .filled i k) := fun f k hh =>
    (h.table.filling f i k hh).2 hage
  refine ⟨?_, h.doomed, fun hsure j => ?_, fun hsure => ?_⟩
  · refine hsame.table h.table (fun _ => Iff.rfl) (fun j hj => ?_) (fun j hj => ?_) h.table.lock
      fun f j k hh => ?_
    · by_cases hji : j = i
      · rw [hji, hage]
        simp
      · rwa [hother j hji] at hj
    · by_cases hji : j = i
      · rw [hji, hself] at hj
        cases hj
      · exact ⟨hother j hji ▸ hj, rfl⟩
    · obtain ⟨hv, hne⟩ := h.table.filling f j k hh
      refine ⟨hv, ?_⟩
      by_cases hji : j = i
      · exact absurd (hji ▸ hh) (hfilling f k)
      · rwa [hother j hji]
  · by_cases hji : j = i
    · rw [hji, hself]
      simp
    · rw [hother j hji]
      exact h.ages hsure j
  · have hc := h.contents hsure
    constructor
    · intro f j k hh hj
      by_cases hji : j = i
      · exact absurd (hji ▸ hh) (hfilling f k)
      · exact hc.filled f j k hh (hother j hji ▸ hj)
    · intro j k f hu hk hj hat
      by_cases hji : j = i
      · subst hji
        exact absurd hat (h.table.not_at_of_fresh hi hage f)
      · exact hc.inFrame j k f hu hk (hother j hji ▸ hj) hat
    · intro j k hu hk hj hno
      by_cases hji : j = i
      · -- nothing has been stored yet, and the tape is on the backing store
        subst hji
        intro w v hv
        have hnone : s.stored j k w = none := (h.table.fresh j hi hage).2 k w
        simp only [expected, hnone, Option.map_eq_some_iff] at hv
        obtain ⟨p, hp, rfl⟩ := hv
        obtain ⟨hlt, -⟩ := List.getElem?_eq_some_iff.mp hp
        rw [hloaded hsure k.toNat p hlt hp]
      · exact hc.onDisk j k hu hk (hother j hji ▸ hj) hno

/-- A process stores a word. -/
theorem Core.stores (hfit : PoolFits) (h : Core sure tapes (s, g)) (hi : IsUser i) (hk : IsPage k)
    (hage : g.age i = .live) (hat : At (s, g) i k f) (ho : ¬ g.Open f)
    (hv : IsValid (s.pte (.uProc i k))) (he : frameAddress e = swapAddr f)
    {w : Fin 1024} {v : Word} :
    Core sure tapes (s.write (.uProc i k) e w v, g) := by
  have hlt : f < Support.swapSize := hat.1.1
  have hstored : ∀ j l, ¬ (j = i ∧ l = k) →
      (s.write (.uProc i k) e w v).stored j l = s.stored j l := by
    intro j l hjl
    funext x
    refine if_neg fun hx => hjl ?_
    have := PteRef.uProc.inj hx.1
    exact ⟨this.1.symm, this.2.symm⟩
  have hother : ∀ f' < Support.swapSize, f' ≠ f →
      (s.write (.uProc i k) e w v).ram.page (swapAddr f') = s.ram.page (swapAddr f') := by
    intro f' hlt' hff
    rw [write, he]
    exact Ram.page_store_of_ne (hfit.swapAddr_aligned hlt) (hfit.swapAddr_aligned hlt')
      fun heq => hff (hfit.swapAddr_inj hlt' hlt heq)
  have hpage : (s.write (.uProc i k) e w v).ram.page (swapAddr f) =
      Function.update (s.ram.page (swapAddr f)) w v := by
    rw [write, he]
    exact Ram.page_store_self (hfit.swapAddr_aligned hlt)
  have hsame : SamePool s (s.write (.uProc i k) e w v) := ⟨rfl, rfl, rfl⟩
  refine ⟨?_, h.doomed, h.ages, fun hsure => ?_⟩
  · refine hsame.table h.table (fun _ => Iff.rfl) (fun _ h => h) (fun j hj => ⟨hj, ?_⟩) h.table.lock
      h.table.filling
    funext l
    refine hstored j l fun hjl => ?_
    rw [hjl.1, hage] at hj
    cases hj
  · have hc := h.contents hsure
    constructor
    · intro f' j l hh hj
      have hjl : ¬ (j = i ∧ l = k) := by
        rintro ⟨rfl, rfl⟩
        exact (h.table.filling f' j l hh).1 hv
      have hff : f' ≠ f := fun hff => ho ⟨_, hff ▸ hh⟩
      rw [hother f' (h.table.range f' ⟨_, hh⟩) hff]
      exact (hc.filled f' j l hh hj).congr (hstored j l hjl)
    · intro j l f' hu hl hj hat'
      by_cases hjl : j = i ∧ l = k
      · obtain ⟨rfl, rfl⟩ := hjl
        obtain rfl := h.table.slot_inj hfit hat'.1 hat.1 hat'.2.1 hat.2.1
        rw [hpage]
        intro x u hx
        by_cases hxw : x = w
        · subst hxw
          simp only [expected, write, and_self, if_true, Option.some.injEq] at hx
          rw [Function.update_self, hx]
        · rw [Function.update_of_ne hxw]
          refine hc.inFrame j l f' hu hl hj hat x u ?_
          simpa [expected, write, hxw] using hx
      · have hff : f' ≠ f := by
          rintro rfl
          have heq := hat'.2.1.symm.trans hat.2.1
          simp only [Option.some.injEq, PteRef.uProc.injEq] at heq
          exact hjl heq
        rw [hother f' hat'.1.1 hff]
        exact (hc.inFrame j l f' hu hl hj hat').congr (hstored j l hjl)
    · intro j l hu hl hj hno
      have hjl : ¬ (j = i ∧ l = k) := by
        rintro ⟨rfl, rfl⟩
        exact hno f hat
      exact (hc.onDisk j l hu hl hj hno).congr (hstored j l hjl)

end

end Paging

end Jaeos
