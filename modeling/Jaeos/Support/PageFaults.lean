import Jaeos.Support.Fault
import Jaeos.Support.Sections

/-!
# What a page fault must not do

Three conditions on a fault: that no page is mapped and no page is lost when the backing store
fails, that the page that is mapped is the one that was missed, and that a page of the
shared segment is treated as one. For the first two there is an exact condition; the
third is never met, since a page of kUseg3 is taken for one of kUseg2.
-/

namespace Jaeos

namespace Paging

variable [Support] {i : ℤ} {s s' : Paging} {io io' : ℕ → Word} {r : Except End Unit}

/-- A fault has one end. -/
theorem faultRun_iff {P : Except End Unit → Paging → Prop}
    (hrun : faultRun i s io = some (r, s', io')) :
    (∃ r' s'' io'', faultRun i s io = some (r', s'', io'') ∧ P r' s'') ↔ P r s' := by
  constructor
  · rintro ⟨r', s'', io'', hrun', hP⟩
    obtain ⟨rfl, heq⟩ := Prod.mk.inj (Option.some.inj (hrun.symm.trans hrun'))
    obtain ⟨rfl, -⟩ := Prod.mk.inj heq
    exact hP
  · exact fun hP => ⟨r, s', io', hrun, hP⟩

/-! ## The page that is missing -/

omit [Support] in
/-- `pte_entryHI` as `test` sets it up: the last entry is that of the top page of kUseg2. -/
def pteEntryHi (procID j : ℤ) : Word :=
  if j = kUsegPteSize - 1 then (0xBFFFF <<< 12) ||| (word procID <<< asidShift)
  else (word (0x80000 + j) <<< 12) ||| (word procID <<< asidShift)

/-- The number of a virtual page. -/
def virtualPage (entryHi : Word) : Word := entryHi >>> 12

/-- The number of a page in its segment. -/
def segmentPage (entryHi : Word) : ℕ := ((entryHi &&& 0x3FFFF000) >>> 12).toNat

omit [Support] in
/-- The entry `j` of the table is that of the page that is missing. -/
def Missed (i : ℤ) (s : Paging) (j : ℤ) : Prop :=
  IsPage j ∧ virtualPage (pteEntryHi i j) = virtualPage (s.missing i)

/-- There is an entry for the page that is missing: it is one of the first pages of kUseg2, or the
top page. -/
def InTable (s : Paging) (i : ℤ) : Prop :=
  s.missing i >>> 30 = 2 ∧
    (segmentPage (s.missing i) ≤ 30 ∨ segmentPage (s.missing i) = 0x3FFFF)

section

omit [Support]

variable {entryHi : Word} {j : ℤ}

/-- The virtual pages of the table. -/
theorem virtualPage_pteEntryHi (h1 : 1 ≤ i) (h64 : i < 64) (hj : IsPage j) :
    (virtualPage (pteEntryHi i j)).toNat = if j = 31 then 0xBFFFF else 0x80000 + j.toNat := by
  have hsize : kUsegPteSize = 32 := rfl
  obtain ⟨h0, h32⟩ := hj
  have hlow : (word i <<< asidShift) >>> 12 = 0#32 := by
    interval_cases i <;> rfl
  rw [virtualPage, pteEntryHi]
  by_cases hlast : j = 31
  · rw [if_pos (by omega), if_pos hlast, BitVec.ushiftRight_or_distrib, hlow]
    rfl
  · rw [if_neg (by omega), if_neg hlast, BitVec.ushiftRight_or_distrib, hlow, BitVec.or_zero]
    have h31 : j < 31 := by omega
    clear hlow hlast h32
    interval_cases j <;> rfl

/-- The virtual page of a page of kUseg2. -/
theorem virtualPage_toNat (h : entryHi >>> 30 = 2) :
    (virtualPage entryHi).toNat = 0x80000 + segmentPage entryHi ∧ segmentPage entryHi < 2 ^ 18 := by
  have hmask : (entryHi &&& 0x3FFFF000) >>> 12 = (entryHi >>> 12) &&& 0x3FFFF := by
    apply BitVec.eq_of_getLsbD_eq
    intro k hk
    rw [BitVec.getLsbD_ushiftRight, BitVec.getLsbD_and, BitVec.getLsbD_and,
      BitVec.getLsbD_ushiftRight]
    interval_cases k <;> rfl
  have hpage : segmentPage entryHi = entryHi.toNat / 2 ^ 12 % 2 ^ 18 := by
    rw [segmentPage, hmask, BitVec.toNat_and, BitVec.toNat_ushiftRight, Nat.shiftRight_eq_div_pow]
    exact Nat.and_two_pow_sub_one_eq_mod _ 18
  have htop := congrArg BitVec.toNat h
  rw [BitVec.toNat_ushiftRight, Nat.shiftRight_eq_div_pow] at htop
  have htwo : (2 : Word).toNat = 2 := rfl
  rw [virtualPage, BitVec.toNat_ushiftRight, Nat.shiftRight_eq_div_pow, hpage]
  omega

/-- The entry for the virtual page of a page of kUseg2. -/
theorem virtualPage_eq_iff (h1 : 1 ≤ i) (h64 : i < 64) (hj : IsPage j) (h : entryHi >>> 30 = 2) :
    virtualPage (pteEntryHi i j) = virtualPage entryHi ↔
      (j = 31 ∧ segmentPage entryHi = 0x3FFFF) ∨ (j ≤ 30 ∧ j = segmentPage entryHi) := by
  have hsize : kUsegPteSize = 32 := rfl
  have hlo := hj.1
  have hhi := hj.2
  have hleft := virtualPage_pteEntryHi h1 h64 hj
  obtain ⟨hright, hlt⟩ := virtualPage_toNat h
  constructor
  · intro heq
    rw [heq, hright] at hleft
    split at hleft <;> omega
  · rintro (⟨hj', hn⟩ | ⟨hj', hn⟩)
    · apply BitVec.eq_of_toNat_eq
      rw [hleft, hright, if_pos hj', hn]
    · apply BitVec.eq_of_toNat_eq
      rw [hleft, hright, if_neg (by omega)]
      omega

/-- The page that the handler takes for the missing one. -/
theorem missingPage_eq (s : Paging) (i : ℤ) : s.missingPage i =
    if 31 ≤ segmentPage (s.missing i) then 31 else (segmentPage (s.missing i) : ℤ) := by
  have hsize : kUsegPteSize = 32 := rfl
  have hclip : s.missingPage i = if (segmentPage (s.missing i) : ℤ) ≥ kUsegPteSize then
      kUsegPteSize - 1 else (segmentPage (s.missing i) : ℤ) := rfl
  rw [hclip, hsize]
  split <;> split <;> omega

/-- The segment of a virtual page. -/
theorem segment_eq_of_virtualPage (h : (virtualPage entryHi).toNat / 2 ^ 18 = 2) :
    entryHi >>> 30 = 2 := by
  apply BitVec.eq_of_toNat_eq
  have htwo : (2 : Word).toNat = 2 := rfl
  rw [virtualPage, BitVec.toNat_ushiftRight, Nat.shiftRight_eq_div_pow] at h
  rw [BitVec.toNat_ushiftRight, Nat.shiftRight_eq_div_pow, htwo]
  omega

/-- Only the page that the handler takes for the missing one can be it. -/
theorem missed_iff {s : Paging} (h1 : 1 ≤ i) (h64 : i < 64) :
    s.Missed i j ↔ s.InTable i ∧ j = s.missingPage i := by
  have hmissing := missingPage_eq s i
  constructor
  · rintro ⟨hj, hvirt⟩
    have hseg : s.missing i >>> 30 = 2 := by
      refine segment_eq_of_virtualPage ?_
      have hsize : kUsegPteSize = 32 := rfl
      have hhi := hj.2
      rw [← hvirt, virtualPage_pteEntryHi h1 h64 hj]
      split <;> omega
    rw [hmissing]
    rcases (virtualPage_eq_iff h1 h64 hj hseg).mp hvirt with ⟨rfl, hn⟩ | ⟨hle, hn⟩
    · exact ⟨⟨hseg, .inr hn⟩, by rw [if_pos (by omega)]⟩
    · exact ⟨⟨hseg, .inl (by omega)⟩, by rw [if_neg (by omega), hn]⟩
  · rintro ⟨⟨hseg, hn⟩, rfl⟩
    have hpage := isPage_missingPage s i
    refine ⟨hpage, (virtualPage_eq_iff h1 h64 hpage hseg).mpr ?_⟩
    rcases hn with hn | hn
    · rw [hmissing, if_neg (by omega)]
      exact .inr ⟨by omega, rfl⟩
    · rw [hmissing, if_pos (by omega)]
      exact .inl ⟨rfl, hn⟩

end

/-! ## When the backing store fails -/

/-- Every operation of the disk that the fault performs reports `READY`. -/
def AllReady (s : Paging) (io : ℕ → Word) : Prop := (s.Evicts → Done io) ∧ Done (s.readStatuses io)

/-- What must hold after a fault that ends in this way. -/
structure Safe (i : ℤ) (s : Paging) (io : ℕ → Word) (r : Except End Unit) (s' : Paging) :
    Prop where
  /-- an entry that becomes `VALID`, or that is of the chosen frame and `VALID`, is that of the page
  that was missed, and the frame holds what is in the block of this page -/
  mapped : ∀ q, s'.pte q ≠ s.pte q ∨ (s'.swapPool s.chosen).swPte = some q → IsValid (s'.pte q) →
    ∃ j, s.Missed i j ∧ q = .uProc i j ∧
      s'.ram.page (swapAddr s.chosen) = s'.blocks 0 (pageBlock i j.toNat)
  /-- the page in the frame is not overwritten unless it has been written to its block -/
  victim : s.Evicts → s'.ram.page (swapAddr s.chosen) ≠ s.ram.page (swapAddr s.chosen) →
    s'.blocks 0 s.victimBlock = s.ram.page (swapAddr s.chosen)
  /-- after a failure the process does not go on as if the fault had been resolved -/
  resumed : ¬ s.AllReady io → r ≠ .error (.ldst i .tlbTrap)
  /-- the mutexes are released -/
  released : s'.holder .swapSem = none ∧ s'.holder (.mutexSemArray backingStore) = none

/-- The fault ends, and what must hold does. -/
def SurvivesFailure (i : ℤ) (s : Paging) (io : ℕ → Word) : Prop :=
  ∃ r s' io', faultRun i s io = some (r, s', io') ∧ Safe i s io r s'

/-- An entry that eviction changes is not `VALID`. -/
theorem not_isValid_unmapped {q : PteRef} (hne : s.unmapped q ≠ s.pte q) :
    ¬ IsValid (s.unmapped q) := by
  by_cases hev : s.Evicts
  · cases hr : s.victim.swPte with
    | none =>
      rw [unmapped, if_pos hev, hr] at hne
      exact absurd rfl hne
    | some r =>
      have hout : s.unmapped = Function.update s.pte r (s.pte r &&& ~~~valid) := by
        rw [unmapped, if_pos hev, hr]
      rw [hout] at hne ⊢
      by_cases hqr : q = r
      · rw [hqr, Function.update_self]
        exact not_isValid_and _
      · exact absurd (Function.update_of_ne hqr _ _) hne
  · rw [unmapped, if_neg hev] at hne
    exact absurd rfl hne

section

variable (hh : Handled s i io s')

include hh

/-- The entry of the chosen frame. -/
theorem Handled.entry : (s'.swapPool s.chosen).swPte = some (.uProc i (s.missingPage i)) := by
  rw [hh.swapPool, Function.update_self]

/-- No other entry becomes `VALID`. -/
theorem Handled.mapped {q : PteRef}
    (hq : s'.pte q ≠ s.pte q ∨ (s'.swapPool s.chosen).swPte = some q)
    (hvalid : IsValid (s'.pte q)) : q = .uProc i (s.missingPage i) := by
  rcases hq with hne | hentry
  · by_contra hq
    rw [hh.pte, Function.update_of_ne hq] at hne hvalid
    exact not_isValid_unmapped hne hvalid
  · exact Option.some.inj (hentry.symm.trans hh.entry)

/-- The frame holds what is in the block that has been read. -/
theorem Handled.frame (hread : Done (s.readStatuses io)) : s'.ram.page (swapAddr s.chosen) =
    s'.blocks 0 (pageBlock i (s.missingPage i).toNat) := by
  rw [hh.ram, if_pos hread, Ram.page_setPage_self, hh.blocks]

end

/-- A fault is safe exactly if it is on a page that is in the table, and no operation of the disk
fails. -/
theorem survivesFailure_iff (hfit : PoolFits) (h : s.Faults i) :
    SurvivesFailure i s io ↔ s.InTable i ∧ s.AllReady io := by
  obtain ⟨s', io', hrun, hh, -⟩ := faultRun_handled io hfit h
  have hmissed := missed_iff (s := s) (j := s.missingPage i) h.user.1 (h.user.lt_64 hfit)
  rw [SurvivesFailure, faultRun_iff hrun]
  constructor
  · intro hsafe
    refine ⟨?_, ?_⟩
    · -- the entry that the handler makes `VALID` must be that of the missing page
      have hvalid : IsValid (s'.pte (.uProc i (s.missingPage i))) := by
        rw [hh.pte, Function.update_self]
        exact isValid_mapping _
      obtain ⟨j, hj, hq, -⟩ := hsafe.mapped _ (.inr hh.entry) hvalid
      obtain rfl : s.missingPage i = j := by simpa using hq
      exact (hmissed.mp hj).1
    · by_contra hfail
      exact hsafe.resumed hfail rfl
  · rintro ⟨htable, hwrite, hread⟩
    refine ⟨fun q hq hvalid => ?_, fun hev _ => ?_, fun hfail => absurd ⟨hwrite, hread⟩ hfail, ?_⟩
    · exact ⟨_, hmissed.mpr ⟨htable, rfl⟩, hh.mapped hq hvalid, hh.frame hread⟩
    · rw [hh.blocks, writtenBack, if_pos ⟨hev, hwrite hev⟩, Function.update_self]
    · rw [hh.holder]
      exact ⟨h.pool, h.disk⟩

/-! ## The page that is mapped -/

/-- A page that was in a frame and is now that of the chosen one has the contents it had. -/
def KeepsResident (s s' : Paging) : Prop :=
  ∀ f < Support.swapSize, (s.swapPool f).swAsid ≠ -1 → ∀ q, (s.swapPool f).swPte = some q →
    (s'.swapPool s.chosen).swPte = some q →
      s'.ram.page (swapAddr s.chosen) = s.ram.page (swapAddr f)

/-- The page that is mapped is the one that was missed, and was in no other frame; or there is no
such page in the table and the process is terminated. In no case does an older copy take the place
of a page that was in a frame. -/
def MapsMissed (i : ℤ) (s : Paging) (io : ℕ → Word) : Prop :=
  ∃ r s' io', faultRun i s io = some (r, s', io') ∧
    ((∃ j, s.Missed i j ∧ (s'.swapPool s.chosen).swPte = some (.uProc i j) ∧
        s'.pte (.uProc i j) = mapping s.chosen ∧
        ∀ f < Support.swapSize, f ≠ s.chosen → (s.swapPool f).swAsid ≠ -1 →
          (s.swapPool f).swPte ≠ some (.uProc i j)) ∨
      (∀ j, ¬ s.Missed i j) ∧ r = .error .terminated) ∧
    KeepsResident s s'

/-- Another frame holds the page that the handler takes for the missing one. -/
def Elsewhere (s : Paging) (i : ℤ) : Prop :=
  ∃ f < Support.swapSize, f ≠ s.chosen ∧ (s.swapPool f).swAsid ≠ -1 ∧
    (s.swapPool f).swPte = some (.uProc i (s.missingPage i))

/-- If the chosen frame holds that page itself, then it is written to the block from which it is
read again, or the block has its contents anyway, or it is not read. -/
def WrittenFirst (s : Paging) (i : ℤ) (io : ℕ → Word) : Prop :=
  s.Evicts → s.victim.swPte = some (.uProc i (s.missingPage i)) → Done (s.readStatuses io) →
    Done io ∧ s.victimBlock = pageBlock i (s.missingPage i).toNat ∨
      s.blocks 0 (pageBlock i (s.missingPage i).toNat) = s.ram.page (swapAddr s.chosen)

/-- What is read back into the chosen frame. -/
theorem Handled.keeps_chosen_iff (hh : Handled s i io s') (hev : s.Evicts) :
    s'.ram.page (swapAddr s.chosen) = s.ram.page (swapAddr s.chosen) ↔
      (Done (s.readStatuses io) →
        Done io ∧ s.victimBlock = pageBlock i (s.missingPage i).toNat ∨
          s.blocks 0 (pageBlock i (s.missingPage i).toNat) = s.ram.page (swapAddr s.chosen)) := by
  rw [hh.ram]
  by_cases hread : Done (s.readStatuses io)
  · rw [if_pos hread, Ram.page_setPage_self, writtenBack]
    simp only [hread, true_imp_iff]
    by_cases hwrite : Done io
    · rw [if_pos ⟨hev, hwrite⟩]
      by_cases hblock : s.victimBlock = pageBlock i (s.missingPage i).toNat
      · simp [hwrite, hblock]
      · rw [Function.update_of_ne (Ne.symm hblock)]
        simp [hblock]
    · rw [if_neg fun hc => hwrite hc.2]
      simp [hwrite]
  · rw [if_neg hread]
    simp [hread]

/-- A fault in kUseg2 maps the page that was missed, and no older copy of a page, exactly if the
page is in the table and in no other frame, and has been written to its block if it is in the chosen
one. -/
theorem mapsMissed_iff (hfit : PoolFits) (h : s.Faults i) (hseg : s.missing i >>> 30 = 2) :
    MapsMissed i s io ↔
      (segmentPage (s.missing i) ≤ 30 ∨ segmentPage (s.missing i) = 0x3FFFF) ∧
        ¬ s.Elsewhere i ∧ s.WrittenFirst i io := by
  obtain ⟨s', io', hrun, hh, -⟩ := faultRun_handled io hfit h
  have hmissed : ∀ j, s.Missed i j ↔ s.InTable i ∧ j = s.missingPage i :=
    fun j => missed_iff h.user.1 (h.user.lt_64 hfit)
  have hchosen : s.chosen < Support.swapSize := Nat.mod_lt _ hfit.frames
  rw [MapsMissed, faultRun_iff hrun]
  constructor
  · rintro ⟨⟨j, hj, -, -, hother⟩ | ⟨-, hend⟩, hkeeps⟩
    · obtain ⟨htable, rfl⟩ := (hmissed j).mp hj
      refine ⟨htable.2, fun ⟨f, hf, hne, hused, hpte⟩ => hother f hf hne hused hpte, ?_⟩
      exact fun hev hpte => (hh.keeps_chosen_iff hev).mp (hkeeps _ hchosen hev _ hpte hh.entry)
    · simp at hend
  · rintro ⟨hn, hother, hwritten⟩
    refine ⟨.inl ⟨s.missingPage i, (hmissed _).mpr ⟨⟨hseg, hn⟩, rfl⟩, hh.entry, ?_, ?_⟩, ?_⟩
    · rw [hh.pte, Function.update_self]
    · exact fun f hf hne hused hpte => hother ⟨f, hf, hne, hused, hpte⟩
    · intro f hf hused q hpte hq
      obtain rfl : q = .uProc i (s.missingPage i) := Option.some.inj (hq.symm.trans hh.entry)
      by_cases hne : f = s.chosen
      · subst hne
        exact (hh.keeps_chosen_iff hused).mpr (hwritten hused hpte)
      · exact absurd ⟨f, hf, hne, hused, hpte⟩ hother

/-! ## The shared segment -/

/-- A fault in kUseg3 with a backing store that does not fail maps the shared entry to the frame and
reads a block that is no page's of kUseg2; no private entry changes but that of the page that was in
the frame. -/
def SharesPage (i : ℤ) (s : Paging) : Prop := ∀ io, (∀ k, io k = ready) →
  ∃ r s' io', faultRun i s io = some (r, s', io') ∧
    s'.pte (.kUSeg3 (segmentPage (s.missing i))) = swapAddr s.chosen ||| valid |||
        dirty ||| global ∧
    (∀ p k, s'.pte (.uProc p k) ≠ s.pte (.uProc p k) → s.victim.swPte = some (.uProc p k)) ∧
    ∀ b, (readBlk, b) ∈ faultMoved i s io → ∀ p k, IsUser p → IsPage k → b ≠ pageBlock p k.toNat

omit [Support] in
/-- The segment number of a page of kUseg3. -/
theorem missingSegNum_shared {entryHi : Word} (h : entryHi >>> 30 = 3) :
    missingSegNum entryHi = -1 := by
  have htop := congrArg BitVec.toNat h
  have hthree : (3 : Word).toNat = 3 := rfl
  have hlt := entryHi.isLt
  rw [BitVec.toNat_ushiftRight, Nat.shiftRight_eq_div_pow, hthree] at htop
  rw [missingSegNum, BitVec.toInt_sshiftRight, Int.shiftRight_eq_div_pow,
    BitVec.toInt_eq_toNat_cond, if_neg (by omega)]
  omega

/-- A fault in kUseg3 is never handled as one: its segment number is -1, and the handler reads the
block of the page of the process itself that has the same number in kUseg2. -/
theorem not_sharesPage (hfit : PoolFits) (h : s.Faults i) (hseg : s.missing i >>> 30 = 3)
    (hj : segmentPage (s.missing i) < 32) : missingSegNum (s.missing i) = -1 ∧
      (∀ io, (∀ k, io k = ready) →
        (readBlk, pageBlock i (segmentPage (s.missing i))) ∈ faultMoved i s io) ∧
      ¬ SharesPage i s := by
  have hread : ∀ io, (∀ k, io k = ready) →
      (readBlk, pageBlock i (s.missingPage i).toNat) ∈ faultMoved i s io := by
    intro io hio
    obtain ⟨s', io', -, -, hmoved⟩ := faultRun_handled io hfit h
    refine hmoved ?_
    rw [readStatuses]
    split
    · rw [after]
      split <;> exact hio _
    · exact hio 0
  refine ⟨missingSegNum_shared hseg, fun io hio => ?_, fun hshares => ?_⟩
  · have hpage : (s.missingPage i).toNat = segmentPage (s.missing i) := by
      rw [missingPage_eq]
      split <;> omega
    exact hpage ▸ hread io hio
  · obtain ⟨-, -, -, -, -, -, hblock⟩ := hshares (fun _ => ready) fun _ => rfl
    exact hblock _ (hread _ fun _ => rfl) i (s.missingPage i) h.user (isPage_missingPage s i) rfl

/-! ## Small systems -/

omit [Support] in
/-- A process with a fault, and nothing in the frames. -/
abbrev sampleFault (entryHi : Word) : Paging where
  holder _ := none
  status _ := 0
  old _ _ r := if r = sCause then tlbl else if r = sEntryHi then entryHi else 0
  reg _ _ := 0
  arm _ := 0
  blocks _ _ _ := 0
  tape _ := []
  ram _ := 0
  nextFrame := 0
  swapPool _ := ⟨-1, 0, 0, none⟩
  pte _ := 0
  tlb _ := none
  stored _ _ _ := none
  dying _ := false

omit [Support] in
theorem sampleSupport_fits : @PoolFits sampleSupport := by
  let _ := sampleSupport
  exact ⟨by decide, by decide, by decide, by decide⟩

omit [Support] in
theorem sampleFault_faults (entryHi : Word) : @Faults sampleSupport (sampleFault entryHi) 1 := by
  let _ := sampleSupport
  exact ⟨by decide, .inl rfl, rfl, rfl, fun _ _ h => absurd rfl h⟩

omit [Support] in
/-- The same with a page in the frame that is chosen next. -/
abbrev sampleVictim (entryHi : Word) (procID page : ℤ) : Paging :=
  { sampleFault entryHi with
    swapPool := Function.update (fun _ => ⟨-1, 0, 0, none⟩) 1
      ⟨procID, 2, page, some (.uProc procID page)⟩ }

omit [Support] in
/-- The other frames are empty. -/
theorem sampleVictim_of_ne {entryHi : Word} {procID page : ℤ} {f : ℕ} (hf : f ≠ 1) :
    ((sampleVictim entryHi procID page).swapPool f).swAsid = -1 := by
  dsimp only [sampleVictim]
  rw [Function.update_of_ne hf]

omit [Support] in
theorem sampleVictim_faults (entryHi : Word) {procID page : ℤ} (hp : @IsUser sampleSupport procID)
    (hpage : IsPage page) : @Faults sampleSupport (sampleVictim entryHi procID page) 1 := by
  let _ := sampleSupport
  refine ⟨by decide, .inl rfl, rfl, rfl, fun f hf hne => ?_⟩
  by_cases h1 : f = 1
  · subst h1
    exact ⟨hp, hpage, _, rfl⟩
  · exact absurd (sampleVictim_of_ne h1) hne

omit [Support] in
/-- A fault on page 20 of kUseg2, when a page of another process is in the frame, with a disk that
is always ready. -/
theorem survivesFailure_iff_ready : ∃ _ : Support,
    SurvivesFailure 1 (sampleVictim 0x80014040 2 3) fun _ => ready := by
  let _ := sampleSupport
  exact ⟨sampleSupport, (survivesFailure_iff sampleSupport_fits
    (sampleVictim_faults _ (by decide) (by decide))).mpr
      ⟨⟨rfl, .inl (by decide)⟩, fun _ => ⟨rfl, rfl⟩, rfl, rfl⟩⟩

omit [Support] in
/-- The disk fails, and the fault is resumed. -/
theorem failure_not_survived : ¬ ∀ (_ : Support) (i : ℤ) (s : Paging) (io : ℕ → Word), PoolFits →
    s.Faults i → SurvivesFailure i s io := by
  intro h
  let _ := sampleSupport
  have hbad := h sampleSupport 1 (sampleFault 0x80014040) (fun _ => 0) sampleSupport_fits
    (sampleFault_faults _)
  have hready := (survivesFailure_iff sampleSupport_fits (sampleFault_faults _)).mp hbad
  exact absurd hready.2.2.1 (by decide)

omit [Support] in
/-- A fault on page 20 of kUseg2, when this page is in the frame and the disk is ready. -/
theorem mapsMissed_iff_page : ∃ _ : Support,
    MapsMissed 1 (sampleVictim 0x80014040 1 20) fun _ => ready := by
  let _ := sampleSupport
  refine ⟨sampleSupport, (mapsMissed_iff sampleSupport_fits
    (sampleVictim_faults _ (by decide) (by decide)) rfl).mpr ⟨.inl (by decide), ?_, ?_⟩⟩
  · rintro ⟨f, -, hne, hused, -⟩
    exact hused (sampleVictim_of_ne hne)
  · exact fun _ _ _ => .inl ⟨⟨rfl, rfl⟩, rfl⟩

omit [Support] in
/-- A fault on page 31 of kUseg2 maps the top page. -/
theorem missed_not_mapped : ¬ ∀ (_ : Support) (i : ℤ) (s : Paging) (io : ℕ → Word), PoolFits →
    s.Faults i → s.missing i >>> 30 = 2 → MapsMissed i s io := by
  intro h
  let _ := sampleSupport
  have hbad := h sampleSupport 1 (sampleFault 0x8001F040) (fun _ => ready) sampleSupport_fits
    (sampleFault_faults _) rfl
  have htable := (mapsMissed_iff sampleSupport_fits (sampleFault_faults _) rfl).mp hbad
  exact htable.1.elim (by decide) (by decide)

omit [Support] in
/-- A fault on page 0 of kUseg3. -/
theorem not_sharesPage_first : ∃ _ : Support, ¬ SharesPage 1 (sampleFault 0xC0000040) := by
  let _ := sampleSupport
  exact ⟨sampleSupport, (not_sharesPage sampleSupport_fits (sampleFault_faults _) rfl
    (by decide)).2.2⟩

omit [Support] in
/-- No page of kUseg3 is shared. -/
theorem shared_page_fails : ¬ ∀ (_ : Support) (i : ℤ) (s : Paging), PoolFits → s.Faults i →
    s.missing i >>> 30 = 3 → segmentPage (s.missing i) < 32 → SharesPage i s := by
  intro h
  let _ := sampleSupport
  have hbad := h sampleSupport 1 (sampleFault 0xC0000040) sampleSupport_fits
    (sampleFault_faults _) rfl (by decide)
  obtain ⟨s', io', -, -, hmoved⟩ := faultRun_handled (fun _ => ready) sampleSupport_fits
    (sampleFault_faults 0xC0000040)
  obtain ⟨-, -, -, -, -, -, hblock⟩ := hbad (fun _ => ready) fun _ => rfl
  exact hblock _ (hmoved rfl) 1 0 (by decide) (by decide) rfl

end Paging

end Jaeos
