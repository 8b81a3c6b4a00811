import Jaeos.Support.Mutexes
import Jaeos.Support.PageFaults
import Jaeos.Support.Routines

/-!
# What `test` sets up

The user processes run while `test` is still setting up others. Each of them is created when what
it uses has been set up, and `test` does not write this afterwards. What `test` leaves is what the
runs of the pager begin with.
-/

namespace Jaeos

/-! ## The tables -/

/-- The variables that `test` writes. -/
structure Tables where
  /-- `header` -/
  header : PageTable → Word
  /-- `pteTable[i].pte_entryHI` -/
  entryHI : PageTable → ℕ → Word
  /-- `pteTable[i].pte_entryLO` -/
  entryLO : PageTable → ℕ → Word
  /-- `swapPool` -/
  swapPool : ℕ → Swap
  /-- the semaphores -/
  sem : Sem → ℤ
  /-- the segment table at an address -/
  segTbl : Word → Segment → Option PageTable

/-- The address of the segment table of a process. -/
def segTblAddr (i : ℤ) : Word := segTblStart + word i * segTblWidth

/-- The page table of a segment. -/
def Segment.table (i : ℤ) : Segment → PageTable
  | .ksegOS => .kSegOS
  | .kUseg2 => .tpPte i
  | .kUseg3 => .kUSeg3

namespace Tables

/-- `header` is written. -/
@[simp] def setHeader (t : Tables) (p : PageTable) (v : Word) : Tables :=
  { t with header := Function.update t.header p v }

/-- An entry of the swap pool is written. -/
@[simp] def setSwap (t : Tables) (f : ℕ) (v : Swap) : Tables :=
  { t with swapPool := Function.update t.swapPool f v }

/-- A semaphore is written. -/
@[simp] def setSem (t : Tables) (s : Sem) (v : ℤ) : Tables :=
  { t with sem := Function.update t.sem s v }

/-- An entry of a page table is written. -/
@[simp] def setEntryHI (t : Tables) (p : PageTable) (i : ℕ) (v : Word) : Tables :=
  { t with entryHI := Function.update t.entryHI p (Function.update (t.entryHI p) i v) }

/-- An entry of a page table is written. -/
@[simp] def setEntryLO (t : Tables) (p : PageTable) (i : ℕ) (v : Word) : Tables :=
  { t with entryLO := Function.update t.entryLO p (Function.update (t.entryLO p) i v) }

/-- The first `n` entries of a page table are written. -/
@[simp] def fill (t : Tables) (p : PageTable) (n : ℕ) (hi lo : ℕ → Word) : Tables :=
  { t with
    entryHI := Function.update t.entryHI p fun i => if i < n then hi i else t.entryHI p i
    entryLO := Function.update t.entryLO p fun i => if i < n then lo i else t.entryLO p i }

/-- No entry has been written yet. -/
theorem fill_zero (t : Tables) (p : PageTable) (hi lo : ℕ → Word) : t.fill p 0 hi lo = t := by
  simp [fill]

/-- One more entry. -/
theorem fill_succ (t : Tables) (p : PageTable) (n : ℕ) (hi lo : ℕ → Word) :
    t.fill p (n + 1) hi lo = ((t.fill p n hi lo).setEntryHI p n (hi n)).setEntryLO p n (lo n) := by
  have hone : ∀ f g : ℕ → Word, (fun i => if i < n + 1 then f i else g i) =
      Function.update (fun i => if i < n then f i else g i) n (f n) := by
    intro f g
    funext i
    by_cases hi : i = n
    · subst hi
      simp
    · have hlt : i < n + 1 ↔ i < n := by omega
      rw [Function.update_of_ne hi]
      simp only [hlt]
  simp only [fill, setEntryHI, setEntryLO, Function.update_self, Function.update_idem, hone]

/-- A pointer of a segment table is written. -/
@[simp] def setSegTbl (t : Tables) (a : Word) (seg : Segment) (p : PageTable) : Tables :=
  { t with segTbl := Function.update t.segTbl a (Function.update (t.segTbl a) seg (some p)) }

variable [Support]

/-- What all processes use has been set up. -/
structure Shared (t : Tables) : Prop where
  /-- `kSegOS` maps each page to itself -/
  kSegOS : t.header .kSegOS = pteHeader kSegOsPteSize ∧ ∀ i < 64,
    t.entryHI .kSegOS i = (0x20000 + word i) <<< entryHiShift ∧
      t.entryLO .kSegOS i = t.entryHI .kSegOS i ||| dirty ||| valid ||| global
  /-- no page of `kUSeg3` is in memory -/
  kUSeg3 : t.header .kUSeg3 = pteHeader kUsegPteSize ∧ ∀ i < 32,
    t.entryHI .kUSeg3 i = (0xC0000 + word i) <<< entryHiShift ∧
      t.entryLO .kUSeg3 i = allOff ||| dirty ||| global
  /-- the frames are free -/
  swapPool : ∀ f < Support.swapSize, (t.swapPool f).swAsid = -1 ∧ (t.swapPool f).swPte = none
  /-- the mutexes are 1 -/
  mutex : ∀ s : Sem, s.isMutex = true → t.sem s = 1
  /-- `masterSem` -/
  masterSem : t.sem .masterSem = 0

omit [Support] in
/-- What a process uses alone has been set up. -/
structure Own (t : Tables) (i : ℤ) : Prop where
  /-- no page of kUseg2 is in memory -/
  tpPte : t.header (.tpPte i) = pteHeader kUsegPteSize ∧ ∀ j < 32,
    t.entryHI (.tpPte i) j = Paging.pteEntryHi i j ∧ t.entryLO (.tpPte i) j = allOff ||| dirty
  /-- its segment table -/
  segTbl : ∀ seg, t.segTbl (segTblAddr i) seg = some (seg.table i)
  /-- `Tp_sem` -/
  tpSem : t.sem (.tpSem i) = 0

end Tables

namespace Tables

/-! ## A round for a process -/

/-- What a round of the loop over the processes writes. -/
def withProcess (t : Tables) (i : ℤ) : Tables :=
  let a := segTblAddr i
  let t := t.setHeader (.tpPte i) (pteHeader kUsegPteSize)
  let t := t.fill (.tpPte i) 32
    (fun j => ((0x80000 + word j) <<< entryHiShift) ||| (word i <<< asidShift))
    fun _ => allOff ||| dirty
  let t := t.setEntryHI (.tpPte i) 31
    (((0xBFFFF : Word) <<< entryHiShift) ||| (word i <<< asidShift))
  let t := t.setSegTbl a .ksegOS .kSegOS
  let t := t.setSegTbl a .kUseg2 (.tpPte i)
  let t := t.setSegTbl a .kUseg3 .kUSeg3
  t.setSem (.tpSem i) 0

/-- What `test` writes before that loop, with the swap pool and the semaphores it leaves. -/
def common (t : Tables) (pool : ℕ → Swap) (sem : Sem → ℤ) : Tables :=
  let t := t.setHeader .kSegOS (pteHeader kSegOsPteSize)
  let t := t.fill .kSegOS 64 (fun i => (0x20000 + word i) <<< entryHiShift)
    fun i => ((0x20000 + word i) <<< entryHiShift) ||| dirty ||| valid ||| global
  let t := t.setHeader .kUSeg3 (pteHeader kUsegPteSize)
  let t := t.fill .kUSeg3 32 (fun i => (0xC0000 + word i) <<< entryHiShift)
    fun _ => allOff ||| dirty ||| global
  { t with swapPool := pool, sem := sem }

/-- The tables that all processes use have been set up. -/
theorem shared_common [Support] (t : Tables) {pool : ℕ → Swap} {sem : Sem → ℤ}
    (hpool : ∀ f < Support.swapSize, (pool f).swAsid = -1 ∧ (pool f).swPte = none)
    (hmutex : ∀ s : Sem, s.isMutex = true → sem s = 1) (hmaster : sem .masterSem = 0) :
    (t.common pool sem).Shared where
  kSegOS := ⟨by simp [common], fun i hi => by simp [common, hi]⟩
  kUSeg3 := ⟨by simp [common], fun i hi => by simp [common, hi]⟩
  swapPool := hpool
  mutex := hmutex
  masterSem := hmaster

/-- The segment tables are apart. -/
theorem segTblAddr_ne {i j : ℤ} (hi : 0 ≤ i ∧ i < 64) (hj : 0 ≤ j ∧ j < 64) (hij : j ≠ i) :
    segTblAddr j ≠ segTblAddr i := by
  have haddr : ∀ k : ℤ, 0 ≤ k ∧ k < 64 → (segTblAddr k).toNat = 0x7600 + k.toNat * 12 := by
    intro k hk
    obtain ⟨h0, h64⟩ := hk
    interval_cases k <;> rfl
  intro h
  have hnat := congrArg BitVec.toNat h
  rw [haddr i hi, haddr j hj] at hnat
  omega

/-- The tables that all processes use are as before. -/
theorem Shared.withProcess [Support] {t : Tables} {i : ℤ} (h : t.Shared) :
    (t.withProcess i).Shared where
  kSegOS := by simpa [Tables.withProcess] using h.kSegOS
  kUSeg3 := by simpa [Tables.withProcess] using h.kUSeg3
  swapPool := h.swapPool
  mutex s hs := by
    have hne : s ≠ .tpSem i := fun he => by simp [he, Sem.isMutex] at hs
    exact (Function.update_of_ne hne ..).trans (h.mutex s hs)
  masterSem := by
    have hne : Sem.masterSem ≠ .tpSem i := nofun
    exact (Function.update_of_ne hne 0 t.sem).trans h.masterSem

/-- The tables of other processes are as before. -/
theorem Own.withProcess {t : Tables} {i j : ℤ} (h : t.Own j) (hi : 0 ≤ i ∧ i < 64)
    (hj : 0 ≤ j ∧ j < 64) (hij : j ≠ i) : (t.withProcess i).Own j where
  tpPte := by simpa [Tables.withProcess, hij] using h.tpPte
  segTbl seg := by
    simpa [Tables.withProcess, segTblAddr_ne hi hj hij] using h.segTbl seg
  tpSem := by
    have hne : Sem.tpSem j ≠ .tpSem i := fun he => hij (Sem.tpSem.inj he)
    exact (Function.update_of_ne hne ..).trans h.tpSem

/-- The tables of the process have been set up. -/
theorem own_withProcess (t : Tables) (i : ℤ) : (t.withProcess i).Own i where
  tpPte := by
    refine ⟨Function.update_self .., fun j hj => ⟨?_, ?_⟩⟩
    · have hentry : (t.withProcess i).entryHI (.tpPte i) = Function.update
          (fun j : ℕ => if j < 32 then
              ((0x80000 + word j) <<< entryHiShift) ||| (word i <<< asidShift)
            else t.entryHI (.tpPte i) j)
          31 (((0xBFFFF : Word) <<< entryHiShift) ||| (word i <<< asidShift)) := by
        simp [Tables.withProcess]
      rw [hentry]
      by_cases hlast : j = 31
      · subst hlast
        rw [Function.update_self, Paging.pteEntryHi, if_pos (by decide)]
        exact congrArg (· ||| (word i <<< asidShift)) (by decide)
      · have hne : (j : ℤ) ≠ kUsegPteSize - 1 := by
          change (j : ℤ) ≠ 31
          omega
        have hword : word (0x80000 + (j : ℤ)) = 0x80000 + word j := BitVec.ofInt_add ..
        rw [Function.update_of_ne hlast, if_pos hj, Paging.pteEntryHi, if_neg hne, hword]
    · simp [Tables.withProcess, hj]
  segTbl seg := by
    cases seg <;> simp [Tables.withProcess, Segment.table]
  tpSem := Function.update_self ..

end Tables

/-- A memory full of zeros. -/
def sampleTables : Tables := ⟨fun _ => 0, fun _ _ => 0, fun _ _ => 0, fun _ => ⟨0, 0, 0, none⟩,
  fun _ => 0, fun _ _ => none⟩

/-! ## Going along -/

/-- What has been set up, and the processes that have been created. -/
structure SetUp where
  /-- the variables -/
  tables : Tables
  /-- the processes -/
  created : List ℤ

/-- What an operation of `test` does. -/
def SetUp.see : ∀ β, TestOp β → β → SetUp → SetUp
  | _, .setHeader p v, _, g => { g with tables := g.tables.setHeader p v }
  | _, .setEntryHI p i v, _, g => { g with tables := g.tables.setEntryHI p i v }
  | _, .setEntryLO p i v, _, g => { g with tables := g.tables.setEntryLO p i v }
  | _, .setSwAsid f v, _, g =>
    { g with tables := g.tables.setSwap f { g.tables.swapPool f with swAsid := v } }
  | _, .setSwPte f v, _, g =>
    { g with tables := g.tables.setSwap f { g.tables.swapPool f with swPte := v } }
  | _, .setSem s v, _, g => { g with tables := g.tables.setSem s v }
  | _, .setSegTbl a seg p, _, g => { g with tables := g.tables.setSegTbl a seg p }
  | _, .createProcess st, b, g =>
    if b then { g with created := asid (st.sReg sEntryHi) :: g.created } else g
  | _, .passeren _, _, g => g

/-- A process uses a page table. -/
def PageTable.UsedBy (i : ℤ) : PageTable → Prop
  | .tpPte j => j = i
  | _ => True

/-- A process uses a semaphore. -/
def Sem.UsedBy (i : ℤ) : Sem → Prop
  | .tpSem j => j = i
  | _ => True

/-- The operation writes what a process uses. -/
def TestOp.Disturbs (i : ℤ) : ∀ β, TestOp β → Prop
  | _, .setHeader p _ | _, .setEntryHI p _ _ | _, .setEntryLO p _ _ => p.UsedBy i
  | _, .setSwAsid _ _ | _, .setSwPte _ _ => True
  | _, .setSem s _ => s.UsedBy i
  | _, .setSegTbl a _ _ => a = segTblAddr i
  | _, .createProcess _ | _, .passeren _ => False

/-- The operation writes nothing that a process uses that has been created; and a process that it
creates is a new user process, which will run `uProcInit` and finds what it uses set up. -/
def TestOp.Publishes [Support] (pc : Word) (stack : State) : ∀ β, TestOp β → β → SetUp → Prop
  | _, .createProcess st, _, g => ∃ i, IsUser i ∧ i ∉ g.created ∧ st = procState pc stack i ∧
      asid (st.sReg sEntryHi) = i ∧ g.tables.Shared ∧ g.tables.Own i
  | β, o, _, g => ∀ i ∈ g.created, ¬ TestOp.Disturbs i β o

namespace SetUp

variable [Support]

/-- The contract of the operations of `test`. -/
abbrev spec (pc : Word) (stack : State) : Prog.Contract TestOp SetUp :=
  Prog.tracked (fun _ _ _ _ => True) (TestOp.Publishes pc stack) see

section

variable {pc : Word} {stack : State} {g : SetUp} {E : End → SetUp → Prop}

/-- An operation that does not create a process. -/
theorem writes {o : TestOp Unit} {Q : Unit → SetUp → Prop}
    (hok : TestOp.Publishes pc stack Unit o () g) (hQ : Q () (see Unit o () g)) :
    Prog.wpx (spec pc stack) (tst o) Q E g := fun _ _ => ⟨hok, hQ⟩

/-- A loop that fills a page table. -/
theorem fills {p : PageTable} {n : ℕ} {hi lo : ℕ → Word} {Q : Unit → SetUp → Prop}
    (hp : ∀ i ∈ g.created, ¬ p.UsedBy i)
    (hQ : Q () { g with tables := g.tables.fill p n hi lo }) :
    Prog.wpx (spec pc stack) ((List.range n).forM fun i => do
      tst (.setEntryHI p i (hi i))
      tst (.setEntryLO p i (lo i))) Q E g := by
  refine Prog.wpx_mono Prog.tracked_mono (fun _ y hy => ?_) (fun _ _ h => h)
    (Prog.wpx_forRange (I := fun k y => y = { g with tables := g.tables.fill p k hi lo })
      Prog.tracked_mono (fun k y hk hy => ?_) ?_)
  · subst hy
    exact hQ
  · subst hy
    rw [Prog.wpx_bind]
    refine writes hp (writes hp ?_)
    rw [Tables.fill_succ]
    rfl
  · rw [Tables.fill_zero]

/-- The process that is created has the number that it is set up for. -/
theorem asid_procState {pc : Word} {stack : State} {i : ℤ} (h0 : 0 ≤ i) (h64 : i < 64) :
    asid ((procState pc stack i).sReg sEntryHi) = i := by
  rw [procState, State.setReg_ne _ _ (by decide), State.setReg_ne _ _ (by decide),
    State.setReg_ne _ _ (by decide), State.setReg_self, asid_word h0 h64]

/-- A process is set up, and created if there is a PCB for it. -/
theorem processSetUp {i : ℤ} {Q : Unit → SetUp → Prop} (hi : IsUser i) (h64 : i < 64)
    (hnew : ∀ j ∈ g.created, 0 ≤ j ∧ j < 64 ∧ j ≠ i) (hshared : g.tables.Shared)
    (hcreated : Q () ⟨g.tables.withProcess i, i :: g.created⟩)
    (hnone : Q () ⟨g.tables.withProcess i, g.created⟩) :
    Prog.wpx (spec pc stack) (setUpProcess pc stack i) Q E g := by
  have h0 : 0 ≤ i := Int.le_trans (by decide) hi.1
  have htable : ∀ j ∈ g.created, ¬ (PageTable.tpPte i).UsedBy j := fun j hj he =>
    (hnew j hj).2.2 he.symm
  have haddr : ∀ j ∈ g.created, segTblStart + word i * segTblWidth ≠ segTblAddr j := by
    intro j hj
    obtain ⟨hj0, hj64, hne⟩ := hnew j hj
    exact Tables.segTblAddr_ne ⟨hj0, hj64⟩ ⟨h0, h64⟩ (Ne.symm hne)
  simp only [setUpProcess, Prog.wpx_bind]
  refine writes htable (fills htable (writes htable ?_))
  refine writes haddr (writes haddr (writes haddr (writes htable ?_)))
  have hasid : asid ((procState pc stack i).sReg sEntryHi) = i := asid_procState h0 h64
  have hnot : i ∉ g.created := fun hmem => (hnew i hmem).2.2 rfl
  have hpublishes : TestOp.Publishes pc stack Bool (.createProcess (procState pc stack i)) true
      ⟨g.tables.withProcess i, g.created⟩ :=
    ⟨i, hi, hnot, rfl, hasid, hshared.withProcess, g.tables.own_withProcess i⟩
  intro b _
  refine ⟨hpublishes, ?_⟩
  cases b with
  | false => exact hnone
  | true =>
    change Q () ⟨g.tables.withProcess i, asid _ :: g.created⟩
    rw [hasid]
    exact hcreated

/-- The processes up to `k` have been set up, and no others have been created. -/
structure UpTo (k : ℕ) (g : SetUp) : Prop where
  /-- what all processes use -/
  shared : g.tables.Shared
  /-- what each of them uses -/
  own : ∀ i : ℤ, 1 ≤ i → i ≤ k → g.tables.Own i
  /-- the processes that have been created -/
  created : ∀ i ∈ g.created, 1 ≤ i ∧ i ≤ (k : ℤ)

/-- The loop over the processes. -/
theorem processesSetUp {k : ℕ} {t : Tables} (hk : k ≤ Support.maxUserProc) (h64 : k < 64)
    (hshared : t.Shared) :
    Prog.wpx (spec pc stack) ((List.range k).forM fun j => setUpProcess pc stack (j + 1))
      (fun _ => UpTo k) E ⟨t, []⟩ := by
  apply Prog.wpx_forRange (I := UpTo) Prog.tracked_mono
  · intro j g hj h
    -- those that have been set up before keep their tables
    have hnext : ∀ i : ℤ, 1 ≤ i → i ≤ ((j + 1 : ℕ) : ℤ) →
        (g.tables.withProcess (j + 1)).Own i := by
      intro i h1 hi
      by_cases hlast : i = j + 1
      · subst hlast
        exact g.tables.own_withProcess _
      · exact (h.own i h1 (by omega)).withProcess (by omega) (by omega) hlast
    refine processSetUp ⟨by omega, by omega⟩ (by omega) (fun i hi => ?_) h.shared
      ⟨h.shared.withProcess, hnext, fun i hi => ?_⟩ ⟨h.shared.withProcess, hnext, fun i hi => ?_⟩
    · have hold := h.created i hi
      exact ⟨by omega, by omega, by omega⟩
    · rcases List.mem_cons.mp hi with rfl | hi
      · exact ⟨by omega, by push_cast; exact le_rfl⟩
      · have hold := h.created i hi
        exact ⟨hold.1, by push_cast; omega⟩
    · have hold := h.created i hi
      exact ⟨hold.1, by push_cast; omega⟩
  · exact ⟨hshared, fun i h1 hi => absurd hi (by push_cast; omega), fun i hi => by cases hi⟩

/-- The loop over the swap pool. -/
theorem poolSetUp {k : ℕ} {t : Tables} {Q : Unit → SetUp → Prop}
    (hQ : ∀ pool, (∀ f < k, (pool f).swAsid = -1 ∧ (pool f).swPte = none) →
      Q () ⟨{ t with swapPool := pool }, []⟩) :
    Prog.wpx (spec pc stack) ((List.range k).forM fun f => do
      tst (.setSwAsid f (-1))
      tst (.setSwPte f none)) Q E ⟨t, []⟩ := by
  refine Prog.wpx_mono Prog.tracked_mono (fun _ y hy => ?_) (fun _ _ h => h)
    (Prog.wpx_forRange (I := fun j y => ∃ pool,
      (∀ f < j, (pool f).swAsid = -1 ∧ (pool f).swPte = none) ∧
        y = ⟨{ t with swapPool := pool }, []⟩) Prog.tracked_mono ?_ ?_)
  · obtain ⟨pool, hpool, rfl⟩ := hy
    exact hQ pool hpool
  · rintro j y hj ⟨pool, hpool, rfl⟩
    rw [Prog.wpx_bind]
    refine writes (fun i hi => by cases hi) (writes (fun i hi => by cases hi) ?_)
    refine ⟨_, fun f hf => ?_, rfl⟩
    by_cases hlast : f = j
    · subst hlast
      simp [see]
    · simpa [see, hlast] using hpool f (by omega)
  · exact ⟨t.swapPool, fun f hf => by omega, rfl⟩

/-- The loop over the mutexes. -/
theorem mutexesSetUp {k : ℕ} {t : Tables} {Q : Unit → SetUp → Prop}
    (hQ : ∀ sem : Sem → ℤ, (∀ j < k, sem (.mutexSemArray j) = 1) →
      sem .swapSem = t.sem .swapSem → Q () ⟨{ t with sem := sem }, []⟩) :
    Prog.wpx (spec pc stack)
      ((List.range k).forM fun j => tst (.setSem (.mutexSemArray j) 1)) Q E ⟨t, []⟩ := by
  refine Prog.wpx_mono Prog.tracked_mono (fun _ y hy => ?_) (fun _ _ h => h)
    (Prog.wpx_forRange (I := fun j y => ∃ sem : Sem → ℤ,
      (∀ i < j, sem (.mutexSemArray i) = 1) ∧ sem .swapSem = t.sem .swapSem ∧
        y = ⟨{ t with sem := sem }, []⟩) Prog.tracked_mono ?_ ?_)
  · obtain ⟨sem, hsem, hswap, rfl⟩ := hy
    exact hQ sem hsem hswap
  · rintro j y hj ⟨sem, hsem, hswap, rfl⟩
    refine writes (fun i hi => by cases hi) ?_
    refine ⟨Function.update sem (.mutexSemArray j) 1, fun i hi => ?_, ?_, rfl⟩
    · by_cases hlast : i = j
      · subst hlast
        rw [Function.update_self]
      · have hne : Sem.mutexSemArray (i : ℤ) ≠ .mutexSemArray j := fun he =>
          hlast (by exact_mod_cast Sem.mutexSemArray.inj he)
        rw [Function.update_of_ne hne]
        exact hsem i (by omega)
    · have hne : Sem.swapSem ≠ .mutexSemArray j := nofun
      exact (Function.update_of_ne hne 1 sem).trans hswap
  · exact ⟨t.sem, fun i hi => by omega, rfl, rfl⟩

omit [Support] in
/-- The mutexes have been set up. -/
theorem mutex_of {sem : Sem → ℤ} (hswap : sem .swapSem = 1)
    (hsem : ∀ j < maxSema, sem (.mutexSemArray j) = 1) {s : Sem} (hs : s.isMutex = true) :
    sem s = 1 := by
  cases s with
  | swapSem => exact hswap
  | mutexSemArray i =>
    obtain ⟨h0, hi⟩ : 0 ≤ i ∧ i < maxSema := by simpa [Sem.isMutex] using hs
    have hone := hsem i.toNat (by omega)
    rwa [Int.toNat_of_nonneg h0] at hone
  | masterSem | tpSem procID => simp [Sem.isMutex] at hs

/-- What `test` leaves. -/
theorem testSetUp (t : Tables) (h64 : Support.maxUserProc < 64) :
    Prog.wpx (spec pc stack) (test pc stack) (fun _ _ => False)
      (fun e g => e = .terminated ∧ UpTo Support.maxUserProc g) ⟨t, []⟩ := by
  have hnone : ∀ {o : TestOp Unit} {g : SetUp} {Q : Unit → SetUp → Prop}
      {E : End → SetUp → Prop}, g.created = [] →
      (TestOp.Publishes pc stack Unit o () g = ∀ i ∈ g.created, ¬ TestOp.Disturbs i Unit o) →
      Q () (see Unit o () g) → Prog.wpx (spec pc stack) (tst o) Q E g := by
    intro o g Q E hg hok hQ
    refine writes ?_ hQ
    rw [hok, hg]
    intro i hi
    cases hi
  simp only [test, Prog.wpx_bind]
  refine hnone rfl rfl (fills (fun i hi => by cases hi) ?_)
  refine hnone rfl rfl (fills (fun i hi => by cases hi) ?_)
  refine poolSetUp fun pool hpool => hnone rfl rfl ?_
  refine mutexesSetUp fun sem hsem hswap => hnone rfl rfl ?_
  have hmutex : ∀ s : Sem, s.isMutex = true → Function.update sem .masterSem 0 s = 1 := by
    intro s hs
    have hne : s ≠ .masterSem := fun he => by simp [he, Sem.isMutex] at hs
    rw [Function.update_of_ne hne]
    exact mutex_of (hswap.trans (by simp [see])) hsem hs
  have hmaster : Function.update sem .masterSem 0 .masterSem = 0 := Function.update_self ..
  have hshared := t.shared_common hpool hmutex hmaster
  refine Prog.wpx_mono Prog.tracked_mono (fun _ g hg => ?_) (fun _ _ h => h)
    (processesSetUp le_rfl h64 hshared)
  -- the loop that waits
  refine Prog.wpx_mono Prog.tracked_mono (fun _ y hy => ?_) (fun _ _ h => h)
    (Prog.wpx_forRange (I := fun _ y => y = g) Prog.tracked_mono (fun j y _ hy => ?_) rfl)
  · subst hy
    exact ⟨rfl, hg⟩
  · subst hy
    exact writes (fun i _ => id) rfl

end

end SetUp

/-! ## The beginning of the pager -/

/-- The pager has these variables. -/
structure Paging.Shows (s : Paging) (t : Tables) : Prop where
  /-- `uProcs[i - 1].Tp_pte` -/
  uProc : ∀ i k, s.pte (.uProc i k) = t.entryLO (.tpPte i) k.toNat
  /-- `kUSeg3` -/
  kUSeg3 : ∀ k, s.pte (.kUSeg3 k) = t.entryLO .kUSeg3 k.toNat
  /-- `swapPool` -/
  swapPool : s.swapPool = t.swapPool
  /-- a mutex is free when it is 1 -/
  holder : ∀ m : Sem, m.isMutex = true → (s.holder m = none ↔ t.sem m = 1)

/-- No user process has run yet. -/
structure Paging.Unused (s : Paging) : Prop where
  /-- nothing is held that is no mutex -/
  holder : ∀ m : Sem, m.isMutex = false → s.holder m = none
  /-- no interrupt is disabled -/
  status : ∀ i, s.status i &&& allIntDisabled ≠ allIntDisabled
  /-- `nextFrame` -/
  nextFrame : s.nextFrame = 0
  /-- no entry is cached -/
  tlb : ∀ r, s.tlb r = none
  /-- nothing has been stored -/
  stored : ∀ i k w, s.stored i k w = none
  /-- nobody dies -/
  dying : ∀ i, s.dying i = false

section

variable [Support]

/-- What `test` leaves is what the pager begins with. -/
theorem SetUp.UpTo.initial {g : SetUp} (h : g.UpTo Support.maxUserProc) {s : Paging}
    (hs : s.Shows g.tables) (hnew : s.Unused) : s.Initial where
  holder m := by
    cases hm : m.isMutex with
    | true => exact (hs.holder m hm).mpr (h.shared.mutex m hm)
    | false => exact hnew.holder m hm
  status := hnew.status
  nextFrame := hnew.nextFrame
  swapPool f hf := by
    rw [hs.swapPool]
    exact h.shared.swapPool f hf
  uProc i k hi hk := by
    rw [hs.uProc]
    exact ((h.own i hi.1 hi.2).tpPte.2 k.toNat (by have h32 : k < 32 := hk.2; omega)).2
  kUSeg3 k hk := by
    rw [hs.kUSeg3]
    exact (h.shared.kUSeg3.2 k.toNat (by have h32 : k < 32 := hk.2; omega)).2
  tlb := hnew.tlb
  stored := hnew.stored
  dying := hnew.dying

/-- Whatever `test` finds in memory and whether or not there are PCBs: it creates each process when
what it uses has been set up, and writes nothing of this afterwards; and it leaves what the pager
begins with. -/
theorem test_sets_up {pc : Word} {stack : State} {t : Tables} {tr : List (Prog.Event TestOp)}
    {r : Except End Unit} (h64 : Support.maxUserProc < 64) (htr : (test pc stack).run.Trace tr r) :
    r = .error .terminated ∧ Prog.Along (TestOp.Publishes pc stack) SetUp.see ⟨t, []⟩ tr ∧
      (Prog.notes SetUp.see ⟨t, []⟩ tr).UpTo Support.maxUserProc ∧
        ∀ s : Paging, s.Shows (Prog.notes SetUp.see ⟨t, []⟩ tr).tables → s.Unused → s.Initial := by
  obtain ⟨halong, hend⟩ := Prog.of_tracked (SetUp.testSetUp t h64) htr Prog.along_free
  rcases r with (e | _)
  · obtain ⟨rfl, hup⟩ := hend
    exact ⟨rfl, halong, hup, fun s hs hnew => hup.initial hs hnew⟩
  · exact hend.elim

omit [Support] in
/-- Each operation of `test` has a result. -/
theorem TestOp.exists_result {α : Type} (o : TestOp α) : Nonempty α := by
  cases o <;> exact ⟨default⟩

omit [Support] in
/-- A system with one user process, as in `h/const.h`. -/
abbrev sampleSingle : Support where
  maxUserProc := 1
  swapSize := 2
  ramtop := 0x20100000
  tpSem procID := 0x20000000 + word procID

omit [Support] in
/-- One process is set up in a memory full of zeros. -/
theorem test_sets_up_one : ∃ (_ : Support) (tr : List (Prog.Event TestOp)),
    (test 0 .zero).run.Trace tr (.error .terminated) ∧
      Prog.Along (TestOp.Publishes 0 .zero) SetUp.see ⟨sampleTables, []⟩ tr ∧
        (Prog.notes SetUp.see ⟨sampleTables, []⟩ tr).UpTo 1 := by
  refine ⟨sampleSingle, ?_⟩
  let _ := sampleSingle
  have hends : (test 0 .zero).run.wp (Prog.possible (fun _ _ _ _ => True) SetUp.see)
      (fun _ _ => True) ⟨sampleTables, []⟩ :=
    Prog.possible_of_keeps (I := fun _ => True) (fun o _ => ⟨o.exists_result.some, trivial⟩)
      (fun _ _ _ _ => trivial) _ trivial
  obtain ⟨tr, r, htr, -⟩ := Prog.exists_trace hends
  obtain ⟨rfl, halong, hup, -⟩ := test_sets_up (t := sampleTables) (by decide) htr
  exact ⟨tr, htr, halong, hup⟩

end

end Jaeos
