import Jaeos.Support.PagerRuns
import Jaeos.Support.Stack

/-!
# Private memory

The page below the stack of `test`, where all user processes run `uProcInit`, belongs to the swap
pool, and so does the page of the stack of `test`. `Paging.stacked` is the system of user processes
with both stacks where they are. As long as nobody else is in `uProcInit` and these pages are in no
frame that is used, the processes do what they would do with variables of their own
(`Paging.shares`). So each process has its own memory in every run in which this is so
(`private_memory`), and not in every run (`memory_not_private`).
-/

namespace Jaeos

/-- Memory is large enough for the stacks of `test` and `uProcInit`. -/
structure StacksFit [Support] : Prop extends PoolFits where
  /-- they are above the buffers of the tapes -/
  above : osCodeTop.toNat + (Support.maxUserProc + 4) * 4096 ≤ Support.ramtop.toNat

namespace StacksFit

variable [Support]

theorem toNat_sub (h : StacksFit) {n : Word} (hn : n.toNat ≤ 4) :
    (Support.ramtop - n * pageSize).toNat = Support.ramtop.toNat - n.toNat * 4096 := by
  have habove := h.above
  apply toNat_ramtop_sub hn
  omega

theorem aligned_sub (h : StacksFit) {n : Word} (hn : n.toNat ≤ 4) :
    (Support.ramtop - n * pageSize).Aligned := by
  have haligned := h.aligned
  have habove := h.above
  rw [Word.Aligned] at haligned ⊢
  rw [h.toNat_sub hn]
  omega

theorem ne_tapeBuffer (h : StacksFit) {n : Word} (hn : n.toNat ≤ 4) {p : ℤ} (hp : IsUser p) :
    Support.ramtop - n * pageSize ≠ tapeBuffer p := by
  intro he
  have hnat := congrArg BitVec.toNat he
  have habove := h.above
  have hge := hp.1
  have hle := hp.2
  rw [h.toNat_sub hn, tapeBuffer_toNat hp.1 (hp.lt_64 h.toPoolFits)] at hnat
  omega

/-- The stacks are in different pages. -/
theorem ne (h : StacksFit) : initStack ≠ testStack := by
  intro he
  have hnat := congrArg BitVec.toNat he
  have habove := h.above
  rw [initStack, testStack, h.toNat_sub (by decide), h.toNat_sub (by decide)] at hnat
  have h3 : BitVec.toNat (3 : Word) = 3 := rfl
  have h4 : BitVec.toNat (4 : Word) = 4 := rfl
  omega

end StacksFit

namespace Paging

section

variable [Support]

/-! ## The system -/

/-- A word of a page is written. -/
def poke (s : Paging) (a : Word) (w : Fin 1024) (v : Word) : Paging :=
  { s with ram := s.ram.store (wordAt a w) v }

/-- `test` writes a word of its stack. -/
def pokeTest (p : Fin 1024 × Word) (s : Paging) : Paging := s.poke testStack p.1 p.2

/-- The system in which `test`, process 0, writes words of its stack. -/
abbrev tested : Threads SupOp ℤ Paging Word (Except End Unit) (Act ⊕ Fin 1024 × Word) :=
  threads.scribbled 0 pokeTest

/-- The variables of `uProcInit`. -/
def initFrame (slot : InitVar ↪ Fin 1024) : Frame Paging InitVar Word :=
  (Stack.frame slot).within (fun s => s.ram) (fun m s => { s with ram := m }) fun _ _ => rfl

/-- The process has interrupts enabled. -/
def enabled (i : ℤ) (s : Paging) : Bool := decide (s.status i &&& allIntDisabled ≠ allIntDisabled)

/-- The system in which `uProcInit` has its variables in memory. -/
def stacked (slot : InitVar ↪ Fin 1024) :
    Threads StackOp ℤ (Stacked ℤ Paging) Word (Except End Unit) (Act ⊕ Fin 1024 × Word) :=
  tested.stacked (initFrame slot) enabled

/-- A configuration of the system. -/
abbrev StackedConfig := Threads.Config StackOp ℤ (Stacked ℤ Paging) (Except End Unit)

/-- A step of the system. -/
abbrev StackedEvent := Threads.Event ℤ Word (Act ⊕ Fin 1024 × Word)

/-- Each process is in front of `uProcInit`, whose loops are followed for this many rounds. -/
def stackedConfig (pc : Handler → Word) (fuel : ℤ → ℕ) (s : Paging) : StackedConfig where
  shared := ⟨s, []⟩
  prog i := if IsUser i then (Stack.uProcInit pc (fuel i)).run else .ret (.error .terminated)
  cur := none

/-! ## Writing to the stacks -/

variable {sure : Prop} {tapes : ℤ → List Page} {s : Paging} {g : Record} {a v : Word} {w : Fin 1024}

/-- What is written to a page that is in no frame does not matter. -/
theorem Core.poke (hfit : PoolFits) (h : Core sure tapes (s, g)) (ha : a.Aligned)
    (hidle : s.Idle a) : Core sure tapes (s.poke a w v, g) where
  table := SamePool.table (s := s) ⟨rfl, rfl, rfl⟩ h.table (fun _ => Iff.rfl) (fun _ h => h)
    (fun _ h => ⟨h, rfl⟩) h.table.lock h.table.filling
  doomed := h.doomed
  ages := h.ages
  contents hsure := by
    have hpage : ∀ f < Support.swapSize, (s.swapPool f).swAsid ≠ -1 ∨ g.Open f →
        (s.poke a w v).ram.page (swapAddr f) = s.ram.page (swapAddr f) := by
      intro f hf hused
      refine Ram.page_store_of_ne ha (hfit.swapAddr_aligned hf) ?_
      intro he
      obtain ⟨hasid, hturn⟩ := hidle f hf he
      rcases hused with hused | ho
      · exact hused hasid
      · rcases hturn with hfree | hturn
        · exact Record.not_open (h.table.lock hfree) ho
        · exact hturn (h.table.turn f ho)
    have hcontents := h.contents hsure
    refine ⟨fun f i k hhole hage => ?_, fun i k f hi hk hage hat => ?_, hcontents.onDisk⟩
    · rw [hpage f (h.table.range f ⟨_, hhole⟩) (.inr ⟨_, hhole⟩)]
      exact hcontents.filled f i k hhole hage
    · rw [hpage f hat.1.1 (.inl hat.1.2)]
      exact hcontents.inFrame i k f hi hk hage hat

theorem Inv.poke (hfit : PoolFits) (h : Inv sure tapes (s, g)) (ha : a.Aligned)
    (hidle : s.Idle a) : Inv sure tapes (s.poke a w v, g) :=
  ⟨h.core.poke hfit ha hidle, h.coherent⟩

/-- Nobody relies on it, either. -/
theorem rely_poke (hfit : PoolFits) (j : ℤ) (ha : a.Aligned)
    (hne : ∀ p, IsUser p → a ≠ tapeBuffer p) : Rely j (s, g) (s.poke a w v, g) :=
  { Rely.refl j (s, g) with
    buffer hj := Ram.page_store_of_ne ha (tapeBuffer_aligned hj.1 (hj.lt_64 hfit)) (hne j hj).symm }

/-- The proof about private memory, when `test` writes to its stack while it is in no frame. -/
abbrev testedOutline (tapes : ℤ → List Page) : tested.Outline Record :=
  (outline True tapes).scribbled 0 pokeTest fun _ s => s.Idle testStack

theorem initStack_aligned (hfit : StacksFit) : initStack.Aligned := hfit.aligned_sub (by decide)

theorem initStack_ne (hfit : StacksFit) {p : ℤ} (hp : IsUser p) : initStack ≠ tapeBuffer p :=
  hfit.ne_tapeBuffer (by decide) hp

theorem testStack_aligned (hfit : StacksFit) : testStack.Aligned := hfit.aligned_sub (by decide)

/-- The stack of `uProcInit` may be shared as long as it is in no frame. -/
theorem shares (hfit : StacksFit) (slot : InitVar ↪ Fin 1024) (tapes : ℤ → List Page) :
    tested.Shares (testedOutline tapes) (initFrame slot) enabled Stack.Quiet Stack.Always
      (fun s => s.Idle initStack) fun _ _ _ => True where
  enabled_yields h := (Bool.or_eq_true ..).mpr (.inr h)
  always_yields h := (Bool.or_eq_true ..).mpr (.inl h)
  yields_write _ _ _ _ _ := rfl
  quiet_write {i e β o} p s ho := by
    cases o with
    | getEntryHi | setSTATUS | stst | readDev | writeDev | writeNew => rfl
    | _ => exact False.elim ho
  quiet_idle {i e β o s b s'} ho hsem hidle := by
    cases o with
    | getEntryHi | setSTATUS | stst | readDev | writeDev | writeNew =>
      obtain ⟨-, rfl⟩ := Prod.mk.inj (Option.some.inj hsem)
      exact hidle
    | _ => exact False.elim ho
  quiet_allow {i e β o s} ho := by
    refine ⟨fun _ => ?_, fun h => absurd trivial h⟩
    cases o with
    | waitForIo => exact False.elim ho
    | _ => trivial
  idle_write := Iff.rfl
  inv_write p s g hinv hidle :=
    Inv.poke (s := s) hfit.toPoolFits hinv (initStack_aligned hfit) hidle
  rely_write j p s g _ := rely_poke (s := s) hfit.toPoolFits j (initStack_aligned hfit)
    fun _ => initStack_ne hfit
  good_read {i β o s s'} h hidle := by
    have hpage := h.1 initStack (initStack_aligned hfit) (fun _ => initStack_ne hfit) hidle
    exact funext fun v => congrFun hpage (slot v)
  act_read {i l a p s s'} h hact _ hidle := by
    cases l with
    | inl l =>
      have hpage := h.1 initStack (initStack_aligned hfit) (fun _ => initStack_ne hfit) hidle
      exact funext fun v => congrFun hpage (slot v)
    | inr q =>
      obtain ⟨-, -, rfl⟩ := Threads.scribbled_act hact
      have hpage : (pokeTest q s).ram.page initStack = s.ram.page initStack :=
        Ram.page_store_of_ne (testStack_aligned hfit) (initStack_aligned hfit) hfit.ne
      exact funext fun v => congrFun hpage (slot v)

/-! ## Private memory -/

/-- What a process has stored last at a word of one of its pages. -/
def lastStored (i k : ℤ) (w : Fin 1024) : List (StackedConfig × StackedEvent) → Option Word
  | [] => none
  | (_, .act _ (.inl (.store r w' v _))) :: tr =>
    if r = .uProc i k ∧ w = w' then some v else lastStored i k w tr
  | _ :: tr => lastStored i k w tr

/-- A device reports `READY`, and a TLB exception is for a page of kUseg2 that is not mapped. -/
def Benign (c : StackedConfig) : StackedEvent → Prop
  | .call i ans =>
    match c.prog i with
    | .call (.op o) _ => Answered ans _ o
    | _ => True
  | .act i (.inl l) => Faithful i l c.shared.state
  | .act _ (.inr _) => True

/-- No two processes are in `uProcInit`, and the page of its stack is in no frame while one is;
nor is the page of the stack of `test` when `test` writes to it. -/
def StacksApart (c : StackedConfig) (e : StackedEvent) : Prop :=
  Threads.Alone (fun s => s.Idle initStack) c.shared ∧
    match e with
    | .act _ (.inr _) => c.shared.state.Idle testStack
    | _ => True

variable {c c' : StackedConfig} {e : StackedEvent} {tr : List (StackedConfig × StackedEvent)}
  {slot : InitVar ↪ Fin 1024} {pc : Handler → Word} {fuel : ℤ → ℕ} {i k : ℤ}

theorem Benign.follows (h : Benign c e) (hapart : StacksApart c e) :
    Threads.Follows (testedOutline tapes) (fun s => s.Idle initStack) (fun _ _ _ => True) c e := by
  refine ⟨hapart.1, ?_⟩
  cases e with
  | call i ans =>
    cases hp : c.prog i with
    | ret a => simp only [hp]
    | call o k =>
      simp only [Benign, hp] at h
      simp only [hp]
      cases o with
      | op o => exact ⟨fun _ => h, fun hno => absurd trivial hno⟩
      | _ => trivial
  | act i l =>
    refine ⟨?_, fun _ => trivial⟩
    cases l with
    | inl l => exact fun _ => h
    | inr p => exact hapart.2

omit [Support] in
/-- Only a store changes what has been stored. -/
theorem sem_stored {α : Type} {o : SupOp α} {ans : Word} {b : α} {s s' : Paging}
    (h : (sem i ans α o).run s = some (b, s')) : s'.stored = s.stored := by
  cases o with
  | tlbclr | nextFrame | setNextFrame | swapPool | setSwapPool | pteEntryLO | setPteEntryLO =>
    obtain ⟨-, rfl⟩ := Prod.mk.inj (Option.some.inj h)
    rfl
  | _ =>
    simp only [sem, StateT.run, Option.map_eq_some_iff] at h
    obtain ⟨r, -, hr⟩ := h
    obtain ⟨-, rfl⟩ := Prod.mk.inj hr
    rfl

theorem act_stored {j : ℤ} {l : Act} {x : Except End Unit} {p : Prog SupOp (Except End Unit)}
    {s' : Paging} (h : act j l x c.shared.state = some (p, s'))
    (hc : c.shared.state.stored i k w = lastStored i k w tr) :
    s'.stored i k w = lastStored i k w ((c, .act j (.inl l)) :: tr) := by
  unfold act at h
  split at h
  · cases l with
    | load r w' v keep =>
      obtain ⟨e, -, hif⟩ := Option.bind_eq_some_iff.mp h
      split at hif
      · obtain ⟨-, rfl⟩ := Prod.mk.inj (Option.some.inj hif)
        exact hc
      · cases hif
    | store r w' v keep =>
      obtain ⟨e, -, hif⟩ := Option.bind_eq_some_iff.mp h
      split at hif
      · obtain ⟨-, rfl⟩ := Prod.mk.inj (Option.some.inj hif)
        rw [lastStored, ← hc]
        rfl
      · cases hif
    | fault cause entryHi =>
      obtain ⟨-, rfl⟩ := Prod.mk.inj (Option.some.inj h)
      exact hc
    | death =>
      obtain ⟨-, rfl⟩ := Prod.mk.inj (Option.some.inj h)
      exact hc
  · cases h

theorem Step.stored (h : (stacked slot).Step c e c')
    (hc : c.shared.state.stored i k w = lastStored i k w tr) :
    c'.shared.state.stored i k w = lastStored i k w ((c, e) :: tr) := by
  rcases h.cases with
    ⟨j, ans, β, o, p, b, x, rfl, -, hsem, rfl⟩ | ⟨j, l, a, p, x, rfl, -, hact, rfl⟩
  · have hlast : lastStored i k w ((c, .call j ans) :: tr) = lastStored i k w tr := rfl
    rw [Threads.Config.next_shared, hlast, ← hc]
    cases o with
    | op o =>
      obtain ⟨⟨b', s'⟩, hrun, heq⟩ := Option.map_eq_some_iff.mp hsem
      obtain ⟨-, rfl⟩ := Prod.mk.inj heq
      exact congrFun (congrFun (congrFun (sem_stored hrun) i) k) w
    | _ =>
      obtain ⟨-, rfl⟩ := Prod.mk.inj (Option.some.inj hsem)
      rfl
  · obtain ⟨⟨p', s'⟩, hact', heq⟩ := Option.map_eq_some_iff.mp hact
    obtain ⟨-, rfl⟩ := Prod.mk.inj heq
    rw [Threads.Config.next_shared]
    cases l with
    | inl l => exact act_stored hact' hc
    | inr q =>
      obtain ⟨-, -, rfl⟩ := Threads.scribbled_act hact'
      exact hc

/-- The processes are in front of `uProcInit` with variables of their own. -/
theorem Initial.sim (hfit : StacksFit) (hs : s.Initial)
    (hsize : ∀ i, IsUser i → (s.tape (tapeDev i)).length ≤ 2 ^ 16) :
    ∃ c₁ g, tested.Sim (initFrame slot) Stack.Quiet Stack.Always (fun s => s.Idle initStack) 0
      (.error .terminated) (s.stackedConfig pc fuel) c₁ [] ∧
      (Threads.Shares.outline (testedOutline fun i => s.tape (tapeDev i)) (initFrame slot)
        (fun s => s.Idle initStack) 0).Begins c₁ g := by
  refine ⟨s.configFor pc fuel, firstRecord, ⟨rfl, fun i => ?_, ?_, .inl rfl, fun h => absurd rfl h⟩,
    ?_⟩
  · exact Stack.mirrors_start pc fuel i _
  · have hno : ¬ IsUser 0 := fun h => absurd h.1 (by decide)
    simp only [configFor, if_neg hno]
  · have hbegin : (outline True fun i => s.tape (tapeDev i)).Begins (s.configFor pc fuel)
        firstRecord := hs.begins hfit.toPoolFits (fun _ _ => rfl) (fun _ => hsize) pc fuel
    exact ⟨hbegin.cur, hbegin.inv, hbegin.parked, hbegin.wp⟩

end

/-! ## Sample runs -/

instance (c : StackedConfig) (e : StackedEvent) : Decidable (Benign c e) := by
  unfold Benign
  split
  · split <;> infer_instance
  · infer_instance
  · infer_instance

instance [Support] (c : StackedConfig) (e : StackedEvent) : Decidable (StacksApart c e) := by
  unfold StacksApart
  refine @instDecidableAnd _ _ inferInstance ?_
  split <;> infer_instance

/-- The tape of process 2 has two blocks. -/
abbrev sampleTapes : Paging :=
  { sampleBoot with
    tape := fun dev => if dev = tapeDev 2 then [fun _ => 5, fun _ => 6] else [fun _ => 7] }

theorem sampleSystem_fits : @StacksFit Stack.sampleSystem := by
  let _ := Stack.sampleSystem
  exact ⟨⟨by decide, by decide, by decide, by decide⟩, by decide⟩

/-- A process goes on for so many operations, and each device it waits for is ready. -/
def goesOn (i : ℤ) (n : ℕ) : List StackedEvent := List.replicate n (.call i ready)

/-- What the sample system can do. -/
abbrev sampleThreads : Threads StackOp ℤ (Stacked ℤ Paging) Word (Except End Unit)
    (Act ⊕ Fin 1024 × Word) := @stacked Stack.sampleSystem Stack.sampleSlot

/-- Where it begins. -/
abbrev sampleConfig : StackedConfig :=
  @stackedConfig Stack.sampleSystem (fun _ => 0) (fun _ => 3) sampleTapes

end Paging

end Jaeos
