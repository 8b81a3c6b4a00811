import Jaeos.Support.DiskRuns
import Jaeos.Support.Stack

/-!
# The round trip through a disk

`Disks.stacked` is the system of disk requests and tapes in which the variables of `uProcInit` are
where they are, in one page of memory for all processes. This page belongs to the swap pool, so
others may overwrite it. In every run in which `uProcInit` has it for one process at a time, and no
disk is used together with the tape whose buffer is at the same place, SYS15 delivers what SYS14 has
written last, and every tape arrives on the backing store (`disk_round_trip`). This is not so in
every run (`tape_overwrites`).
-/

namespace Jaeos

/-- Memory is large enough for the buffers and the stack of `uProcInit`. -/
structure BuffersFit [Support] : Prop where
  /-- each process has a tape -/
  users : Support.maxUserProc ≤ 8
  /-- memory is a number of pages -/
  aligned : Support.ramtop.Aligned
  /-- the stack is above the buffers -/
  above : osCodeTop.toNat + 12 * 4096 ≤ Support.ramtop.toNat
  /-- and below kUseg2 -/
  below : Support.ramtop.toNat ≤ kUseg2Addr.toNat

namespace Disks

/-! ## The page of the stack -/

section

variable [Support]

theorem initStack_toNat (hfit : BuffersFit) :
    initStack.toNat = Support.ramtop.toNat - 4 * 4096 := by
  have habove := hfit.above
  have h4 : BitVec.toNat (4 : Word) = 4 := rfl
  rw [initStack, toNat_ramtop_sub (by decide) (by rw [h4]; omega), h4]

theorem initStack_kernel (hfit : BuffersFit) : KernelPage initStack where
  aligned := by
    have haligned := hfit.aligned
    rw [Word.Aligned] at haligned ⊢
    rw [initStack_toNat hfit]
    omega
  above := by
    have habove := hfit.above
    rw [initStack_toNat hfit]
    exact Nat.le_sub_of_add_le ((Nat.add_le_add_left (by decide) _).trans habove)
  below := by
    have habove := hfit.above
    have hbelow := hfit.below
    rw [initStack_toNat hfit]
    omega

theorem initStack_ne (hfit : BuffersFit) (dev : ℤ) (h1 : 1 ≤ dev) (h15 : dev ≤ 15) :
    initStack ≠ buffer dev := by
  intro he
  have habove := hfit.above
  have hcode : osCodeTop.toNat = 0x20020000 := rfl
  have hnat := congrArg BitVec.toNat he
  rw [initStack_toNat hfit, buffer_toNat h1 h15] at hnat
  omega

/-! ## The system -/

/-- A word of the page is overwritten. -/
def overwrite (p : Fin 1024 × Word) (s : Disks) : Disks :=
  s.onto { s.toHardware with ram := s.ram.store (wordAt initStack p.1) p.2 }

/-- The system in which process 0 stands for those who have the page from the swap pool. -/
abbrev overwritten : Threads SupOp ℤ Disks Word (Except End Unit) (Act ⊕ Fin 1024 × Word) :=
  threads.scribbled 0 overwrite

/-- The variables of `uProcInit`. -/
def initFrame (slot : InitVar ↪ Fin 1024) : Frame Disks InitVar Word :=
  (Stack.frame slot).within (fun s => s.ram) (fun m s => s.onto { s.toHardware with ram := m })
    fun _ _ => rfl

/-- The system in which `uProcInit` has its variables in memory. -/
def stacked (slot : InitVar ↪ Fin 1024) :
    Threads StackOp ℤ (Stacked ℤ Disks) Word (Except End Unit) (Act ⊕ Fin 1024 × Word) :=
  overwritten.stacked (initFrame slot) fun _ _ => false

/-- A configuration of the system. -/
abbrev Config := Threads.Config StackOp ℤ (Stacked ℤ Disks) (Except End Unit)

/-- A step of the system. -/
abbrev Event := Threads.Event ℤ Word (Act ⊕ Fin 1024 × Word)

/-- Each process is in front of `uProcInit`, whose loops are followed for this many rounds. -/
def config (pc : Handler → Word) (fuel : ℤ → ℕ) (s : Disks) : Config where
  shared := ⟨s, []⟩
  prog i := if IsUser i then (Stack.uProcInit pc (fuel i)).run else .ret (.error .terminated)
  cur := none

/-! ## Writing to the stack -/

variable {blocks : ℤ → Block → Page} {tapes : ℤ → List Page} {s s' : Disks} {i j : ℤ}
  {p : Fin 1024 × Word}

theorem overwrite_page (hfit : BuffersFit) {b : Word} (hb : b.Aligned) (hne : b ≠ initStack) :
    (s.overwrite p).ram.page b = s.ram.page b :=
  Ram.page_store_of_ne (initStack_kernel hfit).aligned hb hne

theorem Inv.overwrite (h : Inv blocks s) : Inv blocks (s.overwrite p) :=
  h.of_hardware rfl fun _ _ _ _ => rfl

theorem rely_overwrite (hfit : BuffersFit) : Rely j s (s.overwrite p) :=
  { Rely.refl j s with
    buffer d h1 h15 _ :=
      overwrite_page hfit (buffer_aligned h1 h15) (initStack_ne hfit d h1 h15).symm }

/-- The proof about the disks, when others have the page of the stack. -/
abbrev overwrittenOutline (blocks : ℤ → Block → Page) (tapes : ℤ → List Page) :
    overwritten.Outline Unit := (outline blocks tapes).scribbled 0 overwrite fun _ _ => True

theorem overwrittenOutline_sound (hfit : BuffersFit) (blocks : ℤ → Block → Page)
    (tapes : ℤ → List Page) : (overwrittenOutline blocks tapes).Sound :=
  (outline_sound hfit.users blocks tapes).scribbled (fun _ _ _ hinv _ => Inv.overwrite hinv)
    fun _ _ _ _ _ => rely_overwrite hfit

/-- `uProcInit` may have its variables there as long as nobody overwrites them. -/
theorem shares (hfit : BuffersFit) (slot : InitVar ↪ Fin 1024) (blocks : ℤ → Block → Page)
    (tapes : ℤ → List Page) :
    overwritten.Shares (overwrittenOutline blocks tapes) (initFrame slot) (fun _ _ => false)
      Stack.Quiet Stack.Always (fun _ => True) fun _ l _ => l.isLeft = true where
  enabled_yields h := absurd h Bool.false_ne_true
  always_yields {i β o s} h := by
    cases o with
    | getEntryHi => rfl
    | _ => exact h
  yields_write _ _ _ _ _ := rfl
  quiet_write {i e β o} p s ho := by
    cases o with
    | getEntryHi | setSTATUS | stst | readDev | writeDev | writeNew => rfl
    | _ => exact False.elim ho
  quiet_idle _ _ _ := trivial
  quiet_allow {i e β o s} ho := by
    cases o with
    | getEntryHi | setSTATUS | stst | readDev | writeDev | writeNew => exact ⟨trivial, trivial⟩
    | _ => exact False.elim ho
  idle_write := Iff.rfl
  inv_write p s g hinv _ := Inv.overwrite (s := s) (p := (slot p.1, p.2)) hinv
  rely_write j p s g _ := rely_overwrite (s := s) (p := (slot p.1, p.2)) hfit
  good_read {i β o s s'} h _ :=
    funext fun v => congrFun (h.2.2 initStack (initStack_kernel hfit) (initStack_ne hfit)) (slot v)
  act_read {i l a p s s'} h _ hstill _ := by
    cases l with
    | inl l =>
      have hpage := h.2.2 initStack (initStack_kernel hfit) (initStack_ne hfit)
      exact funext fun v => congrFun hpage (slot v)
    | inr q => cases hstill

/-! ## Runs -/

/-- Each device reports `READY`, and each call fits. -/
def Benign (c : Config) : Event → Prop
  | .call i ans =>
    match c.prog i with
    | .call (.op o) _ => Paging.Answered ans _ o
    | _ => True
  | .act _ (.inl l) => l.Fits
  | .act _ (.inr _) => True

/-- The step fills a buffer only while the mutex of the other device is free that has it. -/
def FilledAlone (c : Config) : Event → Prop
  | .call i _ =>
    match c.prog i with
    | .call (.op o) _ => FillsAlone i c.shared.state _ o
    | _ => True
  | .act _ _ => True

/-- No two processes are in `uProcInit`, and nobody overwrites its variables while one is. -/
def StackAlone (c : Config) (e : Event) : Prop :=
  c.shared.inside.length ≤ 1 ∧
    match e with
    | .act _ (.inr _) => c.shared.inside = []
    | _ => True

/-- The mutex that an operation takes. -/
def taken {β : Type} : SupOp β → Option Sem
  | .passeren m => some m
  | _ => none

/-- The mutex that a program is about to take. -/
def taking {α : Type} : Prog StackOp α → Option Sem
  | .call (.op o) _ => taken o
  | _ => none

/-- What the last process to take the mutex of a disk with SYS14 for a sector had in its page. As
long as somebody else has the mutex, or nobody, this SYS14 is complete. -/
def lastPut (d : ℤ) (n : Word) : List (Config × Event) → Option Page
  | [] => none
  | (c, .call i _) :: tr =>
    let s := c.shared.state
    if taking (c.prog i) = some (.mutexSemArray d) ∧ s.number i = 14 ∧ s.sectNo i = n then
      some (s.page i (s.address i))
    else lastPut d n tr
  | (_, .act _ _) :: tr => lastPut d n tr

/-- A step after a run from `s₀`: SYS15 delivers what has been written last by SYS14, or what was
on the disk; what is taken from a buffer is what was put there; and a process in user mode has its
tape on the backing store. -/
structure RoundTrip (s₀ : Disks) (tr : List (Config × Event)) (c : Config) (e : Event)
    (c' : Config) : Prop where
  /-- the operations -/
  exact : ∀ i ans (β : Type) (o : SupOp β) k, e = .call i ans → c.prog i = .call (.op o) k →
    Exact (fun d n => lastPut d n tr) s₀.blocks i c.shared.state β o
  /-- the tapes -/
  loaded : ∀ i l, e = .act i (.inl l) →
    HasTape (fun j => s₀.tape (tapeDev j)) i c.shared.state
  /-- the buffers -/
  buffers : LeavesBuffers e.thread c.shared.state c'.shared.state

variable {c c' : Config} {e : Event} {tr : List (Config × Event)} {slot : InitVar ↪ Fin 1024}
  {pc : Handler → Word} {fuel : ℤ → ℕ} {d : ℤ} {n : Word} {β : Type} {o : SupOp β}

omit [Support] in
theorem StackAlone.alone (h : StackAlone c e) : Threads.Alone (fun _ => True) c.shared :=
  ⟨h.1, fun _ => trivial⟩

theorem follows (hbenign : Benign c e) (hfilled : FilledAlone c e) (halone : StackAlone c e) :
    Threads.Follows (overwrittenOutline blocks tapes) (fun _ => True)
      (fun _ l _ => l.isLeft = true) c e := by
  refine ⟨halone.alone, ?_⟩
  cases e with
  | call i ans =>
    cases hp : c.prog i with
    | ret a => simp only [hp]
    | call o k =>
      simp only [Benign, hp] at hbenign
      simp only [FilledAlone, hp] at hfilled
      simp only [hp]
      cases o with
      | op o => exact ⟨hbenign, hfilled⟩
      | _ => trivial
  | act i l =>
    cases l with
    | inl l => exact ⟨hbenign, fun _ => rfl⟩
    | inr p => exact ⟨trivial, fun hin => absurd halone.2 hin⟩

/-! ## What has been written -/

omit [Support] in
theorem store_put {a v : Word} : (s.store i a v).put = s.put := by
  unfold store
  split <;> rfl

omit [Support] in
/-- Only P on the mutex of a disk changes what has been written. -/
theorem sem_put {ans : Word} {b : β} (h : (sem i ans β o).run s = some (b, s')) : s'.put d n =
    if taken o = some (.mutexSemArray d) ∧ s.number i = 14 ∧ s.sectNo i = n then
      some (s.page i (s.address i))
    else s.put d n := by
  cases o with
  | passeren m =>
    obtain ⟨-, rfl⟩ := sem_passeren h
    by_cases hm : m = .mutexSemArray d
    · subst hm
      by_cases hnum : s.number i = 14
      · rw [take_put_self hnum]
        simp only [taken, hnum, true_and]
        by_cases hn : s.sectNo i = n
        · subst hn
          simp
        · rw [Function.update_of_ne (Ne.symm hn), if_neg hn]
      · rw [take_of_number hnum, if_neg fun hall => hnum hall.2.1]
        rfl
    · rw [take_put_of_ne hm]
      simp [taken, hm]
  | loadWord | tlbclr | swapPool | setSwapPool | pteEntryLO | setPteEntryLO =>
    obtain ⟨-, rfl⟩ := Prod.mk.inj (Option.some.inj h)
    simp [taken]
  | storeWord a v =>
    obtain ⟨-, rfl⟩ := Prod.mk.inj (Option.some.inj h)
    simp [taken, store_put]
  | _ =>
    simp only [sem, StateT.run, Option.map_eq_some_iff] at h
    obtain ⟨r, -, hr⟩ := h
    obtain ⟨-, rfl⟩ := Prod.mk.inj hr
    simp [taken, onto]

theorem act_put {l : Act ⊕ Fin 1024 × Word} {a : Except End Unit}
    {q : Prog SupOp (Except End Unit)} (h : overwritten.act i l a s = some (q, s')) :
    s'.put = s.put := by
  cases l with
  | inl l =>
    change s.act i l a = some (q, s') at h
    unfold act at h
    split at h
    · cases l with
      | store b v =>
        simp only at h
        split at h
        · obtain ⟨-, rfl⟩ := Prod.mk.inj (Option.some.inj h)
          exact store_put
        · cases h
      | call r =>
        simp only at h
        split at h
        · obtain ⟨-, rfl⟩ := Prod.mk.inj (Option.some.inj h)
          rfl
        · cases h
    · cases h
  | inr p =>
    obtain ⟨-, -, rfl⟩ := Threads.scribbled_act h
    rfl

theorem Step.put (h : (stacked slot).Step c e c')
    (hc : c.shared.state.put d n = lastPut d n tr) :
    c'.shared.state.put d n = lastPut d n ((c, e) :: tr) := by
  rcases h.cases with
    ⟨i, ans, β, o, k, b, x, rfl, hp, hsem, rfl⟩ | ⟨i, l, a, p, x, rfl, -, hact, rfl⟩
  · rw [Threads.Config.next_shared, lastPut, hp, ← hc]
    cases o with
    | op o =>
      obtain ⟨⟨b', s'⟩, hrun, heq⟩ := Option.map_eq_some_iff.mp hsem
      obtain ⟨-, rfl⟩ := Prod.mk.inj heq
      exact sem_put hrun
    | _ =>
      obtain ⟨-, rfl⟩ := Prod.mk.inj (Option.some.inj hsem)
      simp [taking, initFrame, Frame.within, onto]
  · obtain ⟨⟨p', s'⟩, hact', heq⟩ := Option.map_eq_some_iff.mp hact
    obtain ⟨-, rfl⟩ := Prod.mk.inj heq
    rw [Threads.Config.next_shared, lastPut, ← hc]
    exact congrFun (congrFun (act_put hact') d) n

theorem put_eq_lastPut (hs : s.Initial)
    (hrun : Transition.Run (· = s.config pc fuel) (stacked slot).Step tr c) :
    c.shared.state.put d n = lastPut d n tr := by
  refine hrun.trace_invariant (I := fun tr c => c.shared.state.put d n = lastPut d n tr)
    (G := fun _ _ _ => True) ?_ (fun tr c e c' _ hc _ h => Step.put h hc) fun _ _ _ _ => trivial
  rintro c rfl
  exact hs.put d n

/-! ## The round trip -/

/-- The processes are in front of `uProcInit` with variables of their own. -/
theorem Initial.sim (hfit : BuffersFit) (hs : s.Initial)
    (hsize : ∀ i, IsUser i → (s.tape (tapeDev i)).length ≤ 2 ^ 16) :
    ∃ c₁ g, overwritten.Sim (initFrame slot) Stack.Quiet Stack.Always (fun _ => True) 0
      (.error .terminated) (s.config pc fuel) c₁ [] ∧
      (Threads.Shares.outline (overwrittenOutline s.blocks fun i => s.tape (tapeDev i))
        (initFrame slot) (fun _ => True) 0).Begins c₁ g := by
  refine ⟨s.configFor pc fuel, (), ⟨rfl, fun i => ?_, ?_, .inl rfl, fun h => absurd rfl h⟩, ?_⟩
  · exact Stack.mirrors_start pc fuel i _
  · have hno : ¬ IsUser 0 := fun h => absurd h.1 (by decide)
    simp only [configFor, if_neg hno]
  · have hbegin := hs.begins hfit.users hsize pc fuel
    exact ⟨hbegin.cur, hbegin.inv, hbegin.parked, hbegin.wp⟩

/-- Process 0 has no program but its own. -/
theorem act_overwrite {l : Act ⊕ Fin 1024 × Word} {q : Prog SupOp (Except End Unit)}
    (h : overwritten.act 0 l (.error .terminated) s = some (q, s')) :
    q = .ret (.error .terminated) := by
  cases l with
  | inl l => cases h
  | inr p => exact (Threads.scribbled_act h).2.1

omit [Support] in
/-- Operations that are not SYSCALLs do not take anything from a buffer. -/
theorem exact_of_quiet {put : ℤ → Word → Option Page} (ho : Stack.Quiet β o) :
    Exact put blocks i s β o := by
  cases o with
  | getEntryHi | setSTATUS | stst | readDev | writeDev | writeNew => trivial
  | _ => exact False.elim ho

omit [Support] in
/-- Nor do they write to one. -/
theorem leavesBuffers_of_quiet {ans : Word} {b : β} (ho : Stack.Quiet β o)
    (h : (sem i ans β o).run s = some (b, s')) : LeavesBuffers i s s' := by
  cases o with
  | getEntryHi | setSTATUS | stst | readDev | writeDev | writeNew =>
    obtain ⟨-, rfl⟩ := Prod.mk.inj (Option.some.inj h)
    exact fun _ _ _ _ _ _ => rfl
  | _ => exact False.elim ho

/-- The variables of `uProcInit` are in no buffer. -/
theorem leavesBuffers_overwrite (hfit : BuffersFit) : LeavesBuffers i s (s.overwrite p) :=
  leavesBuffers fun _ _ => rely_overwrite hfit

theorem leavesBuffers_variable (hfit : BuffersFit) {ans : Word} {o : StackOp β} {b : β}
    {x x' : Stacked ℤ Disks} (ho : ∀ o', o ≠ .op o')
    (h : ((stacked slot).sem i ans β o).run x = some (b, x')) :
    LeavesBuffers i x.state x'.state := by
  cases o with
  | op o => exact absurd rfl (ho o)
  | set v w =>
    obtain ⟨-, rfl⟩ := Prod.mk.inj (Option.some.inj h)
    exact leavesBuffers_overwrite (p := (slot v, w)) hfit
  | _ =>
    obtain ⟨-, rfl⟩ := Prod.mk.inj (Option.some.inj h)
    exact fun _ _ _ _ _ _ => rfl

omit [Support] in
/-- A step that is an operation. -/
theorem RoundTrip.of_op {ans : Word} {k : β → Prog StackOp (Except End Unit)}
    (hp : c.prog i = .call (.op o) k)
    (hexact : Exact (fun d n => lastPut d n tr) s.blocks i c.shared.state β o)
    (hbuffers : LeavesBuffers i c.shared.state c'.shared.state) :
    RoundTrip s tr c (.call i ans) c' where
  exact j ans' β' o' k' he hp' := by
    obtain ⟨rfl, -⟩ := Threads.Event.call.inj he
    rw [hp] at hp'
    cases hp'
    exact hexact
  loaded j l he := by cases he
  buffers := hbuffers

omit [Support] in
/-- A step that is about a variable. -/
theorem RoundTrip.of_variable {ans : Word} {o : StackOp β}
    {k : β → Prog StackOp (Except End Unit)} (hp : c.prog i = .call o k) (ho : ∀ o', o ≠ .op o')
    (hbuffers : LeavesBuffers i c.shared.state c'.shared.state) :
    RoundTrip s tr c (.call i ans) c' where
  exact j ans' β' o' k' he hp' := by
    obtain ⟨rfl, -⟩ := Threads.Event.call.inj he
    rw [hp] at hp'
    cases hp'
    exact absurd rfl (ho o')
  loaded j l he := by cases he
  buffers := hbuffers

omit [Support] in
/-- A step of a process in user mode. -/
theorem RoundTrip.of_act {l : Act}
    (hloaded : HasTape (fun j => s.tape (tapeDev j)) i c.shared.state)
    (hbuffers : LeavesBuffers i c.shared.state c'.shared.state) :
    RoundTrip s tr c (.act i (.inl l)) c' where
  exact j ans' β' o' k' he := by cases he
  loaded j l' he := by
    obtain ⟨rfl, -⟩ := Threads.Event.act.inj he
    exact hloaded
  buffers := hbuffers

/-- SYS15 delivers what SYS14 has written last to its sector, and no buffer is overwritten that is
in use, as long as no disk and no tape with the same buffer are in use together, and `uProcInit` has
its variables for one process at a time: for at most eight processes, and if every device is always
ready. The backing store has a cylinder for each block of a tape. -/
theorem disk_round_trip (hfit : BuffersFit) (hs : s.Initial)
    (hsize : ∀ i, IsUser i → (s.tape (tapeDev i)).length ≤ 2 ^ 16)
    (hrun : Transition.Run (· = s.config pc fuel) (stacked slot).Step tr c)
    (hok : ∀ x ∈ tr, Benign x.1 x.2 ∧ FilledAlone x.1 x.2 ∧ StackAlone x.1 x.2)
    (hbenign : Benign c e) (hfilled : FilledAlone c e) (halone : StackAlone c e)
    (hstep : (stacked slot).Step c e c') : RoundTrip s tr c e c' := by
  have hO := overwrittenOutline_sound hfit s.blocks fun i => s.tape (tapeDev i)
  have hshares := shares hfit slot s.blocks fun i => s.tape (tapeDev i)
  obtain ⟨c₁, pend, g, hsim, hmeets⟩ := hshares.run_sim hO (fun _ _ _ _ => act_overwrite)
    (fun c₂ hc₂ => hc₂ ▸ hs.sim hfit hsize) hrun
    fun x hx => follows (hok x hx).1 (hok x hx).2.1 (hok x hx).2.2
  have hput : c.shared.state.put = fun d n => lastPut d n tr := by
    funext d n
    exact put_eq_lastPut hs hrun
  have hfollow : Threads.Follows (overwrittenOutline s.blocks fun i => s.tape (tapeDev i)) _
    (fun _ l _ => l.isLeft = true) c e := follows hbenign hfilled halone
  rcases hstep.cases with
    ⟨i, ans, β, o, k, b, x, rfl, hp, hsem, rfl⟩ | ⟨i, l, a, p, x, rfl, hp, hact, rfl⟩
  · by_cases ho : ∃ o', o = .op o'
    · obtain ⟨o, rfl⟩ := ho
      obtain ⟨⟨b', s'⟩, hdone, heq⟩ := Option.map_eq_some_iff.mp hsem
      obtain ⟨rfl, rfl⟩ := Prod.mk.inj heq
      have hallow := hfollow.2
      simp only [hp] at hallow
      have hgood := (hshares.call_step hO hsim hmeets hstep.free halone.alone hp hallow hdone).1
      by_cases hquiet : Stack.Quiet β o
      · exact .of_op hp (exact_of_quiet hquiet) (leavesBuffers_of_quiet hquiet hdone)
      · obtain ⟨hexact, hbuffers, -⟩ := hgood hquiet
        exact .of_op hp (hput ▸ hexact) hbuffers
    · have ho : ∀ o', o ≠ .op o' := fun o' he => ho ⟨o', he⟩
      exact .of_variable hp ho (leavesBuffers_variable hfit ho hsem)
  · obtain ⟨⟨p', s'⟩, hdone, heq⟩ := Option.map_eq_some_iff.mp hact
    obtain ⟨-, rfl⟩ := Prod.mk.inj heq
    cases l with
    | inl l =>
      have hgood := (hshares.act_step hO (fun _ _ _ _ => act_overwrite) hsim hmeets hstep.free hp
        hfollow.2.1 hdone).1
      exact .of_act hgood.1 hgood.2.1
    | inr q =>
      obtain ⟨-, -, rfl⟩ := Threads.scribbled_act hdone
      exact ⟨fun j ans' β' o' k' he => (by cases he), fun j l he => (by cases he),
        leavesBuffers_overwrite hfit⟩

end

/-! ## Sample runs -/

instance (i : ℤ) (s : Disks) : ∀ β (o : SupOp β), Decidable (FillsAlone i s β o)
  | _, .passeren (.mutexSemArray _) => inferInstanceAs (Decidable (_ → _ → _ → _ = _))
  | _, .waitForIo _ _ _ => inferInstanceAs
    (Decidable ((_ → _ → _ → _ → _ = _) ∧ (_ → _ → _ → _ = _)))
  | _, .passeren .swapSem | _, .passeren .masterSem | _, .passeren (.tpSem _)
  | _, .getEntryHi | _, .getSTATUS | _, .setSTATUS _ | _, .tlbclr | _, .stck | _, .stst
  | _, .verhogen _ | _, .sesv _ _ | _, .waitForClock | _, .readOld _ _ _ | _, .writeOld _ _ _ _
  | _, .writeNew _ _ _ _ | _, .readDev _ _ | _, .writeDev _ _ _ | _, .loadByte _
  | _, .storeByte _ _ | _, .loadWord _ | _, .storeWord _ _ | _, .nextFrame | _, .setNextFrame _
  | _, .swapPool _ | _, .setSwapPool _ _ | _, .pteEntryLO _ | _, .setPteEntryLO _ _
  | _, .vInsertBlocked _ _ | _, .vRemoveBlocked _ | _, .headDelaydTime | _, .insertDelay _ _
  | _, .removeDelay => inferInstanceAs (Decidable True)

instance (c : Config) (e : Event) : Decidable (Benign c e) := by
  unfold Benign
  split
  · split <;> infer_instance
  · infer_instance
  · infer_instance

instance (c : Config) (e : Event) : Decidable (FilledAlone c e) := by
  unfold FilledAlone
  split
  · split <;> infer_instance
  · infer_instance

instance (c : Config) (e : Event) : Decidable (StackAlone c e) := by
  unfold StackAlone
  refine @instDecidableAnd _ _ inferInstance ?_
  split <;> infer_instance

/-- The state before the first step. Each tape has one block, and no disk has the same words. -/
abbrev sampleDisks : Disks where
  holder _ := none
  status _ := 0
  old _ _ _ := 0
  reg _ _ := 0
  arm _ := 0
  blocks _ _ _ := 5
  tape _ := [fun _ => 7]
  ram _ := 0
  user _ _ := 0
  swapPool _ := ⟨-1, 0, 0, none⟩
  pte _ := 0
  put _ _ := none

theorem sampleDisks_initial [Support] : sampleDisks.Initial :=
  ⟨fun _ => rfl, fun _ _ => ⟨rfl, rfl⟩, fun _ _ => rfl⟩

theorem sampleSystem_fits : @BuffersFit Stack.sampleSystem := by
  let _ := Stack.sampleSystem
  exact ⟨by decide, by decide, by decide, by decide⟩

/-- Process 1 has its tape on the backing store, and reads sector 3 of a disk into the buffer; then
process 2 reads its tape, and process 1 goes on until it copies the buffer. -/
def sampleSteps (diskNo : Word) : List Event :=
  List.replicate 205 (.call 1 ready) ++ .act 1 (.inl (.call ⟨15, kUseg2Addr, diskNo, 3⟩)) ::
    List.replicate 17 (.call 1 ready) ++ List.replicate 117 (.call 2 ready) ++
      List.replicate 2 (.call 1 ready)

/-- What the sample system can do. -/
abbrev sampleThreads : Threads StackOp ℤ (Stacked ℤ Disks) Word (Except End Unit)
    (Act ⊕ Fin 1024 × Word) := @stacked Stack.sampleSystem Stack.sampleSlot

/-- Where it begins. -/
abbrev sampleConfig : Config :=
  @config Stack.sampleSystem (fun _ => 0) (fun _ => 2) sampleDisks

/-- The configuration after these steps, if they all meet a condition. -/
def sampleRun (P : Config → Event → Prop) [∀ c e, Decidable (P c e)] (es : List Event) :
    Option Config :=
  Transition.execIf (fun e c => sampleThreads.exec c e) P es sampleConfig

theorem sampleRun_run {P : Config → Event → Prop} [∀ c e, Decidable (P c e)] {es : List Event}
    {c : Config} (h : sampleRun P es = some c) :
    ∃ tr, Transition.Run (· = sampleConfig) sampleThreads.Step tr c ∧ ∀ x ∈ tr, P x.1 x.2 :=
  Transition.execIf_run (fun _ _ _ _ h => h) (.start rfl) (by simp) h

/-- The word that a program is about to read. -/
def loading {α : Type} : Prog StackOp α → Option Word
  | .call (.op (.loadWord a)) _ => some a
  | _ => none

theorem eq_of_loading {α : Type} {p : Prog StackOp α} {a : Word} (h : loading p = some a) :
    ∃ k, p = .call (.op (.loadWord a)) k := by
  unfold loading at h
  split at h
  · next k =>
    obtain rfl := Option.some.inj h
    exact ⟨k, rfl⟩
  · cases h

/-- Process 2 loads its tape while process 1 reads from disk 2. -/
theorem disk_round_trip_apart : ∃ (tr : List (Config × Event)) (c c' : Config),
    loading (c.prog 1) = some (diskBuffer 2) ∧ sampleThreads.Step c (.call 1 ready) c' ∧
      RoundTrip sampleDisks tr c (.call 1 ready) c' := by
  have hexec : ((sampleRun (fun c e => Benign c e ∧ FilledAlone c e ∧ StackAlone c e)
      (sampleSteps 2)).any fun c =>
      decide (loading (c.prog 1) = some (diskBuffer 2) ∧ Benign c (.call 1 ready) ∧
        FilledAlone c (.call 1 ready) ∧ StackAlone c (.call 1 ready) ∧
        (sampleThreads.exec c (.call 1 ready)).isSome)) = true := by
    decide +kernel
  obtain ⟨c, hc, hfacts⟩ := (Option.any_eq_true ..).mp hexec
  obtain ⟨hload, hbenign, hfilled, halone, hstep⟩ := of_decide_eq_true hfacts
  obtain ⟨c', hc'⟩ := Option.isSome_iff_exists.mp hstep
  obtain ⟨tr, hrun, hok⟩ := sampleRun_run hc
  let _ := Stack.sampleSystem
  exact ⟨tr, c, c', hload, hc', disk_round_trip sampleSystem_fits sampleDisks_initial
    (fun _ _ => (by decide : 1 ≤ 2 ^ 16)) hrun hok hbenign hfilled halone hc'⟩

/-- The buffer of disk 1 is that of the tape of process 2: the tape overwrites the sector that
process 1 has asked for before process 1 has copied it. -/
theorem tape_overwrites : ¬ ∀ (_ : Support) (slot : InitVar ↪ Fin 1024) (pc : Handler → Word)
    (fuel : ℤ → ℕ) (s : Disks) (tr : List (Config × Event)) (c c' : Config) (e : Event),
    BuffersFit → s.Initial → (∀ i, IsUser i → (s.tape (tapeDev i)).length ≤ 2 ^ 16) →
    Transition.Run (· = s.config pc fuel) (stacked slot).Step tr c →
    (∀ x ∈ tr, Benign x.1 x.2) → Benign c e → (stacked slot).Step c e c' →
    RoundTrip s tr c e c' := by
  intro h
  have hexec : ((sampleRun Benign (sampleSteps 1)).any fun c =>
      decide (loading (c.prog 1) = some (diskBuffer 1) ∧ Benign c (.call 1 ready) ∧
        c.shared.state.number 1 = 15 ∧ c.shared.state.diskNo 1 = 1 ∧
        c.shared.state.view 1 (diskBuffer 1) = 7 ∧
        c.shared.state.blocks 1 (Hardware.sectorBlock (c.shared.state.sectNo 1)) 0 = 5 ∧
        (sampleThreads.exec c (.call 1 ready)).isSome)) = true := by
    decide +kernel
  obtain ⟨c, hc, hfacts⟩ := (Option.any_eq_true ..).mp hexec
  obtain ⟨hload, hbenign, hnumber, hdisk, hview, hblock, hstep⟩ := of_decide_eq_true hfacts
  obtain ⟨c', hc'⟩ := Option.isSome_iff_exists.mp hstep
  obtain ⟨k, hk⟩ := eq_of_loading hload
  obtain ⟨tr, hrun, hok⟩ := sampleRun_run hc
  let _ := Stack.sampleSystem
  have hround := h Stack.sampleSystem Stack.sampleSlot _ _ sampleDisks tr c c' _ sampleSystem_fits
    sampleDisks_initial (fun _ _ => (by decide : 1 ≤ 2 ^ 16)) hrun hok hbenign hc'
  have hword := hround.exact 1 ready Word _ k rfl hk hnumber 0 (by rw [hdisk]; simp [wordAt])
  rw [hdisk] at hword
  exact absurd ((hview.symm.trans hword).trans hblock) (by decide)

end Disks

end Jaeos
