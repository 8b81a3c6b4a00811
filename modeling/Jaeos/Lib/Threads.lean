import Jaeos.Lib.Trace
import Jaeos.Lib.Transition
import Mathlib.Logic.Function.Basic

/-!
# Threads that share a state

Each thread runs a program, operation by operation, and a thread whose program has
ended may be given a new one. The thread that runs keeps the processor until its next
operation is one before which it yields; then another may go on.

`Outline` is what a proof about all interleavings fixes: an invariant that holds whenever
control may change hands, what each thread relies on from the others, and what a thread
promises when its program ends. It turns the proof into one triple for each program
(`Outline.Triple`), and `Outline.Sound.step_good` draws the conclusion for all runs.
-/

universe u

/-- Threads `ι` with programs over `Op` that end in `α`, which share a state `σ`. The environment
gives an answer in `ε` to each operation, and what a thread does between its programs has a label
in `L`. -/
structure Threads (Op : Type → Type u) (ι σ ε α L : Type) where
  /-- what an operation of a thread does -/
  sem : ι → ε → ∀ β, Op β → StateT σ Option β
  /-- the thread yields before this operation -/
  yields : ι → ∀ β, Op β → σ → Bool
  /-- what a thread does whose program has ended, and the program it runs next -/
  act : ι → L → α → σ → Option (Prog Op α × σ)

namespace Threads

/-- The shared state, the rest of each program, and the thread that ran last. -/
structure Config (Op : Type → Type u) (ι σ α : Type) where
  /-- the shared state -/
  shared : σ
  /-- what each thread has yet to do -/
  prog : ι → Prog Op α
  /-- the thread that ran last -/
  cur : Option ι

/-- A step of a thread. -/
inductive Event (ι ε L : Type) where
  /-- it performs its next operation -/
  | call (i : ι) (e : ε)
  /-- its program has ended, and it goes on -/
  | act (i : ι) (l : L)

/-- The thread of a step. -/
def Event.thread {ι ε L : Type} : Event ι ε L → ι
  | call i _ => i
  | act i _ => i

variable {Op : Type → Type u} {ι σ ε α L : Type} (T : Threads Op ι σ ε α L)

/-- The thread with this program yields: it has ended, or yields before its next operation. -/
def parked (i : ι) (s : σ) : Prog Op α → Bool
  | .ret _ => true
  | .call o _ => T.yields i _ o s

/-! ## Outlines of proofs -/

/-- What a proof about all interleavings fixes. It may keep a record `G` beside the state. -/
structure Outline (T : Threads Op ι σ ε α L) (G : Type) where
  /-- what holds whenever control may change hands -/
  inv : σ × G → Prop
  /-- what the other threads may do while a thread has yielded -/
  rely : ι → σ × G → σ × G → Prop
  /-- what each operation of a thread does -/
  good : ι → ∀ β, Op β → σ → σ → Prop
  /-- what each step of a thread between its programs does -/
  goodAct : ι → L → σ → σ → Prop
  /-- which operations with which answers are followed -/
  allow : ι → ε → ∀ β, Op β → σ → Prop
  /-- what threads are followed doing between their programs -/
  allowAct : ι → L → σ → Prop
  /-- what holds when the program of a thread has ended -/
  done : ι → α → σ × G → Prop

namespace Outline

section

variable {T} {G : Type} (O : Outline T G)

/-- An operation of a thread: the invariant holds if it yields before it; then, if the operation
is followed, it is good, the others can rely on it, and the rest of the program goes on. -/
def spec (i : ι) : Prog.Contract Op (σ × G) := fun β o Q x =>
  (T.yields i β o x.1 = true → O.inv x) ∧
  ∀ y, (y = x ∨ T.yields i β o x.1 = true ∧ O.rely i x y ∧ O.inv y) →
    ∀ ans b s', O.allow i ans β o y.1 → (T.sem i ans β o).run y.1 = some (b, s') →
      O.good i β o y.1 s' ∧ ∃ g', (∀ j, j ≠ i → O.rely j y (s', g')) ∧ Q b (s', g')

/-- What holds at the end of a program. -/
def post (i : ι) : α → σ × G → Prop := fun a x => O.inv x ∧ O.done i a x

theorem spec_mono (i : ι) : Prog.Monotone (O.spec i) := by
  intro β o Q Q' x hQ h
  refine ⟨h.1, fun y hy ans b s' hallow hsem => ?_⟩
  obtain ⟨hgood, g', hrely, hq⟩ := h.2 y hy ans b s' hallow hsem
  exact ⟨hgood, g', hrely, hQ _ _ hq⟩

variable {O}

theorem inv_of_parked {i : ι} {p : Prog Op α} {x : σ × G} (h : p.wp (O.spec i) (O.post i) x)
    (hp : T.parked i x.1 p = true) : O.inv x := by
  cases p with
  | ret a => exact h.1
  | call o k => exact h.1 hp

end

end Outline

/-! ## Steps -/

variable [DecidableEq ι]

/-- The thread may go on: it ran last, or the one that did yields. -/
def free (c : Config Op ι σ α) (i : ι) : Bool :=
  match c.cur with
  | none => true
  | some j => j = i || T.parked j c.shared (c.prog j)

namespace Config

variable (c : Config Op ι σ α) (i : ι) (p : Prog Op α) (s' : σ)

/-- A thread has made a step, and has this program left. -/
def next : Config Op ι σ α := ⟨s', Function.update c.prog i p, some i⟩

@[simp] theorem next_shared : (c.next i p s').shared = s' := rfl

@[simp] theorem next_prog_self : (c.next i p s').prog i = p := Function.update_self ..

variable {i}

theorem next_prog_of_ne {j : ι} (hj : j ≠ i) : (c.next i p s').prog j = c.prog j :=
  Function.update_of_ne hj ..

end Config

/-- The state after a step. -/
def exec (c : Config Op ι σ α) (e : Event ι ε L) : Option (Config Op ι σ α) :=
  if T.free c e.thread then
    match e with
    | .call i e =>
      match c.prog i with
      | .ret _ => none
      | .call o k => ((T.sem i e _ o).run c.shared).map fun r => c.next i (k r.1) r.2
    | .act i l =>
      match c.prog i with
      | .ret a => (T.act i l a c.shared).map fun r => c.next i r.1 r.2
      | .call _ _ => none
  else none

/-- The step `e` leads from `c` to `c'`. -/
def Step (c : Config Op ι σ α) (e : Event ι ε L) (c' : Config Op ι σ α) : Prop :=
  T.exec c e = some c'

variable {T} {c c' : Config Op ι σ α} {e : Event ι ε L}

theorem Step.free (h : T.Step c e c') : T.free c e.thread = true := by
  unfold Step exec at h
  split at h
  · assumption
  · cases h

/-- What a step does. -/
theorem Step.cases (h : T.Step c e c') :
    (∃ (i : ι) (ans : ε) (β : Type) (o : Op β) (k : β → Prog Op α) (b : β) (s' : σ),
      e = .call i ans ∧ c.prog i = .call o k ∧ (T.sem i ans β o).run c.shared = some (b, s') ∧
      c' = c.next i (k b) s') ∨
    ∃ (i : ι) (l : L) (a : α) (p : Prog Op α) (s' : σ),
      e = .act i l ∧ c.prog i = .ret a ∧ T.act i l a c.shared = some (p, s') ∧
      c' = c.next i p s' := by
  have hfree := h.free
  unfold Step exec at h
  rw [if_pos hfree] at h
  cases e with
  | call i ans =>
    cases hp : c.prog i with
    | ret a => simp [hp] at h
    | call o k =>
      simp only [hp, Option.map_eq_some_iff] at h
      obtain ⟨⟨b, s'⟩, hsem, rfl⟩ := h
      exact .inl ⟨i, ans, _, o, k, b, s', rfl, hp, hsem, rfl⟩
  | act i l =>
    cases hp : c.prog i with
    | call o k => simp [hp] at h
    | ret a =>
      simp only [hp, Option.map_eq_some_iff] at h
      obtain ⟨⟨p, s'⟩, hact, rfl⟩ := h
      exact .inr ⟨i, l, a, p, s', rfl, hp, hact, rfl⟩

/-! ## Proofs about all runs -/

namespace Outline

variable {G : Type} (O : Outline T G)

omit [DecidableEq ι] in
/-- The step is one of those that are followed. -/
def Allowed (c : Config Op ι σ α) : Event ι ε L → Prop
  | .call i ans =>
    match c.prog i with
    | .ret _ => True
    | .call o _ => O.allow i ans _ o c.shared
  | .act i l => O.allowAct i l c.shared

/-- The step does what a step of its kind does. -/
def Good (c : Config Op ι σ α) (s' : σ) : Event ι ε L → Prop
  | .call i _ =>
    match c.prog i with
    | .ret _ => True
    | .call o _ => O.good i _ o c.shared s'
  | .act i l => O.goodAct i l c.shared s'

/-- The outline is a proof. -/
structure Sound : Prop where
  /-- nothing may happen -/
  refl : ∀ i x, O.rely i x x
  /-- the others may take many steps -/
  trans : ∀ i x y z, O.rely i x y → O.rely i y z → O.rely i x z
  /-- what a thread has promised is kept -/
  done : ∀ i a x y, O.done i a x → O.rely i x y → O.inv y → O.done i a y
  /-- between its programs a thread keeps its promises, and its next program does -/
  act : ∀ i l a x p s', O.inv x → O.done i a x → O.allowAct i l x.1 →
    T.act i l a x.1 = some (p, s') →
    O.goodAct i l x.1 s' ∧ ∃ g', (∀ j, j ≠ i → O.rely j x (s', g')) ∧
      p.wp (O.spec i) (O.post i) (s', g')

/-- A thread that does not run has yielded, and the others have kept what it relies on. -/
def Waits (c : Config Op ι σ α) (g : G) (j : ι) : Prop :=
  ∃ x, T.parked j x.1 (c.prog j) = true ∧ (c.prog j).wp (O.spec j) (O.post j) x ∧
    O.rely j x (c.shared, g)

/-- The proof has come as far as the run has. -/
structure Meets (c : Config Op ι σ α) (g : G) : Prop where
  /-- before the first step -/
  start : c.cur = none → O.inv (c.shared, g)
  /-- the thread that ran last -/
  running : ∀ i, c.cur = some i → (c.prog i).wp (O.spec i) (O.post i) (c.shared, g)
  /-- the other threads -/
  waits : ∀ j, c.cur ≠ some j → O.Waits c g j

variable {O} {g : G}

namespace Meets

/-- When another thread goes on, the invariant holds. -/
theorem inv {i : ι} (h : O.Meets c g) (hfree : T.free c i = true) (hi : c.cur ≠ some i) :
    O.inv (c.shared, g) := by
  cases hcur : c.cur with
  | none => exact h.start hcur
  | some j =>
    have hj : j ≠ i := fun he => hi (he ▸ hcur)
    rw [free, hcur] at hfree
    simp only [hj, decide_false, Bool.false_or] at hfree
    exact inv_of_parked (h.running j hcur) hfree

/-- After a step of a thread, the others wait. -/
theorem others {i : ι} {s' : σ} {g' : G} {p : Prog Op α} (hO : O.Sound) (h : O.Meets c g)
    (hfree : T.free c i = true) (hrely : ∀ j, j ≠ i → O.rely j (c.shared, g) (s', g')) {j : ι}
    (hj : j ≠ i) : O.Waits (c.next i p s') g' j := by
  have hprog : (c.next i p s').prog j = c.prog j := c.next_prog_of_ne p s' hj
  have hwaits : O.Waits c g j ∨ T.parked j c.shared (c.prog j) = true ∧
      (c.prog j).wp (O.spec j) (O.post j) (c.shared, g) := by
    by_cases hcur : c.cur = some j
    · refine .inr ⟨?_, h.running j hcur⟩
      rw [free, hcur] at hfree
      simpa [hj] using hfree
    · exact .inl (h.waits j hcur)
  rcases hwaits with ⟨x, hpark, hwp, hx⟩ | ⟨hpark, hwp⟩
  · exact ⟨x, hprog ▸ hpark, hprog ▸ hwp, hO.trans j _ _ _ hx (hrely j hj)⟩
  · exact ⟨_, hprog ▸ hpark, hprog ▸ hwp, hrely j hj⟩

/-- The thread that goes on has kept its promises, if it had ended. -/
theorem ended {i : ι} {a : α} (hO : O.Sound) (h : O.Meets c g) (hfree : T.free c i = true)
    (hp : c.prog i = .ret a) : O.inv (c.shared, g) ∧ O.done i a (c.shared, g) := by
  by_cases hcur : c.cur = some i
  · have hwp := h.running i hcur
    rw [hp] at hwp
    exact hwp
  · have hinv := h.inv hfree hcur
    obtain ⟨x, -, hwp, hx⟩ := h.waits i hcur
    rw [hp] at hwp
    exact ⟨hinv, hO.done i a _ _ hwp.2 hx hinv⟩

/-- One step: it is good, and the proof goes on. -/
theorem step (hO : O.Sound) (h : O.Meets c g) (hok : O.Allowed c e) (hstep : T.Step c e c') :
    O.Good c c'.shared e ∧ ∃ g', O.Meets c' g' := by
  have hfree := hstep.free
  rcases hstep.cases with
    ⟨i, ans, β, o, k, b, s', rfl, hp, hsem, rfl⟩ | ⟨i, l, a, p, s', rfl, hp, hact, rfl⟩
  · have hallow : O.allow i ans β o c.shared := by
      rw [Allowed, hp] at hok
      exact hok
    -- the thread goes on from its own state, or from what the others have made of it
    have hgo : O.good i β o c.shared s' ∧ ∃ g', (∀ j, j ≠ i → O.rely j (c.shared, g) (s', g')) ∧
        (k b).wp (O.spec i) (O.post i) (s', g') := by
      by_cases hcur : c.cur = some i
      · have hwp := h.running i hcur
        rw [hp] at hwp
        exact hwp.2 _ (.inl rfl) ans b s' hallow hsem
      · obtain ⟨x, hpark, hwp, hx⟩ := h.waits i hcur
        rw [hp] at hwp hpark
        exact hwp.2 _ (.inr ⟨hpark, hx, h.inv hfree hcur⟩) ans b s' hallow hsem
    obtain ⟨hgood, g', hrely, hwp⟩ := hgo
    refine ⟨?_, g', fun hn => (by cases hn), fun j hj => ?_, fun j hj => ?_⟩
    · rw [Good, hp]
      exact hgood
    · obtain rfl := Option.some.inj hj
      simpa using hwp
    · exact h.others hO hfree hrely fun he => hj (he ▸ rfl)
  · obtain ⟨hinv, hdone⟩ := h.ended hO hfree hp
    obtain ⟨hgood, g', hrely, hwp⟩ := hO.act i l a _ p s' hinv hdone hok hact
    refine ⟨hgood, g', fun hn => (by cases hn), fun j hj => ?_, fun j hj => ?_⟩
    · obtain rfl := Option.some.inj hj
      simpa using hwp
    · exact h.others hO hfree hrely fun he => hj (he ▸ rfl)

end Meets

/-- The proof begins with the threads in front of their programs. -/
structure Begins (O : T.Outline G) (c : Config Op ι σ α) (g : G) : Prop where
  /-- nothing has run -/
  cur : c.cur = none
  /-- the invariant holds -/
  inv : O.inv (c.shared, g)
  /-- each thread may be interrupted -/
  parked : ∀ i, T.parked i c.shared (c.prog i) = true
  /-- each program keeps its promises -/
  wp : ∀ i, (c.prog i).wp (O.spec i) (O.post i) (c.shared, g)

namespace Sound

variable {init : Config Op ι σ α → Prop} {tr : List (Config Op ι σ α × Event ι ε L)}

omit [DecidableEq ι] in
theorem begins (hO : O.Sound) (h : O.Begins c g) : O.Meets c g where
  start _ := h.inv
  running i hi := absurd (h.cur.symm.trans hi) (by simp)
  waits j _ := ⟨(c.shared, g), h.parked j, h.wp j, hO.refl j _⟩

/-- The proof follows every run whose steps are followed. -/
theorem run_meets (hO : O.Sound) (hinit : ∀ c, init c → ∃ g, O.Begins c g)
    (hrun : Transition.Run init T.Step tr c) (hok : ∀ x ∈ tr, O.Allowed x.1 x.2) :
    ∃ g, O.Meets c g := by
  refine hrun.invariant (I := fun c => ∃ g, O.Meets c g) (G := O.Allowed) ?_ ?_ hok
  · intro c hc
    obtain ⟨g, hg⟩ := hinit c hc
    exact ⟨g, hO.begins hg⟩
  · rintro c e c' ⟨g, hg⟩ he hstep
    exact (hg.step hO he hstep).2

/-- Every step of such a run is good. -/
theorem step_good (hO : O.Sound) (hinit : ∀ c, init c → ∃ g, O.Begins c g)
    (hrun : Transition.Run init T.Step tr c) (hok : ∀ x ∈ tr, O.Allowed x.1 x.2)
    (he : O.Allowed c e) (hstep : T.Step c e c') : O.Good c c'.shared e := by
  obtain ⟨g, hg⟩ := hO.run_meets hinit hrun hok
  exact (hg.step hO he hstep).1

end Sound

end Outline

end Threads
