import Jaeos.Lib.Prog
import Mathlib.Data.List.Basic

/-!
# Traces of a program

A trace lists the operations of a run with their results, whatever these are.
An observer goes along a trace and keeps notes; `Along` says that each event of
the trace meets a condition on what was noted before it. Two contracts connect
traces with weakest preconditions: `tracked` speaks about every trace whose
results obey a law, and `possible` about some trace.

A program that may end early is a program over `Except`; `Prog.wpx` is its
weakest precondition, with a postcondition for each way to end.
-/

universe u

namespace Prog

variable {Op : Type → Type u} {α β : Type} {A G : Type}

/-! ## Traces -/

/-- An operation and its result. -/
abbrev Event (Op : Type → Type u) : Type (max 1 u) := (β : Type) × Op β × β

/-- The traces of a program, with the value it ends with. -/
inductive Trace : Prog Op α → List (Event Op) → α → Prop where
  /-- the program ends -/
  | ret (a : α) : Trace (ret a) [] a
  /-- an operation has a result, and the program goes on -/
  | call {β : Type} {o : Op β} {k : β → Prog Op α} (b : β) {tr : List (Event Op)} {a : α}
    (h : Trace (k b) tr a) : Trace (call o k) (⟨β, o, b⟩ :: tr) a

/-- What an observer has noted after a trace. -/
def notes (see : ∀ β, Op β → β → G → G) : G → List (Event Op) → G
  | g, [] => g
  | g, e :: tr => notes see (see _ e.2.1 e.2.2 g) tr

/-- Each event of a trace meets a condition on what the observer has noted before it. -/
def Along (ok : ∀ β, Op β → β → G → Prop) (see : ∀ β, Op β → β → G → G) :
    G → List (Event Op) → Prop
  | _, [] => True
  | g, e :: tr => ok _ e.2.1 e.2.2 g ∧ Along ok see (see _ e.2.1 e.2.2 g) tr

variable {law ok : ∀ β, Op β → β → G → Prop} {see : ∀ β, Op β → β → G → G}

/-- Each operation meets a condition, whatever result the law allows. -/
def tracked (law ok : ∀ β, Op β → β → G → Prop) (see : ∀ β, Op β → β → G → G) : Contract Op G :=
  fun β o Q g => ∀ b, law β o b g → ok β o b g ∧ Q b (see β o b g)

/-- Some result that the law allows. -/
def possible (law : ∀ β, Op β → β → G → Prop) (see : ∀ β, Op β → β → G → G) : Contract Op G :=
  fun β o Q g => ∃ b, law β o b g ∧ Q b (see β o b g)

theorem tracked_mono : Monotone (tracked law ok see) :=
  fun _ _ _ _ hQ h b hb => ⟨(h b hb).1, hQ _ _ (h b hb).2⟩

theorem possible_mono : Monotone (possible law see) :=
  fun _ _ _ _ hQ ⟨b, hb, h⟩ => ⟨b, hb, hQ _ _ h⟩

/-- Weaker conditions ask for less. -/
theorem tracked_weaken {ok' : ∀ β, Op β → β → G → Prop} (hok : ∀ β o b g, ok β o b g → ok' β o b g)
    {p : Prog Op α} {Q : α → G → Prop} {g : G} (h : p.wp (tracked law ok see) Q g) :
    p.wp (tracked law ok' see) Q g := by
  induction p generalizing g with
  | ret a => exact h
  | call o k ih => exact fun b hb => ⟨hok _ _ _ _ (h b hb).1, ih b (h b hb).2⟩

/-- Every trace whose results obey the law meets the conditions of the operations. -/
theorem of_tracked {p : Prog Op α} {Q : α → G → Prop} {g : G} {tr : List (Event Op)} {a : α}
    (h : p.wp (tracked law ok see) Q g) (htr : p.Trace tr a) (hlaw : Along law see g tr) :
    Along ok see g tr ∧ Q a (notes see g tr) := by
  induction htr generalizing g with
  | ret a => exact ⟨trivial, h⟩
  | call b htr ih =>
    obtain ⟨hok, hk⟩ := h b hlaw.1
    obtain ⟨hrest, hQ⟩ := ih hk hlaw.2
    exact ⟨⟨hok, hrest⟩, hQ⟩

/-- There is a trace whose results obey the law. -/
theorem exists_trace {p : Prog Op α} {Q : α → G → Prop} {g : G}
    (h : p.wp (possible law see) Q g) :
    ∃ tr a, p.Trace tr a ∧ Along law see g tr ∧ Q a (notes see g tr) := by
  induction p generalizing g with
  | ret a => exact ⟨[], a, .ret a, trivial, h⟩
  | call o k ih =>
    obtain ⟨b, hb, hk⟩ := h
    obtain ⟨tr, a, htr, hlaw, hQ⟩ := ih b hk
    exact ⟨⟨_, o, b⟩ :: tr, a, .call b htr, ⟨hb, hlaw⟩, hQ⟩

/-- If each operation has some result, a program can end with what the observer keeps. -/
theorem possible_of_keeps {I : G → Prop} (hlaw : ∀ {β} (o : Op β) g, ∃ b, law β o b g)
    (hsee : ∀ {β} (o : Op β) b g, I g → I (see β o b g)) (p : Prog Op α) {g : G} (h : I g) :
    p.wp (possible law see) (fun _ => I) g := by
  induction p generalizing g with
  | ret a => exact h
  | call o k ih =>
    obtain ⟨b, hb⟩ := hlaw o g
    exact ⟨b, hb, ih b (hsee o b g h)⟩

/-- A program ends with what the observer keeps. -/
theorem tracked_of_keeps {I : G → Prop} (hsee : ∀ {β} (o : Op β) b g, I g → I (see β o b g))
    (p : Prog Op α) {g : G} (h : I g) :
    p.wp (tracked law (fun _ _ _ _ => True) see) (fun _ => I) g := by
  induction p generalizing g with
  | ret a => exact h
  | call o k ih => exact fun b _ => ⟨trivial, ih b (hsee o b g h)⟩

/-- A law that allows everything. -/
theorem along_free {g : G} {tr : List (Event Op)} : Along (fun _ _ _ _ => True) see g tr := by
  induction tr generalizing g with
  | nil => trivial
  | cons e tr ih => exact ⟨trivial, ih⟩

/-- A condition that does not depend on the notes. -/
theorem along_const {ok : ∀ β, Op β → Prop} {g : G} {tr : List (Event Op)} :
    Along (fun β o _ _ => ok β o) see g tr ↔ ∀ e ∈ tr, ok _ e.2.1 := by
  induction tr generalizing g with
  | nil => simp [Along]
  | cons e tr ih => simp [Along, ih]

/-- The observer also notes whether each event has met a condition. -/
def strict (ok : ∀ β, Op β → β → G → Prop) (see : ∀ β, Op β → β → G → G) :
    ∀ β, Op β → β → G × Prop → G × Prop :=
  fun β o b g => (see β o b g.1, g.2 ∧ ok β o b g.1)

theorem along_strict {g : G × Prop} {tr : List (Event Op)} :
    Along (fun β o b g => law β o b g.1) (strict ok see) g tr ↔ Along law see g.1 tr := by
  induction tr generalizing g with
  | nil => simp [Along]
  | cons e tr ih => simp [Along, ih, strict]

theorem notes_strict {g : G × Prop} {tr : List (Event Op)} :
    (notes (strict ok see) g tr).2 ↔ g.2 ∧ Along ok see g.1 tr := by
  induction tr generalizing g with
  | nil => simp [notes, Along]
  | cons e tr ih => simp [notes, Along, ih, strict, and_assoc]

theorem along_append {g : G} {tr tr' : List (Event Op)} :
    Along ok see g (tr ++ tr') ↔ Along ok see g tr ∧ Along ok see (notes see g tr) tr' := by
  induction tr generalizing g with
  | nil => simp [Along, notes]
  | cons e tr ih => simp [Along, notes, ih, and_assoc]

/-! ## Programs that may end early -/

section

variable {ε : Type} {spec : Contract Op A}

/-- The abstract states from which a program ends normally in `Q`, or early in `E`. -/
def wpx (spec : Contract Op A) (m : ExceptT ε (Prog Op) α) (Q : α → A → Prop)
    (E : ε → A → Prop) (s : A) : Prop :=
  m.run.wp spec (fun r => match r with
    | .ok a => Q a
    | .error e => E e) s

variable {Q : α → A → Prop} {E : ε → A → Prop} {s : A}

@[simp] theorem wpx_pure (a : α) : wpx spec (pure a : ExceptT ε (Prog Op) α) Q E = Q a := rfl

@[simp] theorem wpx_throw (e : ε) :
    wpx spec (throw e : ExceptT ε (Prog Op) α) Q E = E e := rfl

@[simp] theorem wpx_lift (o : Op α) :
    wpx spec (ExceptT.lift (op o) : ExceptT ε (Prog Op) α) Q E = spec α o Q := rfl

@[simp] theorem wpx_bind (m : ExceptT ε (Prog Op) β) (f : β → ExceptT ε (Prog Op) α) :
    wpx spec (m >>= f) Q E = wpx spec m (fun b => wpx spec (f b) Q E) E := by
  funext s
  change (m.run >>= ExceptT.bindCont f).wp spec _ s = _
  rw [wp_bind]
  refine congrFun (congrArg (Prog.wp spec m.run) (funext fun r => ?_)) s
  cases r with
  | ok b => rfl
  | error e => rfl

@[simp] theorem wpx_ite {c : Prop} [Decidable c] (m m' : ExceptT ε (Prog Op) α) :
    wpx spec (if c then m else m') Q E s = if c then wpx spec m Q E s else wpx spec m' Q E s := by
  split <;> rfl

/-- Weaker postconditions ask for less. -/
theorem wpx_mono (hspec : Monotone spec) {m : ExceptT ε (Prog Op) α} {Q' : α → A → Prop}
    {E' : ε → A → Prop} (hQ : ∀ a s, Q a s → Q' a s) (hE : ∀ e s, E e s → E' e s)
    (h : wpx spec m Q E s) : wpx spec m Q' E' s := by
  refine wp_mono hspec (fun r s hr => ?_) h
  cases r with
  | ok a => exact hQ a s hr
  | error e => exact hE e s hr

/-- A loop over the numbers below `n`. -/
theorem wpx_forRange (hspec : Monotone spec) {f : ℕ → ExceptT ε (Prog Op) Unit}
    {I : ℕ → A → Prop} {n : ℕ}
    (hone : ∀ i s, i < n → I i s → wpx spec (f i) (fun _ => I (i + 1)) E s) (h0 : I 0 s) :
    wpx spec ((List.range n).forM f) (fun _ => I n) E s := by
  induction n with
  | zero => exact h0
  | succ n ih =>
    rw [List.range_succ, List.forM_eq_forM, List.forM_append]
    simp only [List.forM_cons, List.forM_nil, wpx_bind, wpx_pure]
    refine wpx_mono hspec (fun _ s hs => hone n s (Nat.lt_succ_self n) hs) (fun _ _ h => h) ?_
    exact ih fun i s hi => hone i s (Nat.lt_succ_of_lt hi)

/-! ## Programs built from parts -/

/-- A program is built from these operations, these ends, and these programs that do not come
back. -/
inductive Built (ops : ∀ β, Op β → Prop) (ends : ε → Prop)
    (stops : ∀ β, ExceptT ε (Prog Op) β → Prop) : ∀ {β : Type}, ExceptT ε (Prog Op) β → Prop where
  /-- it returns -/
  | ret {β : Type} (b : β) : Built ops ends stops (pure b : ExceptT ε (Prog Op) β)
  /-- it ends -/
  | fails {β : Type} {e : ε} (he : ends e) :
    Built ops ends stops (throw e : ExceptT ε (Prog Op) β)
  /-- an operation -/
  | op {β : Type} {o : Op β} (ho : ops β o) : Built ops ends stops (ExceptT.lift (Prog.op o))
  /-- a program that does not come back, at the end -/
  | last {β : Type} {m : ExceptT ε (Prog Op) β} (hm : stops β m) : Built ops ends stops m
  /-- a program that does not come back; nothing of the rest is reached -/
  | stop {β γ : Type} {m : ExceptT ε (Prog Op) β} {f : β → ExceptT ε (Prog Op) γ}
    (hm : stops β m) : Built ops ends stops (m >>= f)
  /-- one program after the other -/
  | andThen {β γ : Type} {m : ExceptT ε (Prog Op) β} {f : β → ExceptT ε (Prog Op) γ}
    (hm : Built ops ends stops m) (hf : ∀ b, Built ops ends stops (f b)) :
    Built ops ends stops (m >>= f)

namespace Built

variable {ops : ∀ β, Op β → Prop} {ends : ε → Prop} {stops : ∀ β, ExceptT ε (Prog Op) β → Prop}
  {β γ : Type}

/-- An operation, and what comes after it. -/
theorem step {o : Op β} {f : β → ExceptT ε (Prog Op) γ} (ho : ops β o)
    (hf : ∀ b, Built ops ends stops (f b)) :
    Built ops ends stops (ExceptT.lift (Prog.op o) >>= f) := (op ho).andThen hf

/-- What the parts of a program keep, the program keeps. -/
theorem wpx {spec : Contract Op A} {I : A → Prop} {E : ε → A → Prop} (hspec : Monotone spec)
    (hops : ∀ β o s, ops β o → I s → spec β o (fun _ => I) s)
    (hends : ∀ e s, ends e → I s → E e s)
    (hstops : ∀ β m s, stops β m → I s → Prog.wpx spec m (fun _ _ => False) E s)
    {m : ExceptT ε (Prog Op) β} (h : Built ops ends stops m) {s : A} (hs : I s) :
    Prog.wpx spec m (fun _ => I) E s := by
  induction h generalizing s with
  | ret b => exact hs
  | fails he => exact hends _ s he hs
  | op ho => exact hops _ _ s ho hs
  | last hm => exact wpx_mono hspec (fun _ _ h => h.elim) (fun _ _ h => h) (hstops _ _ s hm hs)
  | stop hm =>
    rw [wpx_bind]
    exact wpx_mono hspec (fun _ _ h => h.elim) (fun _ _ h => h) (hstops _ _ s hm hs)
  | andThen _ _ ihm ihf =>
    rw [wpx_bind]
    exact wpx_mono hspec (fun b _ hb => ihf b hb) (fun _ _ h => h) (ihm hs)

end Built

/-! ## Programs that can return -/

variable {m : ExceptT ε (Prog Op) α}

/-- Whatever was noted before, there are results with which the program returns. -/
def Returns (law : ∀ β, Op β → β → G → Prop) (see : ∀ β, Op β → β → G → G)
    (m : ExceptT ε (Prog Op) α) : Prop :=
  ∀ g, wpx (possible law see) m (fun _ _ => True) (fun _ _ => False) g

namespace Returns

theorem ret (a : α) : Returns law see (pure a : ExceptT ε (Prog Op) α) := fun _ => trivial

theorem lift {o : Op α} (h : ∀ g, ∃ b, law α o b g) :
    Returns law see (ExceptT.lift (op o) : ExceptT ε (Prog Op) α) := fun g => by
  obtain ⟨b, hb⟩ := h g
  exact ⟨b, hb, trivial⟩

theorem seq {f : α → ExceptT ε (Prog Op) β} (hm : Returns law see m)
    (hf : ∀ a, Returns law see (f a)) : Returns law see (m >>= f) := fun g => by
  rw [wpx_bind]
  exact wpx_mono possible_mono (fun a g _ => hf a g) (fun _ _ h => h) (hm g)

/-- Go on after a program that can return. -/
theorem andThen {f : α → ExceptT ε (Prog Op) β} {Q : β → G → Prop} {E : ε → G → Prop}
    (hm : Returns law see m) (hf : ∀ a g, wpx (possible law see) (f a) Q E g) (g : G) :
    wpx (possible law see) (m >>= f) Q E g := by
  rw [wpx_bind]
  exact wpx_mono possible_mono (fun a g _ => hf a g) (fun _ _ h => h.elim) (hm g)

/-- There is a trace of a program that can return. -/
theorem trace (h : Returns law see m) (g : G) :
    ∃ tr a, m.run.Trace tr (.ok a) ∧ Along law see g tr := by
  obtain ⟨tr, r, htr, hlaw, hr⟩ := exists_trace (h g)
  cases r with
  | ok a => exact ⟨tr, a, htr, hlaw⟩
  | error e => exact hr.elim

end Returns

end

end Prog
