import Mathlib.Logic.Basic

/-!
# Programs over operations

`Prog Op α` is a program that calls operations of the signature `Op` and ends
with a value of `α`. It is run by giving each operation a meaning on a state
(`Prog.run`), and reasoned about by giving each operation a contract on an
abstract state (`Prog.wp`, a weakest precondition). The two are connected once,
for every program: when the meaning of each operation meets its contract, so
does the run of every program, either as total correctness (`Prog.run_of_wp`,
the run has a result) or as partial correctness (`Prog.of_run`, if the run has a
result).
-/

universe u

/-- A program that calls operations of `Op`. -/
inductive Prog (Op : Type → Type u) (α : Type) : Type (max 1 u) where
  /-- end with a value -/
  | ret (a : α)
  /-- call an operation and go on with its result -/
  | call {β : Type} (o : Op β) (k : β → Prog Op α)

namespace Prog

variable {Op : Type → Type u} {α β : Type} {σ A : Type}

/-- One program after the other. -/
def bind : Prog Op α → (α → Prog Op β) → Prog Op β
  | ret a, f => f a
  | call o k, f => call o fun b => (k b).bind f

instance : Monad (Prog Op) where
  pure := ret
  bind := bind

/-- A single operation. -/
def op (o : Op α) : Prog Op α := call o ret

@[simp] theorem bind_eq (p : Prog Op α) (f : α → Prog Op β) : p.bind f = p >>= f := rfl

@[simp] theorem pure_eq (a : α) : (ret a : Prog Op α) = pure a := rfl

instance : LawfulMonad (Prog Op) := LawfulMonad.mk' _
  (fun p => by
    induction p with
    | ret a => rfl
    | call o k ih => exact congrArg (call o) (funext ih))
  (fun _ _ => rfl)
  (fun p f g => by
    induction p with
    | ret a => rfl
    | call o k ih => exact congrArg (call o) (funext ih))

/-- The value of a program that has ended. -/
def ended : Prog Op α → Option α
  | ret a => some a
  | call _ _ => none

theorem ended_eq_some {p : Prog Op α} {a : α} : p.ended = some a ↔ p = ret a := by
  cases p with
  | ret b => exact ⟨fun h => congrArg ret (Option.some.inj h), fun h => congrArg some (ret.inj h)⟩
  | call o k => exact ⟨nofun, nofun⟩

/-- Run a program by the meaning of its operations. -/
def run {m : Type → Type} [Monad m] (sem : ∀ β, Op β → m β) : Prog Op α → m α
  | ret a => pure a
  | call o k => sem _ o >>= fun b => (k b).run sem

/-- A contract for each operation: the abstract states from which it ends in a result and a
state that satisfy `Q`. -/
abbrev Contract (Op : Type → Type u) (A : Type) := ∀ β : Type, Op β → (β → A → Prop) → A → Prop

/-- The abstract states from which a program ends in a result and a state that satisfy `Q`. -/
def wp (spec : Contract Op A) : Prog Op α → (α → A → Prop) → A → Prop
  | ret a, Q => Q a
  | call o k, Q => spec _ o fun b => (k b).wp spec Q

variable {spec : Contract Op A}

/-! ## The rules of `wp` -/

@[simp] theorem wp_pure (a : α) (Q : α → A → Prop) (s : A) :
    (pure a : Prog Op α).wp spec Q s = Q a s := rfl

@[simp] theorem wp_op (o : Op α) (Q : α → A → Prop) (s : A) :
    (op o).wp spec Q s = spec α o Q s := rfl

@[simp] theorem wp_bind (p : Prog Op α) (f : α → Prog Op β) (Q : β → A → Prop) (s : A) :
    (p >>= f).wp spec Q s = p.wp spec (fun a => (f a).wp spec Q) s := by
  have hall : ∀ p : Prog Op α, (p >>= f).wp spec Q = p.wp spec fun a => (f a).wp spec Q := by
    intro p
    induction p with
    | ret a => rfl
    | call o k ih =>
      change spec _ o (fun b => (k b >>= f).wp spec Q) = spec _ o fun b => (k b).wp spec _
      simp only [ih]
  rw [hall]

@[simp] theorem wp_map (p : Prog Op α) (f : α → β) (Q : β → A → Prop) (s : A) :
    (f <$> p).wp spec Q s = p.wp spec (fun a => Q (f a)) s := wp_bind p (fun a => pure (f a)) Q s

@[simp] theorem wp_ite {c : Prop} [Decidable c] (p q : Prog Op α) (Q : α → A → Prop) (s : A) :
    (if c then p else q).wp spec Q s = if c then p.wp spec Q s else q.wp spec Q s := by
  split <;> rfl

/-- A contract is monotone when a weaker postcondition asks for less. -/
def Monotone (spec : Contract Op A) : Prop :=
  ∀ {β : Type} (o : Op β) {Q Q' : β → A → Prop} {s : A},
    (∀ b s, Q b s → Q' b s) → spec β o Q s → spec β o Q' s

/-- A weaker postcondition asks for less. -/
theorem wp_mono (hspec : Monotone spec) {p : Prog Op α} {Q Q' : α → A → Prop} {s : A}
    (hQ : ∀ a s, Q a s → Q' a s) (h : p.wp spec Q s) : p.wp spec Q' s := by
  induction p generalizing s with
  | ret a => exact hQ a s h
  | call o k ih => exact hspec o (fun b s hb => ih b hb) h

/-! ## Runs meet their contracts -/

variable {sem : ∀ β, Op β → StateT σ Option β} {R : σ → A → Prop}

@[simp] theorem run_pure (a : α) : (pure a : Prog Op α).run sem = pure a := rfl

@[simp] theorem run_op (o : Op α) : (op o).run sem = sem α o := by
  funext s
  exact Option.bind_fun_some (sem α o s)

theorem run_bind (p : Prog Op α) (f : α → Prog Op β) :
    (p >>= f).run sem = p.run sem >>= fun a => (f a).run sem := by
  induction p with
  | ret a => exact (pure_bind a fun a => (f a).run sem).symm
  | call o k ih =>
    change (sem _ o >>= fun b => (k b >>= f).run sem) = (sem _ o >>= fun b => (k b).run sem) >>= _
    simp only [ih, bind_assoc]

/-- Total correctness: if each operation meets its contract, then from a state that satisfies
the weakest precondition the run has a result, and it satisfies the postcondition. -/
theorem run_of_wp
    (hop : ∀ {β : Type} (o : Op β) {Q : β → A → Prop} {s : σ} {a : A}, R s a → spec β o Q a →
      ∃ b s' a', (sem β o).run s = some (b, s') ∧ R s' a' ∧ Q b a')
    {p : Prog Op α} {Q : α → A → Prop} {s : σ} {a : A} (hs : R s a) (h : p.wp spec Q a) :
    ∃ b s' a', (p.run sem).run s = some (b, s') ∧ R s' a' ∧ Q b a' := by
  induction p generalizing s a with
  | ret b => exact ⟨b, s, a, rfl, hs, h⟩
  | call o k ih =>
    obtain ⟨b, s₁, a₁, hrun, hs₁, hk⟩ := hop o hs h
    obtain ⟨c, s₂, a₂, hrest, hs₂, hQ⟩ := ih b hs₁ hk
    refine ⟨c, s₂, a₂, ?_, hs₂, hQ⟩
    change (sem _ o >>= fun b => (k b).run sem).run s = _
    rw [StateT.run_bind, hrun]
    exact hrest

/-- Partial correctness: if each result of an operation meets its contract, then so does each
result of a program. -/
theorem of_run
    (hop : ∀ {β : Type} (o : Op β) {Q : β → A → Prop} {s : σ} {a : A}, R s a → spec β o Q a →
      ∀ b s', (sem β o).run s = some (b, s') → ∃ a', R s' a' ∧ Q b a')
    {p : Prog Op α} {Q : α → A → Prop} {s s' : σ} {a : A} {b : α} (hs : R s a)
    (h : p.wp spec Q a) (hrun : (p.run sem).run s = some (b, s')) : ∃ a', R s' a' ∧ Q b a' := by
  induction p generalizing s a with
  | ret c =>
    obtain ⟨rfl, rfl⟩ := Prod.mk.inj (Option.some.inj hrun)
    exact ⟨a, hs, h⟩
  | call o k ih =>
    have hcall : (sem _ o >>= fun b => (k b).run sem).run s = some (b, s') := hrun
    rw [StateT.run_bind] at hcall
    obtain ⟨⟨c, s₁⟩, hc, hrest⟩ := Option.bind_eq_some_iff.mp hcall
    obtain ⟨a₁, hs₁, hk⟩ := hop o hs h c s₁ hc
    exact ih c hs₁ hk hrest

/-! ## Programs that call some operations only -/

/-- Each operation that the program can call satisfies `P`. -/
inductive Only (P : ∀ β, Op β → Prop) : Prog Op α → Prop where
  /-- the program ends -/
  | ret (a : α) : Only P (ret a)
  /-- an operation, and the rest of the program -/
  | call {β : Type} {o : Op β} {k : β → Prog Op α} (ho : P β o) (hk : ∀ b, Only P (k b)) :
    Only P (call o k)

namespace Only

variable {P : ∀ β, Op β → Prop} {p : Prog Op α}

theorem pure (a : α) : Only P (pure a : Prog Op α) := .ret a

theorem op {o : Op α} (ho : P α o) : Only P (op o) := .call ho .ret

theorem bind {f : α → Prog Op β} (hp : p.Only P) (hf : ∀ a, (f a).Only P) :
    (p >>= f).Only P := by
  induction hp with
  | ret a => exact hf a
  | call ho _ ih => exact .call ho ih

theorem ite {c : Prop} [Decidable c] {q : Prog Op α} (hp : p.Only P) (hq : q.Only P) :
    (if c then p else q).Only P := by
  split
  · exact hp
  · exact hq

/-- Operations that satisfy a stronger condition. -/
theorem mono {P' : ∀ β, Op β → Prop} (hP : ∀ {β : Type} (o : Op β), P β o → P' β o)
    (hp : p.Only P) : p.Only P' := by
  induction hp with
  | ret a => exact .ret a
  | call ho _ ih => exact .call (hP _ ho) ih

/-- What each operation that the program calls keeps, the program keeps. -/
theorem wp_and {J : A → Prop} (hspec : Monotone spec)
    (hop : ∀ {β : Type} (o : Op β) {Q : β → A → Prop} {s : A}, P β o → J s → spec β o Q s →
      spec β o (fun b s' => Q b s' ∧ J s') s)
    {Q : α → A → Prop} {s : A} (hp : p.Only P) (hs : J s) (h : p.wp spec Q s) :
    p.wp spec (fun a s' => Q a s' ∧ J s') s := by
  induction hp generalizing s with
  | ret a => exact ⟨h, hs⟩
  | call ho _ ih =>
    refine hspec _ ?_ (hop _ ho hs h)
    intro b s' hb
    exact ih b hb.2 hb.1

/-- Total correctness, when only the operations that the program calls meet their contracts. -/
theorem run_of_wp
    (hop : ∀ {β : Type} (o : Op β) {Q : β → A → Prop} {s : σ} {a : A}, P β o → R s a →
      spec β o Q a → ∃ b s' a', (sem β o).run s = some (b, s') ∧ R s' a' ∧ Q b a')
    {Q : α → A → Prop} {s : σ} {a : A} (hp : p.Only P) (hs : R s a) (h : p.wp spec Q a) :
    ∃ b s' a', (p.run sem).run s = some (b, s') ∧ R s' a' ∧ Q b a' := by
  induction hp generalizing s a with
  | ret b => exact ⟨b, s, a, rfl, hs, h⟩
  | @call β o k ho _ ih =>
    obtain ⟨b, s₁, a₁, hrun, hs₁, hk⟩ := hop o ho hs h
    obtain ⟨c, s₂, a₂, hrest, hs₂, hQ⟩ := ih b hs₁ hk
    refine ⟨c, s₂, a₂, ?_, hs₂, hQ⟩
    change (sem _ o >>= fun b => (k b).run sem).run s = _
    rw [StateT.run_bind, hrun]
    exact hrest

end Only

/-! ## The contract of the operations themselves -/

/-- What each operation does, if it has a result. -/
def liberal (sem : ∀ β, Op β → StateT σ Option β) : Contract Op σ :=
  fun β o Q s => ∀ b s', (sem β o).run s = some (b, s') → Q b s'

/-- A program does what its operations do. -/
theorem of_liberal {p : Prog Op α} {Q : α → σ → Prop} {s s' : σ} {b : α}
    (h : p.wp (liberal sem) Q s) (hrun : (p.run sem).run s = some (b, s')) : Q b s' := by
  obtain ⟨a', rfl, hQ⟩ :=
    of_run (R := Eq) (fun o _ _ _ hs ho b s' hrun => ⟨s', rfl, ho b s' (hs ▸ hrun)⟩)
    rfl h hrun
  exact hQ

/-! ## Observing a run -/

variable {G : Type} {see : ∀ β, Op β → β → G → G}

/-- What an observer who sees each operation with its result has noted after a run. -/
def observe (sem : ∀ β, Op β → StateT σ Option β) (see : ∀ β, Op β → β → G → G) :
    Prog Op α → σ → G → G
  | ret _, _, g => g
  | call o k, s, g =>
    match (sem _ o).run s with
    | none => g
    | some (b, s') => (k b).observe sem see s' (see _ o b g)

/-- What each operation does, and what the observer notes. -/
def watched (sem : ∀ β, Op β → StateT σ Option β) (see : ∀ β, Op β → β → G → G) :
    Contract Op (σ × G) :=
  fun β o Q s => liberal sem β o (fun b s' => Q b (s', see β o b s.2)) s.1

theorem watched_mono : Monotone (watched sem see) :=
  fun _ _ _ _ hQ h b s' hrun => hQ b _ (h b s' hrun)

/-- A program does what its operations do, and the observer has noted what he has seen. -/
theorem of_watched {p : Prog Op α} {Q : α → σ × G → Prop} {s s' : σ} {g : G} {b : α}
    (h : p.wp (watched sem see) Q (s, g)) (hrun : (p.run sem).run s = some (b, s')) :
    Q b (s', p.observe sem see s g) := by
  induction p generalizing s g with
  | ret c =>
    obtain ⟨rfl, rfl⟩ := Prod.mk.inj (Option.some.inj hrun)
    exact h
  | call o k ih =>
    have hcall : (sem _ o >>= fun b => (k b).run sem).run s = some (b, s') := hrun
    rw [StateT.run_bind] at hcall
    obtain ⟨⟨c, s₁⟩, hc, hrest⟩ := Option.bind_eq_some_iff.mp hcall
    have hk := ih c (h c s₁ hc) hrest
    rw [observe, hc]
    exact hk

/-- What each operation does, which has a result, and what the observer notes. -/
def certain (sem : ∀ β, Op β → StateT σ Option β) (see : ∀ β, Op β → β → G → G) :
    Contract Op (σ × G) :=
  fun β o Q s => ∃ b s', (sem β o).run s.1 = some (b, s') ∧ Q b (s', see β o b s.2)

theorem certain_mono : Monotone (certain sem see) :=
  fun _ _ _ _ hQ ⟨b, s', hrun, h⟩ => ⟨b, s', hrun, hQ _ _ h⟩

/-- The run of a program has a result, and the observer has noted what he has seen. -/
theorem run_of_certain {p : Prog Op α} {Q : α → σ × G → Prop} {s : σ} {g : G}
    (h : p.wp (certain sem see) Q (s, g)) :
    ∃ b s', (p.run sem).run s = some (b, s') ∧ Q b (s', p.observe sem see s g) := by
  induction p generalizing s g with
  | ret c => exact ⟨c, s, rfl, h⟩
  | call o k ih =>
    obtain ⟨b, s₁, hcall, hk⟩ := h
    obtain ⟨c, s', hrest, hQ⟩ := ih b hk
    refine ⟨c, s', ?_, ?_⟩
    · change (sem _ o >>= fun b => (k b).run sem).run s = _
      rw [StateT.run_bind, hcall]
      exact hrest
    · rw [observe, hcall]
      exact hQ

/-- What the observer notes about one thing is what an operation of the run says about it, or
what was noted before. -/
theorem observe_cases {J : G → Prop} {p : Prog Op α} {s : σ} {g : G}
    (hsee : ∀ {β} (o : Op β) (b : β) (g : G), J (see β o b g) → J g)
    (h : J (p.observe sem see s g)) :
    J g := by
  induction p generalizing s g with
  | ret c => exact h
  | call o k ih =>
    rw [observe] at h
    split at h
    · exact h
    · exact hsee o _ g (ih _ h)

/-! ## Threads that run one program after the other -/

/-- What operations result in, and which programs are run. -/
structure Script (Op : Type → Type u) (ι α : Type) where
  /-- the results of the operations of a thread -/
  answer : ι → ∀ β, Op β → β
  /-- the next program of a thread -/
  next : ι → α → Option (Prog Op α)

end Prog
