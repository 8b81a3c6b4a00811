import Mathlib.Data.List.Basic

/-!
# Runs of a transition system

A run is the list of the steps taken, the last one first, each with the state it
was taken from. An invariant that each step keeps holds after every run; the
steps may be asked to meet a condition on the state before them, and the
invariant may speak about the steps taken so far.
-/

namespace Transition

variable {S E : Type*} {init : S → Prop} {step : S → E → S → Prop}

/-- The runs from an initial state: the steps taken, the last one first, and the state
they end in. -/
inductive Run (init : S → Prop) (step : S → E → S → Prop) : List (S × E) → S → Prop where
  /-- no step yet -/
  | start {s : S} (h : init s) : Run init step [] s
  /-- one more step -/
  | next {tr : List (S × E)} {s s' : S} {e : E} (hrun : Run init step tr s) (h : step s e s') :
    Run init step ((s, e) :: tr) s'

namespace Run

variable {tr : List (S × E)} {s : S}

/-- A property of runs that holds at the start and is kept by each step that meets `G`
holds of every run whose steps all meet it. -/
theorem trace_invariant {I : List (S × E) → S → Prop} {G : List (S × E) → S → E → Prop}
    (hinit : ∀ s, init s → I [] s)
    (hstep : ∀ tr s e s', Run init step tr s → I tr s → G tr s e → step s e s' →
      I ((s, e) :: tr) s')
    (hrun : Run init step tr s)
    (hok : ∀ pre x post, tr = post ++ x :: pre → G pre x.1 x.2) : I tr s := by
  induction hrun with
  | start h => exact hinit _ h
  | @next tr s s' e hrun h ih =>
    have hpre : I tr s := ih fun pre x post htr => hok pre x ((s, e) :: post) (by rw [htr]; rfl)
    exact hstep tr s e s' hrun hpre (hok tr (s, e) [] rfl) h

/-- An invariant that each step that meets `G` keeps holds after every run whose steps all
meet it. -/
theorem invariant {I : S → Prop} {G : S → E → Prop} (hinit : ∀ s, init s → I s)
    (hstep : ∀ s e s', I s → G s e → step s e s' → I s') (hrun : Run init step tr s)
    (hok : ∀ x ∈ tr, G x.1 x.2) : I s :=
  trace_invariant (I := fun _ => I) hinit (fun _ s e s' _ => hstep s e s') hrun
    fun pre x post htr => hok x (by simp [htr])

/-- Each step of a run was taken from a state that an earlier run has reached. -/
theorem of_mem {x : S × E} (hrun : Run init step tr s) (hx : x ∈ tr) :
    ∃ pre s', pre <:+ tr ∧ Run init step pre x.1 ∧ step x.1 x.2 s' := by
  induction hrun with
  | start h => cases hx
  | @next tr s s' e hrun h ih =>
    rcases List.mem_cons.mp hx with rfl | hx
    · exact ⟨tr, s', List.suffix_cons _ _, hrun, h⟩
    · obtain ⟨pre, s₁, hpre, hbefore, hstep⟩ := ih hx
      exact ⟨pre, s₁, hpre.trans (List.suffix_cons _ _), hbefore, hstep⟩

/-- What holds of the states of a run holds of the first one. -/
theorem start_of {W : S → Prop} {s₀ : S} (hrun : Run (· = s₀) step tr s)
    (hall : ∀ x ∈ tr, W x.1) (hend : W s) : W s₀ := by
  induction hrun with
  | start h => exact h ▸ hend
  | @next tr s s' e hrun h ih =>
    exact ih (fun x hx => hall x (List.mem_cons_of_mem _ hx)) (hall (s, e) List.mem_cons_self)

/-- What holds of the first state of a run and is kept by each step between states of `W` holds of
the last one, if all states are of `W`. -/
theorem within {I W : S → Prop} {G : S → E → Prop} {s₀ : S} (hinit : I s₀)
    (hstep : ∀ s e s', I s → G s e → W s → W s' → step s e s' → I s')
    (hrun : Run (· = s₀) step tr s) (hG : ∀ x ∈ tr, G x.1 x.2) (hall : ∀ x ∈ tr, W x.1)
    (hend : W s) : I s := by
  induction hrun with
  | start h => exact h ▸ hinit
  | @next tr s s' e hrun h ih =>
    have hlast := hall (s, e) List.mem_cons_self
    have hbefore := ih (fun x hx => hG x (List.mem_cons_of_mem _ hx))
      (fun x hx => hall x (List.mem_cons_of_mem _ hx)) hlast
    exact hstep s e s' hbefore (hG (s, e) List.mem_cons_self) hlast hend h

/-- A run from some of the initial states is a run. -/
theorem mono {init' : S → Prop} (hinit : ∀ s, init s → init' s) (hrun : Run init step tr s) :
    Run init' step tr s := by
  induction hrun with
  | start h => exact .start (hinit _ h)
  | next _ h ih => exact .next ih h

/-- Forward simulation: if what is seen of each step that meets `G` between states of `I` is a step
of another system, then what is seen of a run is a run of that system. -/
theorem simulate {S' : Type*} {init' : S' → Prop} {step' : S' → E → S' → Prop} {view : S → S'}
    {I : S → Prop} {G : S → E → Prop} (hinit : ∀ s, init s → init' (view s))
    (hinv : ∀ tr s e s', Run init step tr s → (∀ x ∈ tr, G x.1 x.2) → step s e s' → I s)
    (hstep : ∀ s e s', I s → G s e → step s e s' → step' (view s) e (view s'))
    (hrun : Run init step tr s) (hok : ∀ x ∈ tr, G x.1 x.2) :
    Run init' step' (tr.map fun x => (view x.1, x.2)) (view s) := by
  induction hrun with
  | start h => exact .start (hinit _ h)
  | @next tr s s' e hrun h ih =>
    obtain ⟨hG, hrest⟩ := List.forall_mem_cons.mp hok
    exact .next (ih hrest) (hstep s e s' (hinv tr s e s' hrun hrest h) hG h)

/-- A run that goes on from the state it has reached. -/
theorem append {post : List (S × E)} {s' : S} (hrun : Run init step tr s)
    (hpost : Run (· = s) step post s') : Run init step (post ++ tr) s' := by
  induction hpost with
  | start h => exact h ▸ hrun
  | next _ h ih => exact .next ih h

/-- The state a step was taken from is reached by the steps before it. -/
theorem before {pre post : List (S × E)} {x : S × E} (hrun : Run init step tr s)
    (htr : tr = post ++ x :: pre) : Run init step pre x.1 := by
  induction hrun generalizing post with
  | start h => simp at htr
  | @next tr s s' e hrun h ih =>
    cases post with
    | nil =>
      obtain ⟨rfl, rfl⟩ := List.cons.inj htr
      exact hrun
    | cons y post => exact ih (List.cons.inj htr).2

/-- The first steps of a run are a run. -/
theorem suffix {tr₀ : List (S × E)} (hrun : Run init step tr s) (htr : tr₀ <:+ tr) :
    ∃ s₀, Run init step tr₀ s₀ := by
  induction hrun with
  | start h =>
    obtain rfl := List.suffix_nil.mp htr
    exact ⟨_, .start h⟩
  | @next tr s s' e hrun h ih =>
    rcases List.suffix_cons_iff.mp htr with rfl | htr
    · exact ⟨s', .next hrun h⟩
    · exact ih htr

end Run

/-! ## Executing steps -/

section

variable {run : E → S → Option S} {P : S → E → Prop} [∀ s e, Decidable (P s e)]

/-- The state after steps that each have at most one result, as long as they meet a condition. -/
def execIf (run : E → S → Option S) (P : S → E → Prop) [∀ s e, Decidable (P s e)] :
    List E → S → Option S
  | [], s => some s
  | e :: es, s => if P s e then (run e s).bind fun s' => execIf run P es s' else none

/-- Executing steps is a run of steps that meet the condition. -/
theorem execIf_run {es : List E} {tr : List (S × E)} {s s' : S}
    (hstep : ∀ s e s', P s e → run e s = some s' → step s e s') (hrun : Run init step tr s)
    (htr : ∀ x ∈ tr, P x.1 x.2) (hexec : execIf run P es s = some s') :
    ∃ tr', Run init step tr' s' ∧ ∀ x ∈ tr', P x.1 x.2 := by
  induction es generalizing s tr with
  | nil =>
    obtain rfl := Option.some.inj hexec
    exact ⟨tr, hrun, htr⟩
  | cons e es ih =>
    rw [execIf] at hexec
    split at hexec
    · rename_i he
      obtain ⟨s₁, hone, hrest⟩ := Option.bind_eq_some_iff.mp hexec
      exact ih (.next hrun (hstep s e s₁ he hone)) (List.forall_mem_cons.mpr ⟨he, htr⟩) hrest
    · cases hexec

end

end Transition
