import Mathlib.Logic.Basic

/-!
# What a program leaves alone

`Keeps f m`: whatever `m` does to the state, it does not change what `f` reads from
it. The rules follow the monadic structure of `m`.
-/

/-- A run of `m` does not change what `f` reads. -/
def Keeps {σ γ α : Type} (f : σ → γ) (m : StateT σ Option α) : Prop :=
  ∀ s a s', m.run s = some (a, s') → f s' = f s

namespace Keeps

variable {σ γ α β : Type} {f : σ → γ}

theorem of_pure (a : α) : Keeps f (pure a : StateT σ Option α) := fun s b s' h => by
  obtain ⟨-, rfl⟩ := Prod.mk.inj (Option.some.inj h)
  rfl

theorem of_failure : Keeps f (failure : StateT σ Option α) := fun s b s' h => by
  cases h

theorem of_get : Keeps f (get : StateT σ Option σ) := fun s b s' h => by
  obtain ⟨-, rfl⟩ := Prod.mk.inj (Option.some.inj h)
  rfl

theorem of_modify {g : σ → σ} (hg : ∀ s, f (g s) = f s) :
    Keeps f (modify g : StateT σ Option Unit) := fun s b s' h => by
  obtain ⟨-, rfl⟩ := Prod.mk.inj (Option.some.inj h)
  exact hg s

theorem of_lift (x : Option α) : Keeps f (liftM x : StateT σ Option α) := fun s b s' h => by
  cases x with
  | none => cases h
  | some a =>
    obtain ⟨-, rfl⟩ := Prod.mk.inj (Option.some.inj h)
    rfl

theorem of_bind {m : StateT σ Option α} {k : α → StateT σ Option β} (hm : Keeps f m)
    (hk : ∀ a, Keeps f (k a)) : Keeps f (m >>= k) := fun s b s' h => by
  rw [StateT.run_bind] at h
  obtain ⟨⟨a, s₁⟩, hrun, hrest⟩ := Option.bind_eq_some_iff.mp h
  rw [hk a s₁ b s' hrest, hm s a s₁ hrun]

/-- Read the state, and go on. -/
theorem of_get_bind {k : σ → StateT σ Option β} (hk : ∀ s, Keeps f (k s)) :
    Keeps f (get >>= k) := of_bind of_get hk

/-- Read through a pointer, and go on. -/
theorem of_lift_bind {x : Option α} {k : α → StateT σ Option β} (hk : ∀ a, Keeps f (k a)) :
    Keeps f (liftM x >>= k) := of_bind (of_lift x) hk

end Keeps
