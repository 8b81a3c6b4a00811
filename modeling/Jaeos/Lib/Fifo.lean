import Jaeos.Lib.Transition
import Mathlib.Data.List.Basic
import Mathlib.Data.List.Nodup

/-!
# First come, first served

An element waits in a queue: others are served from the front, some leave, and new
ones join at the end. `Fifo.Waits` says that those who are served while it waits
were in front of it when it began to wait, and are served in that order. So it
is never overtaken, and the number of those served before it is bounded by its
place in the queue.
-/

namespace Fifo

variable {α : Type*} [DecidableEq α] {p x : α} {l l' l'' served served' xs : List α}

/-- The elements in front of `p`. -/
def before (p : α) (l : List α) : List α := l.takeWhile fun x => decide (x ≠ p)

theorem before_cons_self : before p (p :: l) = [] := by simp [before]

theorem before_cons_of_ne (h : x ≠ p) : before p (x :: l) = x :: before p l := by simp [before, h]

theorem before_append (h : p ∈ l) : before p (l ++ xs) = before p l := by
  induction l with
  | nil => cases h
  | cons x l ih =>
    by_cases hx : x = p
    · subst hx
      rw [List.cons_append, before_cons_self, before_cons_self]
    · rw [List.cons_append, before_cons_of_ne hx, before_cons_of_ne hx,
        ih (List.mem_of_ne_of_mem (Ne.symm hx) h)]

/-- As many are in front of `p` as its index says. -/
theorem length_before (h : p ∈ l) : (before p l).length = l.idxOf p := by
  induction l with
  | nil => cases h
  | cons x l ih =>
    by_cases hx : x = p
    · subst hx
      simp [before_cons_self]
    · rw [before_cons_of_ne hx, List.length_cons, ih (List.mem_of_ne_of_mem (Ne.symm hx) h),
        List.idxOf_cons_ne _ hx]

/-- Those in front of `p` when others have left. -/
theorem before_sublist (hsub : l'.Sublist l) (hp : p ∈ l') (hnd : l.Nodup) :
    (before p l').Sublist (before p l) := by
  induction hsub with
  | slnil => exact List.Sublist.refl _
  | @cons l₁ l₂ x hsub ih =>
    obtain ⟨hx, hnd⟩ := List.nodup_cons.mp hnd
    have hxp : x ≠ p := fun e => hx (e ▸ hsub.subset hp)
    rw [before_cons_of_ne hxp]
    exact (ih hp hnd).cons x
  | @cons_cons l₁ l₂ x hsub ih =>
    by_cases hx : x = p
    · subst hx
      rw [before_cons_self]
      exact List.nil_sublist _
    · rw [before_cons_of_ne hx, before_cons_of_ne hx]
      exact (ih (List.mem_of_ne_of_mem (Ne.symm hx) hp) (List.nodup_cons.mp hnd).2).cons_cons x

/-- Those who are served in a run, in order. -/
def total {S E : Type*} (serves : S → E → List α) (tr : List (S × E)) : List α :=
  tr.reverse.flatMap fun x => serves x.1 x.2

omit [DecidableEq α] in
theorem total_cons {S E : Type*} (serves : S → E → List α) (s : S) (e : E) (tr : List (S × E)) :
    total serves ((s, e) :: tr) = total serves tr ++ serves s e := by
  simp [total]

/-- While `p` waits and the queue goes from `l` to `l'`, those of `served` have been served. -/
def Waits (p : α) (l served l' : List α) : Prop := (served ++ before p l').Sublist (before p l)

namespace Waits

theorem refl (p : α) (l : List α) : Waits p l [] l := List.Sublist.refl _

theorem trans (h : Waits p l served l') (h' : Waits p l' served' l'') :
    Waits p l (served ++ served') l'' := by
  rw [Waits, List.append_assoc]
  exact ((List.Sublist.refl served).append h').trans h

/-- The first one is served. -/
theorem serve (h : x ≠ p) : Waits p (x :: l) [x] l := by
  rw [Waits, before_cons_of_ne h]
  exact List.Sublist.refl _

/-- Others join at the end. -/
theorem join (h : p ∈ l) (xs : List α) : Waits p l [] (l ++ xs) := by
  rw [Waits, before_append h]
  exact List.Sublist.refl _

/-- Others leave. -/
theorem leave (hsub : l'.Sublist l) (hp : p ∈ l') (hnd : l.Nodup) : Waits p l [] l' :=
  before_sublist hsub hp hnd

/-- Those who are served were in front of `p`, in the same order. -/
theorem in_order (h : Waits p l served l') : served.Sublist (before p l) :=
  (List.sublist_append_left ..).trans h

/-- As many as are served, so much closer to the front is `p`. -/
theorem length_le (h : Waits p l served l') (hp : p ∈ l) (hp' : p ∈ l') :
    served.length + l'.idxOf p ≤ l.idxOf p := by
  rw [← length_before hp, ← length_before hp', ← List.length_append]
  exact List.Sublist.length_le h

/-! ## Runs -/

variable {S E : Type*} {step : S → E → S → Prop} {queue : S → List α} {serves : S → E → List α}

/-- What holds of each step from one state to the next of a run holds of the run. -/
theorem of_run {G : S → E → Prop} {W : S → Prop} {s₀ s : S} {tr : List (S × E)}
    (hone : ∀ s e s', G s e → step s e s' → W s → W s' →
      Waits p (queue s) (serves s e) (queue s'))
    (hrun : Transition.Run (· = s₀) step tr s) (hG : ∀ x ∈ tr, G x.1 x.2)
    (hstay : ∀ x ∈ tr, W x.1) (hend : W s) :
    Waits p (queue s₀) (total serves tr) (queue s) := by
  induction hrun with
  | start h => exact h ▸ refl p _
  | @next tr s s' e hrun h ih =>
    have hbefore := ih (fun x hx => hG x (List.mem_cons_of_mem _ hx))
      (fun x hx => hstay x (List.mem_cons_of_mem _ hx)) (hstay (s, e) List.mem_cons_self)
    have hlast := hone s e s' (hG (s, e) List.mem_cons_self) h
      (hstay (s, e) List.mem_cons_self) hend
    rw [total_cons]
    exact hbefore.trans hlast

end Waits

end Fifo
