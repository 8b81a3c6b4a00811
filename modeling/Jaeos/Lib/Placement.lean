import Mathlib.Data.List.Nodup
import Mathlib.Data.Fintype.Card

/-!
# Items in queues

Items are distributed over a family of queues, and some are out of all of them.
`Placed q out` says that each item is in exactly one place: once in exactly one
queue, or once in `out`. Taking an item out of a queue and putting it back into
any queue keep this.
-/

variable {ι κ : Type*}

/-- Each item is once in exactly one queue of `q`, or once in `out`. -/
structure Placed (q : κ → List ι) (out : List ι) : Prop where
  /-- no item is twice in a queue -/
  nodup : ∀ i, (q i).Nodup
  /-- no item is in two queues -/
  disjoint : ∀ i j, ∀ p ∈ q i, p ∈ q j → i = j
  /-- no item is out twice -/
  nodup_out : out.Nodup
  /-- an item that is out is in no queue -/
  loose : ∀ p ∈ out, ∀ i, p ∉ q i
  /-- no item is lost -/
  cover : ∀ p, p ∈ out ∨ ∃ i, p ∈ q i

namespace Placed

variable {q : κ → List ι} {out : List ι} {p : ι} {i j : κ} {ps : List ι}

theorem eq_of_mem (h : Placed q out) (hi : p ∈ q i) (hj : p ∈ q j) : j = i :=
  h.disjoint j i p hj hi

theorem notMem_out (h : Placed q out) (hi : p ∈ q i) : p ∉ out := fun hp => h.loose p hp i hi

variable [DecidableEq κ]

/-- Put an item at the end of a queue. -/
theorem put (h : Placed q (p :: out)) (i : κ) :
    Placed (Function.update q i (q i ++ [p])) out := by
  obtain ⟨hpout, hout⟩ := List.nodup_cons.mp h.nodup_out
  have hp := h.loose p (by simp)
  have hmem : ∀ j x, x ∈ Function.update q i (q i ++ [p]) j ↔ x ∈ q j ∨ j = i ∧ x = p := by
    intro j x
    by_cases hj : j = i
    · simp [hj]
    · simp [hj]
  refine ⟨?_, ?_, hout, ?_, ?_⟩
  · intro j
    by_cases hj : j = i
    · rw [hj, Function.update_self]
      refine List.nodup_append.mpr ⟨h.nodup i, List.nodup_singleton p, ?_⟩
      rintro x hx y hy rfl
      exact hp i (List.mem_singleton.mp hy ▸ hx)
    · rw [Function.update_of_ne hj]
      exact h.nodup j
  · intro j₁ j₂ x hx₁ hx₂
    rcases (hmem j₁ x).mp hx₁ with hx₁ | ⟨hj₁, hxp⟩ <;>
      rcases (hmem j₂ x).mp hx₂ with hx₂ | ⟨hj₂, hxp'⟩
    · exact h.disjoint j₁ j₂ x hx₁ hx₂
    · exact absurd (hxp' ▸ hx₁) (hp j₁)
    · exact absurd (hxp ▸ hx₂) (hp j₂)
    · exact hj₁.trans hj₂.symm
  · intro x hx j hj
    rcases (hmem j x).mp hj with hj | ⟨-, rfl⟩
    · exact h.loose x (List.mem_cons_of_mem _ hx) j hj
    · exact hpout hx
  · intro x
    rcases h.cover x with hx | ⟨j, hj⟩
    · rcases List.mem_cons.mp hx with rfl | hx
      · exact .inr ⟨i, (hmem i x).mpr (.inr ⟨rfl, rfl⟩)⟩
      · exact .inl hx
    · exact .inr ⟨j, (hmem j x).mpr (.inl hj)⟩

variable [DecidableEq ι]

/-- Take an item out of its queue. -/
theorem take (h : Placed q out) (hp : p ∈ q i) :
    Placed (Function.update q i ((q i).erase p)) (p :: out) := by
  have hmem : ∀ j x, x ∈ Function.update q i ((q i).erase p) j ↔ x ∈ q j ∧ x ≠ p := by
    intro j x
    by_cases hj : j = i
    · rw [hj, Function.update_self, (h.nodup i).mem_erase_iff, and_comm]
    · rw [Function.update_of_ne hj]
      exact ⟨fun hx => ⟨hx, fun e => hj (h.eq_of_mem hp (e ▸ hx))⟩, And.left⟩
  refine ⟨?_, ?_, List.nodup_cons.mpr ⟨h.notMem_out hp, h.nodup_out⟩, ?_, ?_⟩
  · intro j
    by_cases hj : j = i
    · rw [hj, Function.update_self]
      exact (h.nodup i).erase p
    · rw [Function.update_of_ne hj]
      exact h.nodup j
  · intro j₁ j₂ x hx₁ hx₂
    exact h.disjoint j₁ j₂ x ((hmem j₁ x).mp hx₁).1 ((hmem j₂ x).mp hx₂).1
  · intro x hx j hj
    obtain ⟨hxj, hxp⟩ := (hmem j x).mp hj
    exact h.loose x ((List.mem_cons.mp hx).resolve_left hxp) j hxj
  · intro x
    by_cases hxp : x = p
    · exact .inl (by simp [hxp])
    · rcases h.cover x with hx | ⟨j, hj⟩
      · exact .inl (List.mem_cons_of_mem _ hx)
      · exact .inr ⟨j, (hmem j x).mpr ⟨hj, hxp⟩⟩

/-- Take the oldest item out of a queue. -/
theorem pop (h : Placed q out) (hq : q i = p :: ps) :
    Placed (Function.update q i ps) (p :: out) := by
  have hp : p ∈ q i := by simp [hq]
  have herase : (q i).erase p = ps := by simp [hq]
  exact herase ▸ h.take hp

/-- Move some items to the end of one queue, whether they were in other queues or out. -/
theorem gather {fs out' : List ι} (h : Placed q out) (hnd : fs.Nodup) (hfs : ∀ x ∈ fs, x ∉ q i)
    (hnd' : out'.Nodup) (hout : ∀ x, x ∈ out' ↔ x ∈ out ∧ x ∉ fs) :
    Placed (fun j => if j = i then q i ++ fs else (q j).filter (· ∉ fs)) out' := by
  have hmem : ∀ j x, x ∈ (if j = i then q i ++ fs else (q j).filter (· ∉ fs)) ↔
      if j = i then x ∈ q j ∨ x ∈ fs else x ∈ q j ∧ x ∉ fs := by
    intro j x
    by_cases hj : j = i
    · simp [hj]
    · simp [hj]
  refine ⟨?_, ?_, hnd', ?_, ?_⟩
  · intro j
    by_cases hj : j = i
    · simp only [if_pos hj]
      exact (h.nodup i).append hnd fun x hx hxfs => hfs x hxfs hx
    · simp only [if_neg hj]
      exact (h.nodup j).filter _
  · intro j₁ j₂ x hx₁ hx₂
    rw [hmem] at hx₁ hx₂
    by_cases hj₁ : j₁ = i <;> by_cases hj₂ : j₂ = i
    · exact hj₁.trans hj₂.symm
    · rw [if_pos hj₁] at hx₁
      rw [if_neg hj₂] at hx₂
      exact h.disjoint j₁ j₂ x (hx₁.resolve_right hx₂.2) hx₂.1
    · rw [if_neg hj₁] at hx₁
      rw [if_pos hj₂] at hx₂
      exact h.disjoint j₁ j₂ x hx₁.1 (hx₂.resolve_right hx₁.2)
    · rw [if_neg hj₁] at hx₁
      rw [if_neg hj₂] at hx₂
      exact h.disjoint j₁ j₂ x hx₁.1 hx₂.1
  · intro x hx j hxj
    obtain ⟨hxout, hxfs⟩ := (hout x).mp hx
    rw [hmem] at hxj
    split at hxj
    · exact h.loose x hxout j (hxj.resolve_right hxfs)
    · exact h.loose x hxout j hxj.1
  · intro x
    by_cases hxfs : x ∈ fs
    · exact .inr ⟨i, (hmem i x).mpr (by simp [hxfs])⟩
    · refine (h.cover x).imp (fun hx => (hout x).mpr ⟨hx, hxfs⟩) ?_
      rintro ⟨j, hxj⟩
      refine ⟨j, (hmem j x).mpr ?_⟩
      split
      · exact .inl hxj
      · exact ⟨hxj, hxfs⟩

end Placed
