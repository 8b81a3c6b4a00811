import Mathlib.Data.Fintype.Card
import Mathlib.Data.List.Nodup
import Mathlib.Logic.Relation

/-!
# Forests

A forest is given twice: by the parent of each node and by the list of its
children. `IsForest` says that the two agree, and `Acyclic` that no node is its
own ancestor. Making a root a child and making a child a root keep both.
-/

namespace Forest

variable {ι : Type*}

/-- The children lists with `p` made the first child of `q`. -/
def pushKid [DecidableEq ι] (kids : ι → List ι) (q p : ι) : ι → List ι :=
  Function.update kids q (p :: kids q)

/-- The children lists with `p` taken out of the children of `q`. -/
def eraseKid [DecidableEq ι] (kids : ι → List ι) (q p : ι) : ι → List ι :=
  Function.update kids q ((kids q).erase p)

/-- The two views of the forest agree. -/
structure IsForest (parent : ι → Option ι) (kids : ι → List ι) : Prop where
  /-- the children of `p` are the nodes with parent `p` -/
  mem : ∀ p q, q ∈ kids p ↔ parent q = some p
  /-- no child occurs twice -/
  nodup : ∀ p, (kids p).Nodup

/-- No node is its own ancestor: the nodes can be numbered so that each has a smaller number
than its children. -/
def Acyclic (parent : ι → Option ι) : Prop := ∃ o : ι → ℕ, ∀ p q, parent q = some p → o p < o q

/-- `p` is `q` or an ancestor of `q`. -/
def Above (parent : ι → Option ι) : ι → ι → Prop :=
  Relation.ReflTransGen fun p q => parent q = some p

variable {parent : ι → Option ι} {kids : ι → List ι} {p q : ι}

namespace IsForest

/-- A node is among the children of one node at most. -/
theorem unique (h : IsForest parent kids) {a b : ι} (ha : q ∈ kids a) (hb : q ∈ kids b) : a = b :=
  Option.some.inj (((h.mem a q).mp ha).symm.trans ((h.mem b q).mp hb))

theorem notMem_of_root (h : IsForest parent kids) (hp : parent p = none) (a : ι) : p ∉ kids a :=
  fun hm => by
    rw [(h.mem a p).mp hm] at hp
    cases hp

variable [DecidableEq ι]

/-- Making the child `p` of `q` a root. -/
theorem orphan (h : IsForest parent kids) (hp : parent p = some q) :
    IsForest (Function.update parent p none) (eraseKid kids q p) := by
  have hpq : p ∈ kids q := (h.mem q p).mpr hp
  constructor
  · intro a b
    by_cases hbp : b = p
    · subst hbp
      rw [Function.update_self]
      refine ⟨fun hb => ?_, fun hb => by cases hb⟩
      by_cases haq : a = q
      · subst haq
        rw [eraseKid, Function.update_self] at hb
        exact absurd hb (h.nodup a).not_mem_erase
      · rw [eraseKid, Function.update_of_ne haq] at hb
        exact absurd (h.unique hb hpq) haq
    · rw [Function.update_of_ne hbp, ← h.mem a b]
      by_cases haq : a = q
      · subst haq
        rw [eraseKid, Function.update_self]
        exact List.mem_erase_of_ne hbp
      · rw [eraseKid, Function.update_of_ne haq]
  · intro a
    by_cases haq : a = q
    · rw [haq, eraseKid, Function.update_self]
      exact (h.nodup q).erase p
    · rw [eraseKid, Function.update_of_ne haq]
      exact h.nodup a

/-- Making the root `p` a child of `q`. -/
theorem adopt (h : IsForest parent kids) (hp : parent p = none) :
    IsForest (Function.update parent p (some q)) (pushKid kids q p) := by
  have hpk := h.notMem_of_root hp
  constructor
  · intro a b
    by_cases hbp : b = p
    · subst hbp
      rw [Function.update_self, Option.some_inj]
      by_cases haq : a = q
      · simp [pushKid, haq]
      · rw [pushKid, Function.update_of_ne haq]
        exact ⟨fun hb => absurd hb (hpk a), fun e => absurd e.symm haq⟩
    · rw [Function.update_of_ne hbp, ← h.mem a b]
      by_cases haq : a = q
      · simp [pushKid, haq, hbp]
      · rw [pushKid, Function.update_of_ne haq]
  · intro a
    by_cases haq : a = q
    · rw [haq, pushKid, Function.update_self]
      exact List.nodup_cons.mpr ⟨hpk q, h.nodup q⟩
    · rw [pushKid, Function.update_of_ne haq]
      exact h.nodup a

/-- Taking nodes out of the forest, with all that is below them. -/
theorem prune {fs : List ι} (h : IsForest parent kids)
    (hclosed : ∀ a b, parent b = some a → a ∈ fs → b ∈ fs) :
    IsForest (fun p => if p ∈ fs then none else parent p)
      fun p => if p ∈ fs then [] else (kids p).filter (· ∉ fs) := by
  constructor
  · intro p q
    by_cases hp : p ∈ fs
    · simp only [if_pos hp]
      refine ⟨fun hq => absurd hq List.not_mem_nil, fun hq => ?_⟩
      split at hq
      · cases hq
      case isFalse hqfs => exact absurd (hclosed p q hq hp) hqfs
    · simp only [if_neg hp, List.mem_filter, decide_eq_true_iff, h.mem]
      by_cases hq : q ∈ fs
      · simp [hq]
      · simp [hq]
  · intro p
    by_cases hp : p ∈ fs
    · simp only [if_pos hp]
      exact List.nodup_nil
    · simp only [if_neg hp]
      exact (h.nodup p).filter _

end IsForest

namespace Acyclic

/-- The nodes of a finite forest can be numbered below their number. -/
theorem rank [Fintype ι] (h : Acyclic parent) :
    ∃ o : ι → ℕ, (∀ p q, parent q = some p → o p < o q) ∧ ∀ q, o q < Fintype.card ι := by
  obtain ⟨o, ho⟩ := h
  refine ⟨fun q => (Finset.univ.filter fun x => o x < o q).card, fun p q hq => ?_, fun q => ?_⟩
  · have hlt := ho p q hq
    refine Finset.card_lt_card (Finset.ssubset_iff_of_subset ?_ |>.mpr ⟨p, ?_, ?_⟩)
    · intro x hx
      simp only [Finset.mem_filter, Finset.mem_univ, true_and] at hx ⊢
      omega
    · simpa using hlt
    · simp
  · exact Finset.card_lt_univ_of_notMem (by simp : q ∉ _)

/-- A node is not among its own ancestors. -/
theorem irrefl (h : Acyclic parent) :
    ¬ Relation.TransGen (fun p q => parent q = some p) p p := by
  obtain ⟨o, ho⟩ := h
  have hlt : ∀ q, Relation.TransGen (fun p q => parent q = some p) p q → o p < o q := by
    intro q hq
    induction hq with
    | single hstep => exact ho _ _ hstep
    | tail _ hstep ih => exact ih.trans (ho _ _ hstep)
  exact fun hp => lt_irrefl _ (hlt p hp)

variable [DecidableEq ι]

/-- Making a node a root keeps the order. -/
theorem orphan (h : Acyclic parent) (p : ι) : Acyclic (Function.update parent p none) := by
  obtain ⟨o, ho⟩ := h
  refine ⟨o, fun a b hb => ?_⟩
  by_cases hbp : b = p
  · subst hbp
    simp at hb
  · rw [Function.update_of_ne hbp] at hb
    exact ho a b hb

/-- Making a node without children a child of another one. -/
theorem adopt (h : Acyclic parent) (hp : ∀ b, parent b ≠ some p) (hpq : p ≠ q) :
    Acyclic (Function.update parent p (some q)) := by
  obtain ⟨o, ho⟩ := h
  refine ⟨Function.update o p (o q + 1), fun a b hb => ?_⟩
  by_cases hbp : b = p
  · subst hbp
    rw [Function.update_self] at hb
    obtain rfl : q = a := Option.some.inj hb
    rw [Function.update_self, Function.update_of_ne hpq.symm]
    omega
  · rw [Function.update_of_ne hbp] at hb
    have hap : a ≠ p := fun e => hp b (e ▸ hb)
    rw [Function.update_of_ne hbp, Function.update_of_ne hap]
    exact ho a b hb

/-- Making a root a child of a node outside its tree. -/
theorem graft (h : Acyclic parent) (hp : parent p = none) (hpq : ¬ Above parent p q) :
    Acyclic (Function.update parent p (some q)) := by
  classical
  obtain ⟨o, ho⟩ := h
  -- the tree of `p` is renumbered above `q`
  refine ⟨fun x => if Above parent p x then o x + (o q + 1) else o x, fun a b hb => ?_⟩
  by_cases hbp : b = p
  · subst hbp
    rw [Function.update_self] at hb
    obtain rfl : q = a := Option.some.inj hb
    have hself : Above parent b b := .refl
    simp only [if_neg hpq, if_pos hself]
    omega
  · rw [Function.update_of_ne hbp] at hb
    have hab := ho a b hb
    have hiff : Above parent p a ↔ Above parent p b := by
      refine ⟨fun ha => ha.tail hb, fun hpb => ?_⟩
      rcases Relation.ReflTransGen.cases_tail hpb with e | ⟨c, hc, hcb⟩
      · exact absurd e hbp
      · exact Option.some.inj (hb.symm.trans hcb) ▸ hc
    by_cases ha : Above parent p a
    · simp only [if_pos ha, if_pos (hiff.mp ha)]
      omega
    · simp only [if_neg ha, if_neg fun hb => ha (hiff.mpr hb)]
      exact hab

/-- Taking nodes out of the forest keeps the order. -/
theorem prune (h : Acyclic parent) (fs : List ι) :
    Acyclic fun p => if p ∈ fs then none else parent p := by
  obtain ⟨o, ho⟩ := h
  refine ⟨o, fun a b hb => ?_⟩
  dsimp only at hb
  split at hb
  · cases hb
  · exact ho a b hb

end Acyclic

end Forest
