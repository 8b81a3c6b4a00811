import Mathlib.Data.List.Nodup
import Mathlib.Data.List.TakeWhile
import Mathlib.Logic.Function.Basic

/-!
# Singly linked lists

`IsList next s l` says that following `next` from the nullable node `s` visits
exactly the nodes of `l`, in order, and then ends in null. On top of it: the
three pieces of pointer surgery (push at the front, weave in behind a node,
unlink the node behind a node), the traversal that reads the list back, and
the search loop of an ordered list, which stops at the last node whose
successor is not yet past the key.
-/

namespace LinkedList

variable {ι : Type*} {next next' : ι → Option ι} {s : Option ι} {l l₁ l₂ : List ι} {a p x : ι}

/-- The list from `s` visits exactly the nodes of `l` and ends in null. -/
def IsList (next : ι → Option ι) : Option ι → List ι → Prop
  | s, [] => s = none
  | s, x :: l => s = some x ∧ IsList next (next x) l

@[simp] theorem isList_nil : IsList next s [] ↔ s = none := Iff.rfl

@[simp] theorem isList_cons : IsList next s (x :: l) ↔ s = some x ∧ IsList next (next x) l :=
  Iff.rfl

namespace IsList

theorem start (h : IsList next s l) : s = l.head? := by
  cases l with
  | nil => exact h
  | cons x l => exact h.1

theorem congr (h : IsList next s l) (hn : ∀ x ∈ l, next' x = next x) : IsList next' s l := by
  induction l generalizing s with
  | nil => exact h
  | cons x l ih =>
    refine ⟨h.1, ?_⟩
    rw [hn x (List.mem_cons_self ..)]
    exact ih h.2 fun y hy => hn y (List.mem_cons_of_mem _ hy)

/-- A list does not notice a write to the pointer of another node. -/
theorem update [DecidableEq ι] {v : Option ι} (h : IsList next s l) (hp : p ∉ l) :
    IsList (Function.update next p v) s l := by
  refine h.congr fun x hx => Function.update_of_ne ?_ _ _
  rintro rfl
  exact hp hx

/-- The pointers determine the list. -/
theorem unique {m : List ι} (h : IsList next s l) (h' : IsList next s m) : l = m := by
  induction l generalizing s m with
  | nil =>
    cases m with
    | nil => rfl
    | cons y m => cases h.symm.trans h'.1
  | cons x l ih =>
    cases m with
    | nil => cases h'.symm.trans h.1
    | cons y m =>
      obtain rfl : x = y := Option.some.inj (h.1.symm.trans h'.1)
      rw [ih h.2 h'.2]

/-- The rest of the list behind an inner node. -/
theorem suffix (h : IsList next s (l₁ ++ l₂)) : ∃ s', IsList next s' l₂ ∧
    (∀ a ∈ l₁.getLast?, s' = next a) := by
  induction l₁ generalizing s with
  | nil => exact ⟨s, h, by simp⟩
  | cons x t ih =>
    obtain ⟨s', hs', hlast⟩ := ih h.2
    refine ⟨s', hs', ?_⟩
    intro a ha
    cases t with
    | nil =>
      obtain rfl : x = a := by simpa using ha
      exact hs'.start.trans (IsList.start h.2).symm
    | cons y t => exact hlast a (by simpa using ha)

/-- What `next` reads at an inner node. -/
theorem next_eq (h : IsList next s (l₁ ++ a :: l₂)) : next a = l₂.head? := by
  obtain ⟨s', hs', -⟩ := h.suffix
  exact hs'.2.start

/-- No node occurs twice: the two rests behind it would coincide. -/
theorem nodup (h : IsList next s l) : l.Nodup := by
  induction l generalizing s with
  | nil => exact List.nodup_nil
  | cons x l ih =>
    refine List.nodup_cons.mpr ⟨fun hx => ?_, ih h.2⟩
    obtain ⟨l₁, l₂, rfl⟩ := List.append_of_mem hx
    obtain ⟨s', hs', -⟩ := IsList.suffix h.2
    have heq := h.2.unique hs'.2
    have := congrArg List.length heq
    simp at this
    omega

/-- Pushing a fresh node at the front. -/
theorem push [DecidableEq ι] (h : IsList next s l) (hp : p ∉ l) :
    IsList (Function.update next p s) (some p) (p :: l) := by
  refine ⟨rfl, ?_⟩
  rw [Function.update_self]
  exact h.update hp

/-- Weaving a fresh node in behind `a`. -/
theorem insertAfter [DecidableEq ι] (h : IsList next s (l₁ ++ a :: l₂)) (hp : p ∉ l₁ ++ a :: l₂) :
    IsList (Function.update (Function.update next p (next a)) a (some p)) s
      (l₁ ++ a :: p :: l₂) := by
  have hnd := h.nodup
  induction l₁ generalizing s with
  | nil =>
    have hpa : p ≠ a := fun e => hp (by simp [e])
    have hal : a ∉ l₂ := (List.nodup_cons.mp hnd).1
    refine ⟨h.1, by simp, ?_⟩
    rw [Function.update_of_ne hpa, Function.update_self]
    refine IsList.congr h.2 fun x hx => ?_
    have hxa : x ≠ a := fun e => hal (e ▸ hx)
    have hxp : x ≠ p := fun e => hp (by simp [← e, hx])
    rw [Function.update_of_ne hxa, Function.update_of_ne hxp]
  | cons y t ih =>
    have hya : y ≠ a := by
      rintro rfl
      simp at hnd
    have hyp : y ≠ p := fun e => hp (by simp [e])
    refine ⟨h.1, ?_⟩
    rw [Function.update_of_ne hya, Function.update_of_ne hyp]
    exact ih h.2 (fun hm => hp (List.mem_cons_of_mem _ hm)) (List.nodup_cons.mp hnd).2

/-- Unlinking the node `p` behind `a`. -/
theorem removeAfter [DecidableEq ι] (h : IsList next s (l₁ ++ a :: p :: l₂)) :
    IsList (Function.update next a (next p)) s (l₁ ++ a :: l₂) := by
  have hnd := h.nodup
  induction l₁ generalizing s with
  | nil =>
    have hal : a ∉ l₂ := fun hm => (List.nodup_cons.mp hnd).1 (List.mem_cons_of_mem _ hm)
    refine ⟨h.1, ?_⟩
    rw [Function.update_self]
    refine IsList.congr h.2.2 fun x hx => Function.update_of_ne ?_ _ _
    exact fun e => hal (e ▸ hx)
  | cons y t ih =>
    have hya : y ≠ a := by
      rintro rfl
      simp at hnd
    refine ⟨h.1, ?_⟩
    rw [Function.update_of_ne hya]
    exact ih h.2 (List.nodup_cons.mp hnd).2

end IsList

/-! ## Reading and searching -/

/-- The nodes visited from `s`, at most `n` of them. -/
def toList (next : ι → Option ι) : ℕ → Option ι → List ι
  | 0, _ => []
  | _ + 1, none => []
  | n + 1, some x => x :: toList next n (next x)

theorem IsList.toList_eq {n : ℕ} (h : IsList next s l) (hn : l.length < n) :
    toList next n s = l := by
  induction l generalizing s n with
  | nil =>
    obtain ⟨m, rfl⟩ : ∃ m, n = m + 1 := ⟨n - 1, by omega⟩
    rw [h.start]
    rfl
  | cons x l ih =>
    obtain ⟨m, rfl⟩ : ∃ m, n = m + 1 := ⟨n - 1, by omega⟩
    rw [h.1, toList, ih h.2 (by simpa using hn)]

/-- The search loop of an ordered list: from `c`, advance while the successor
is `before` the place looked for. It ends in `none` when `n` steps are not
enough. -/
def findPrev (next : ι → Option ι) (before : ι → Bool) : ℕ → ι → Option ι
  | 0, _ => none
  | n + 1, c =>
    match next c with
    | none => some c
    | some d => if before d then findPrev next before n d else some c

/-- The search stops at the last node of the longest prefix that is `before`
the place looked for. -/
theorem findPrev_eq {before : ι → Bool} {n : ℕ} (h : IsList next (next x) l)
    (hn : l.length < n) :
    findPrev next before n x = some ((x :: l.takeWhile before).getLast (by simp)) := by
  induction l generalizing x n with
  | nil =>
    obtain ⟨m, rfl⟩ : ∃ m, n = m + 1 := ⟨n - 1, by omega⟩
    have hx : next x = none := h
    simp [findPrev, hx]
  | cons d l ih =>
    obtain ⟨m, rfl⟩ : ∃ m, n = m + 1 := ⟨n - 1, by omega⟩
    have hx : next x = some d := h.1
    rw [findPrev, hx]
    by_cases hd : before d
    · simp only [hd, if_true]
      rw [ih h.2 (by simpa using hn)]
      simp [hd]
    · simp [hd]

/-- A list is split at the same place by tests that agree on its nodes. -/
theorem splitWhile_congr {before before' : ι → Bool} (h : ∀ x ∈ l, before x = before' x) :
    l.takeWhile before = l.takeWhile before' ∧ l.dropWhile before = l.dropWhile before' := by
  induction l with
  | nil => exact ⟨rfl, rfl⟩
  | cons x l ih =>
    obtain ⟨htake, hdrop⟩ := ih fun y hy => h y (List.mem_cons_of_mem _ hy)
    rw [List.takeWhile_cons, List.takeWhile_cons, List.dropWhile_cons, List.dropWhile_cons,
      h x (List.mem_cons_self ..), htake, hdrop]
    exact ⟨rfl, rfl⟩

/-- Searching from the head and weaving a fresh node in behind the node found: it never comes to
stand before the head. -/
theorem IsList.insert_findPrev [DecidableEq ι] {n : ℕ} (before : ι → Bool)
    (h : IsList next s (x :: l)) (hp : p ∉ x :: l) (hn : l.length < n) :
    ∃ c, c ∈ x :: l ∧ findPrev next before n x = some c ∧
      IsList (Function.update (Function.update next p (next c)) c (some p)) s
        (x :: (l.takeWhile before ++ p :: l.dropWhile before)) := by
  obtain ⟨init, c, hinit⟩ : ∃ init c, x :: l.takeWhile before = init ++ [c] :=
    ⟨_, _, (List.dropLast_append_getLast (l := x :: l.takeWhile before) (by simp)).symm⟩
  have hsplit : x :: l = init ++ c :: l.dropWhile before := by
    rw [List.append_cons, ← hinit, List.cons_append, List.takeWhile_append_dropWhile]
  have hnew : x :: (l.takeWhile before ++ p :: l.dropWhile before) =
      init ++ c :: p :: l.dropWhile before := by
    rw [List.append_cons init c, ← hinit, List.cons_append]
  refine ⟨c, hsplit ▸ by simp, ?_, ?_⟩
  · rw [findPrev_eq h.2 hn]
    simp [hinit]
  · rw [hnew]
    rw [hsplit] at h hp
    exact h.insertAfter hp

end LinkedList
