import Mathlib.Data.List.Chain
import Mathlib.Data.List.Nodup
import Mathlib.Logic.Function.Basic

/-!
# Doubly linked rings and lines

A family of nodes carries a forward and a backward pointer each. The pointers
are kept as two maps from nodes to nullable nodes, so that a write to one of
them cannot alias the other. Three shapes are described by the list of their
nodes:

* `IsRing k l` — following `next` from the head of `l` visits `l` in order and
  returns to the head, and `prev` is the inverse.
* `IsLine k l` — the same without the closing edge: `prev` of the head and
  `next` of the last node are null.
* `ringList` — the list read off a ring from its tail pointer.

The lemmas say what the usual pointer surgery (insert at the tail, unlink a
node) does to the list.
-/

namespace LinkedRing

variable {ι : Type*}

/-- The forward and backward pointers of a family of nodes. -/
structure Links (ι : Type*) where
  /-- the successor of a node -/
  next : ι → Option ι
  /-- the predecessor of a node -/
  prev : ι → Option ι

/-- `y` follows `x`: both pointers of the edge are in place. -/
def Links.Adj (k : Links ι) (x y : ι) : Prop := k.next x = some y ∧ k.prev y = some x

/-- Outside `l`, the pointers of `k'` are those of `k`. -/
def Links.EqOff (k k' : Links ι) (l : List ι) : Prop :=
  ∀ x, x ∉ l → k'.next x = k.next x ∧ k'.prev x = k.prev x

/-- The nodes of `l`, in this order, form one ring. -/
structure IsRing (k : Links ι) (l : List ι) : Prop where
  /-- no node occurs twice -/
  nodup : l.Nodup
  /-- each node is linked to the one after it, the last one to the head -/
  chain : (l ++ l.head?.toList).IsChain k.Adj

namespace IsRing

variable {k k' : Links ι} {l l₁ l₂ : List ι} {x p : ι}

theorem nil : IsRing k [] := ⟨List.nodup_nil, List.isChain_nil⟩

theorem singleton (hn : k.next x = some x) (hp : k.prev x = some x) : IsRing k [x] :=
  ⟨List.nodup_singleton x, List.isChain_pair.mpr ⟨hn, hp⟩⟩

/-- A ring only depends on the pointers of its own nodes. -/
theorem congr (h : IsRing k l) (hn : ∀ x ∈ l, k'.next x = k.next x)
    (hp : ∀ x ∈ l, k'.prev x = k.prev x) : IsRing k' l := by
  refine ⟨h.nodup, h.chain.imp_of_mem_imp ?_⟩
  have hmem : ∀ a ∈ l ++ l.head?.toList, a ∈ l := by
    cases l <;> simp [or_comm]
  intro a b ha hb hab
  exact ⟨(hn a (hmem a ha)).trans hab.1, (hp b (hmem b hb)).trans hab.2⟩

/-- A ring does not notice writes to the pointers of other nodes. -/
theorem of_eqOff (h : IsRing k l) (he : k.EqOff k' l₁) (hd : ∀ x ∈ l, x ∉ l₁) : IsRing k' l :=
  h.congr (fun x hx => (he x (hd x hx)).1) fun x hx => (he x (hd x hx)).2

/-- The edges of a ring: along the list, and from its last node to its head. -/
theorem cons_iff : IsRing k (x :: l) ↔
    (x :: l).Nodup ∧ (x :: l).IsChain k.Adj ∧ k.Adj ((x :: l).getLast (by simp)) x := by
  constructor
  · rintro ⟨hnd, hch⟩
    obtain ⟨hl, -, hlast⟩ := List.isChain_append.mp hch
    exact ⟨hnd, hl, hlast _ (List.getLast?_eq_some_getLast (by simp)) x (by simp)⟩
  · rintro ⟨hnd, hl, hlast⟩
    refine ⟨hnd, hl.append (List.isChain_singleton x) ?_⟩
    intro a ha b hb
    rw [List.getLast?_eq_some_getLast (by simp), Option.mem_some_iff] at ha
    obtain rfl : x = b := by simpa using hb
    exact ha ▸ hlast

/-- Turning the ring by one node. -/
theorem rotate_one (h : IsRing k (x :: l)) : IsRing k (l ++ [x]) := by
  obtain ⟨hnd, hch, hlast⟩ := cons_iff.mp h
  cases l with
  | nil => exact h
  | cons y t =>
    have hxy : k.Adj x y := hch.rel
    rw [List.cons_append, cons_iff]
    refine ⟨?_, ?_, ?_⟩
    · have hperm : (y :: (t ++ [x])).Perm (x :: y :: t) := List.perm_append_singleton x (y :: t)
      exact hperm.nodup_iff.mpr hnd
    · refine (List.IsChain.tail hch).append (List.isChain_singleton x) ?_
      intro a ha b hb
      rw [List.tail_cons, List.getLast?_eq_some_getLast (by simp), Option.mem_some_iff] at ha
      obtain rfl : x = b := by simpa using hb
      rw [List.getLast_cons (by simp)] at hlast
      exact ha ▸ hlast
    · simpa using hxy

/-- A ring has no distinguished head. -/
theorem append_comm (h : IsRing k (l₁ ++ l₂)) : IsRing k (l₂ ++ l₁) := by
  induction l₁ generalizing l₂ with
  | nil => simpa using h
  | cons a t ih =>
    have hturned : IsRing k (t ++ (l₂ ++ [a])) := by simpa using h.rotate_one
    simpa using ih hturned

/-- The successor of the last node is the head. -/
theorem next_getLast (h : IsRing k l) (hne : l ≠ []) :
    k.next (l.getLast hne) = some (l.head hne) := by
  cases l with
  | nil => exact absurd rfl hne
  | cons x t => exact (cons_iff.mp h).2.2.1

/-- The successor of a node of a ring is on the ring. -/
theorem next_mem {y : ι} (h : IsRing k l) (hx : x ∈ l) (hy : k.next x = some y) : y ∈ l := by
  obtain ⟨l₁, l₂, rfl⟩ := List.append_of_mem hx
  have hturned : IsRing k (x :: (l₂ ++ l₁)) := by simpa using h.append_comm
  obtain ⟨-, hch, hlast⟩ := cons_iff.mp hturned
  cases hrest : l₂ ++ l₁ with
  | nil =>
    simp only [hrest, List.getLast_singleton] at hlast
    obtain rfl := Option.some.inj (hy.symm.trans hlast.1)
    exact hx
  | cons z t =>
    rw [hrest] at hch
    obtain rfl := Option.some.inj (hy.symm.trans hch.rel.1)
    have hz : y ∈ l₂ ++ l₁ := by simp [hrest]
    rcases List.mem_append.mp hz with hz | hz
    · exact List.mem_append_right _ (List.mem_cons_of_mem _ hz)
    · exact List.mem_append_left _ hz

/-- Following the successors of `k` from a node of a ring `l'` of `k'`, as long as these are the
same there, one stays on it. -/
theorem mem_of_chain {c l' : List ι} (h : IsRing k' l') (hchain : (x :: c).IsChain k.Adj)
    (hx : x ∈ l') (hn : ∀ y ∈ (x :: c).dropLast, k'.next y = k.next y) : ∀ y ∈ x :: c, y ∈ l' := by
  induction c generalizing x with
  | nil => simpa using hx
  | cons z c ih =>
    have hz : z ∈ l' := by
      refine h.next_mem hx ?_
      rw [hn x (by simp)]
      exact hchain.rel.1
    have hrest := ih (List.IsChain.tail hchain) hz fun y hy => hn y (by simp [hy])
    intro y hy
    rcases List.mem_cons.mp hy with rfl | hy
    · exact hx
    · exact hrest y hy

/-- Inserting `p` behind the last node `t` of a non-empty ring. -/
theorem snoc [DecidableEq ι] (h : IsRing k (x :: l)) (hp : p ∉ x :: l) {t : ι}
    (ht : t = (x :: l).getLast (by simp)) :
    IsRing ⟨Function.update (Function.update k.next p (some x)) t (some p),
      Function.update (Function.update k.prev x (some p)) p (some t)⟩ (x :: l ++ [p]) := by
  obtain ⟨hnd, hch, hlast⟩ := cons_iff.mp h
  rw [← ht] at hlast
  have htmem : t ∈ x :: l := ht ▸ List.getLast_mem _
  have hxp : x ≠ p := fun e => hp (e ▸ List.mem_cons_self ..)
  have htp : t ≠ p := fun e => hp (e ▸ htmem)
  rw [List.cons_append, cons_iff]
  refine ⟨?_, ?_, ?_⟩
  · rw [← List.cons_append]
    exact List.nodup_append.mpr ⟨hnd, List.nodup_singleton p, by
      intro a ha b hb; obtain rfl := List.mem_singleton.mp hb; exact fun e => hp (e ▸ ha)⟩
  · rw [← List.cons_append]
    refine List.IsChain.append (hch.imp_of_mem_tail_imp ?_) (List.isChain_singleton p) ?_
    · -- the old edges are not the closing one, so none of the writes hits them
      intro a b ha hb hab
      have hbx : b ≠ x := fun e => (List.nodup_cons.mp hnd).1 (e ▸ hb)
      have hat : a ≠ t := by
        rintro rfl
        exact hbx (Option.some.inj (hab.1.symm.trans hlast.1))
      have hap : a ≠ p := fun e => hp (e ▸ ha)
      have hbp : b ≠ p := fun e => hp (e ▸ List.mem_cons_of_mem _ hb)
      exact ⟨by simp [hat, hap, hab.1], by simp [hbx, hbp, hab.2]⟩
    · intro a ha b hb
      obtain rfl : p = b := by simpa using hb
      obtain rfl : t = a := by
        rw [ht]
        simpa [List.getLast?_eq_some_getLast] using ha
      exact ⟨by simp, by simp⟩
  · have hlastp : (x :: (l ++ [p])).getLast (by simp) = p := by simp
    rw [hlastp]
    exact ⟨by simp [Ne.symm htp], by simp [hxp]⟩

/-- The neighbours of the head of a ring with at least two nodes, and the ring
that is left when the head is unlinked. -/
theorem remove_head [DecidableEq ι] (h : IsRing k (p :: l)) (hne : l ≠ []) :
    k.prev p = some (l.getLast hne) ∧ k.next p = some (l.head hne) ∧
      IsRing ⟨Function.update k.next (l.getLast hne) (some (l.head hne)),
        Function.update k.prev (l.head hne) (some (l.getLast hne))⟩ l := by
  obtain ⟨hnd, hch, hlast⟩ := cons_iff.mp h
  rw [List.getLast_cons hne] at hlast
  obtain ⟨r, t, rfl⟩ := List.exists_cons_of_ne_nil hne
  have hpr : k.Adj p r := hch.rel
  have hpl : p ∉ r :: t := (List.nodup_cons.mp hnd).1
  refine ⟨hlast.2, hpr.1, cons_iff.mpr ⟨(List.nodup_cons.mp hnd).2, ?_, ?_⟩⟩
  · refine (List.IsChain.tail hch).imp_of_mem_imp ?_
    rw [List.tail_cons]
    intro a b ha hb hab
    -- the two edges at `p` are the only ones the writes replace
    have haq : a ≠ (r :: t).getLast hne := by
      rintro rfl
      exact hpl (Option.some.inj (hab.1.symm.trans hlast.1) ▸ hb)
    have hbr : b ≠ r := by
      rintro rfl
      exact hpl (Option.some.inj (hab.2.symm.trans hpr.2) ▸ ha)
    exact ⟨by simp [haq, hab.1], by simp [hbr, hab.2]⟩
  · exact ⟨by simp, by simp⟩

/-- Unlinking any node of a ring with at least two nodes: its neighbours `q`
and `r` are linked to each other and the order of the others is kept. -/
theorem remove [DecidableEq ι] (h : IsRing k (l₁ ++ p :: l₂)) (hne : l₁ ++ l₂ ≠ []) :
    ∃ q r, k.prev p = some q ∧ k.next p = some r ∧ q ∈ l₁ ++ l₂ ∧ r ∈ l₁ ++ l₂ ∧
      IsRing ⟨Function.update k.next q (some r), Function.update k.prev r (some q)⟩
        (l₁ ++ l₂) := by
  have h' : IsRing k (p :: (l₂ ++ l₁)) := by simpa using h.append_comm
  have hne' : l₂ ++ l₁ ≠ [] := by simpa [and_comm] using hne
  obtain ⟨hq, hr, hring⟩ := h'.remove_head hne'
  have hmem : ∀ a, a ∈ l₂ ++ l₁ → a ∈ l₁ ++ l₂ := fun a ha => by
    simpa [or_comm] using ha
  exact ⟨_, _, hq, hr, hmem _ (List.getLast_mem hne'), hmem _ (List.head_mem hne'),
    hring.append_comm⟩

end IsRing

/-! ## Reading a ring -/

/-- Follow `next` from `x` up to and including `t`, for at most `n` nodes. -/
def walk [DecidableEq ι] (k : Links ι) (t : ι) : ℕ → Option ι → List ι
  | 0, _ => []
  | _ + 1, none => []
  | n + 1, some x => if x = t then [x] else x :: walk k t n (k.next x)

/-- The nodes of the ring with tail pointer `tp`, head first. -/
def ringList [DecidableEq ι] (k : Links ι) (n : ℕ) (tp : Option ι) : List ι :=
  match tp with
  | none => []
  | some t => walk k t n (k.next t)

theorem walk_chain [DecidableEq ι] {k : Links ι} {t : ι} :
    ∀ {l : List ι} {x : ι} {n : ℕ}, (x :: l).IsChain k.Adj → (x :: l).Nodup →
      (x :: l).getLast (by simp) = t → (x :: l).length ≤ n → walk k t n (some x) = x :: l := by
  intro l
  induction l with
  | nil =>
    intro x n _ _ ht hn
    obtain ⟨m, rfl⟩ : ∃ m, n = m + 1 := ⟨n - 1, by simp at hn; omega⟩
    have ht' : x = t := by simpa using ht
    simp [walk, ht']
  | cons y l ih =>
    intro x n hch hnd ht hn
    obtain ⟨m, rfl⟩ : ∃ m, n = m + 1 := ⟨n - 1, by simp at hn; omega⟩
    rw [List.getLast_cons (by simp)] at ht
    have hxt : x ≠ t := by
      rintro rfl
      exact (List.nodup_cons.mp hnd).1 (ht ▸ List.getLast_mem _)
    rw [walk, if_neg hxt, hch.rel.1,
      ih (List.IsChain.tail hch) (List.nodup_cons.mp hnd).2 ht (by simpa using hn)]

/-- The list read off a ring is the list of its nodes. -/
theorem IsRing.ringList_eq [DecidableEq ι] {k : Links ι} {l : List ι} {n : ℕ}
    (h : IsRing k l) (hn : l.length ≤ n) : ringList k n l.getLast? = l := by
  cases l with
  | nil => rfl
  | cons x t =>
    obtain ⟨hnd, hch, hlast⟩ := IsRing.cons_iff.mp h
    rw [List.getLast?_eq_some_getLast (by simp), ringList, hlast.1]
    exact walk_chain hch hnd rfl hn

/-! ## Lines -/

/-- The nodes of `l`, in this order, form one line that ends in null on both
sides. -/
structure IsLine (k : Links ι) (l : List ι) : Prop where
  /-- no node occurs twice -/
  nodup : l.Nodup
  /-- each node is linked to the one after it -/
  chain : l.IsChain k.Adj
  /-- nothing precedes the head -/
  head : ∀ x ∈ l.head?, k.prev x = none
  /-- nothing follows the last node -/
  last : ∀ x ∈ l.getLast?, k.next x = none

namespace IsLine

variable {k k' : Links ι} {l l₁ l₂ : List ι} {x p : ι}

theorem nil : IsLine k [] := ⟨List.nodup_nil, List.isChain_nil, by simp, by simp⟩

/-- A line only depends on the pointers of its own nodes. -/
theorem congr (h : IsLine k l) (hn : ∀ x ∈ l, k'.next x = k.next x)
    (hp : ∀ x ∈ l, k'.prev x = k.prev x) : IsLine k' l := by
  refine ⟨h.nodup, h.chain.imp_of_mem_imp ?_, ?_, ?_⟩
  · intro a b ha hb hab
    exact ⟨(hn a ha).trans hab.1, (hp b hb).trans hab.2⟩
  · intro a ha
    exact (hp a (List.mem_of_mem_head? ha)).trans (h.head a ha)
  · intro a ha
    exact (hn a (List.mem_of_mem_getLast? ha)).trans (h.last a ha)

/-- The head of a line has nothing before it. -/
theorem prev_head (h : IsLine k (x :: l)) : k.prev x = none := h.head x rfl

/-- What follows a node of a line. -/
theorem next_eq (h : IsLine k (l₁ ++ x :: l₂)) : k.next x = l₂.head? := by
  cases l₂ with
  | nil => exact h.last x (by simp)
  | cons y l₂ => exact (List.isChain_append.mp h.chain).2.1.rel.1

/-- What follows the head of a line. -/
theorem next_head (h : IsLine k (x :: l)) : k.next x = l.head? := by
  have happ : IsLine k ([] ++ x :: l) := h
  exact happ.next_eq

/-- Walking a line from its head. -/
theorem walk {P : Option ι → List ι → Prop} (hnil : P none [])
    (hcons : ∀ x l, P (k.next x) l → P (some x) (x :: l)) (hchain : l.IsChain k.Adj)
    (hlast : ∀ x ∈ l.getLast?, k.next x = none) : P l.head? l := by
  induction l with
  | nil => exact hnil
  | cons x l ih =>
    have hnext : k.next x = l.head? := by
      cases l with
      | nil => exact hlast x rfl
      | cons y l => exact hchain.rel.1
    refine hcons x l (hnext ▸ ih hchain.tail fun y hy => hlast y ?_)
    cases l with
    | nil => cases hy
    | cons z l => exact hy

/-- What precedes a node behind the head of a line. -/
theorem prev_eq {a : ι} (h : IsLine k (l₁ ++ a :: x :: l₂)) : k.prev x = some a :=
  (List.isChain_append.mp h.chain).2.1.rel.2

/-- A fresh node becomes a line of its own. -/
theorem singleton (hn : k.next x = none) (hp : k.prev x = none) : IsLine k [x] :=
  ⟨List.nodup_singleton x, List.isChain_singleton x, by simpa using hp, by simpa using hn⟩

/-- Pushing a fresh node in front of the head `x`. -/
theorem push [DecidableEq ι] (h : IsLine k (x :: l)) (hp : p ∉ x :: l) :
    IsLine ⟨Function.update k.next p (some x),
      Function.update (Function.update k.prev x (some p)) p none⟩ (p :: x :: l) := by
  have hxp : x ≠ p := fun e => hp (by simp [e])
  refine ⟨List.nodup_cons.mpr ⟨hp, h.nodup⟩, List.isChain_cons_cons.mpr ⟨?_, ?_⟩, ?_, ?_⟩
  · exact ⟨by simp, by simp [hxp]⟩
  · refine h.chain.imp_of_mem_tail_imp ?_
    intro a b ha hb hab
    have hbx : b ≠ x := fun e => (List.nodup_cons.mp h.nodup).1 (e ▸ hb)
    have hap : a ≠ p := fun e => hp (e ▸ ha)
    have hbp : b ≠ p := fun e => hp (e ▸ List.mem_cons_of_mem _ hb)
    exact ⟨by simp [hap, hab.1], by simp [hbx, hbp, hab.2]⟩
  · simp
  · intro a ha
    have hal : a ∈ (x :: l).getLast? := by simpa using ha
    have hap : a ≠ p := fun e => hp (e ▸ List.mem_of_mem_getLast? hal)
    simpa [hap] using h.last a hal

/-- Dropping the head of a line with another node behind it. -/
theorem tail [DecidableEq ι] (h : IsLine k (p :: x :: l)) :
    IsLine ⟨k.next, Function.update k.prev x none⟩ (x :: l) := by
  have hnd := (List.nodup_cons.mp h.nodup).2
  refine ⟨hnd, ?_, by simp, fun a ha => h.last a (by simpa using ha)⟩
  refine (List.IsChain.tail h.chain).imp_of_mem_tail_imp ?_
  intro a b _ hb hab
  have hbx : b ≠ x := fun e => (List.nodup_cons.mp hnd).1 (e ▸ hb)
  exact ⟨hab.1, by simp [hbx, hab.2]⟩

/-- A chain does not notice a write to the forward pointer of its last node. -/
theorem isChain_concat {a : ι} (h : (l ++ [a]).IsChain k.Adj)
    (hn : ∀ x ∈ l, k'.next x = k.next x) (hp : ∀ x ∈ l ++ [a], k'.prev x = k.prev x) :
    (l ++ [a]).IsChain k'.Adj := by
  obtain ⟨hl, -, hadj⟩ := List.isChain_append.mp h
  refine List.isChain_append.mpr ⟨hl.imp_of_mem_imp ?_, List.isChain_singleton a, ?_⟩
  · intro x y hx hy hxy
    exact ⟨(hn x hx).trans hxy.1, (hp y (List.mem_append_left _ hy)).trans hxy.2⟩
  · intro x hx y hy
    obtain rfl : a = y := by simpa using hy
    have hxy := hadj x hx a rfl
    exact ⟨(hn x (List.mem_of_mem_getLast? hx)).trans hxy.1, (hp a (by simp)).trans hxy.2⟩

/-- Dropping the last node of a line, behind `a`. -/
theorem dropLast [DecidableEq ι] {a : ι} (h : IsLine k (l ++ [a, p])) :
    IsLine ⟨Function.update k.next a none, k.prev⟩ (l ++ [a]) := by
  have hsplit : l ++ [a, p] = l ++ [a] ++ [p] := by simp
  rw [hsplit] at h
  have hnd := (List.nodup_append.mp h.nodup).1
  have hla : ∀ x ∈ l, x ≠ a := fun x hx => (List.nodup_append.mp hnd).2.2 x hx a (by simp)
  refine ⟨hnd, isChain_concat (List.isChain_append.mp h.chain).1 ?_ fun _ _ => rfl, ?_, ?_⟩
  · exact fun x hx => Function.update_of_ne (hla x hx) _ _
  · intro x hx
    exact h.head x (by cases l <;> simpa using hx)
  · simp

/-- Unlinking a node between `a` and `b`. -/
theorem unlink [DecidableEq ι] {a b : ι} (h : IsLine k (l₁ ++ a :: p :: b :: l₂)) :
    IsLine ⟨Function.update k.next a (some b), Function.update k.prev b (some a)⟩
      (l₁ ++ a :: b :: l₂) := by
  have hsplit : l₁ ++ a :: p :: b :: l₂ = l₁ ++ [a] ++ [p] ++ b :: l₂ := by simp
  have hgoal : l₁ ++ a :: b :: l₂ = l₁ ++ [a] ++ b :: l₂ := by simp
  rw [hsplit] at h
  obtain ⟨hchl, hchr, -⟩ := List.isChain_append.mp h.chain
  have hnd : (l₁ ++ [a] ++ b :: l₂).Nodup := h.nodup.sublist (by simp)
  obtain ⟨hndl, hndr, hdisj⟩ := List.nodup_append.mp hnd
  have hla : ∀ x ∈ l₁, x ≠ a := fun x hx => (List.nodup_append.mp hndl).2.2 x hx a (by simp)
  have hlb : ∀ x ∈ l₁ ++ [a], x ≠ b := fun x hx => hdisj x hx b (by simp)
  have har : ∀ x ∈ b :: l₂, x ≠ a := fun x hx e => hdisj a (by simp) x hx e.symm
  rw [hgoal]
  refine ⟨hnd, List.isChain_append.mpr ⟨?_, ?_, ?_⟩, ?_, ?_⟩
  · refine isChain_concat (List.isChain_append.mp hchl).1 ?_ ?_
    · exact fun x hx => Function.update_of_ne (hla x hx) _ _
    · exact fun x hx => Function.update_of_ne (hlb x hx) _ _
  · refine hchr.imp_of_mem_tail_imp ?_
    intro x y hx hy hxy
    have hyb : y ≠ b := fun e => (List.nodup_cons.mp hndr).1 (e ▸ hy)
    exact ⟨by simp [har x hx, hxy.1], by simp [hyb, hxy.2]⟩
  · intro x hx y hy
    obtain rfl : a = x := by simpa using hx
    obtain rfl : b = y := by simpa using hy
    exact ⟨by simp, by simp⟩
  · intro x hx
    have hxa : x ∈ (l₁ ++ [a]).head? := by cases l₁ <;> simpa using hx
    have hxb : x ≠ b := hlb x (List.mem_of_mem_head? hxa)
    have hxp := h.head x (by cases l₁ <;> simpa using hx)
    simpa [hxb] using hxp
  · intro x hx
    have hxr : x ∈ (b :: l₂).getLast? := by
      rw [List.getLast?_append_of_ne_nil _ (by simp)] at hx
      exact hx
    have hxa : x ≠ a := har x (List.mem_of_mem_getLast? hxr)
    have hxl := h.last x (by rw [List.getLast?_append_of_ne_nil _ (by simp)]; exact hxr)
    simpa [hxa] using hxl

end IsLine

end LinkedRing
