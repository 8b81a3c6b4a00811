import Jaeos.Reach

/-!
# What the recursive kill leaves behind

`Abs.purge` takes a list of processes out of everything and puts them at the end of the
free list. `wp_nuke_exact` says that `nukeItTilItPukes` does this to the subtree of the
current process and to nobody else. The induction is on the number of descendants:
both calls of a round of the loop have fewer, since the child that is removed is in neither.
-/

namespace Jaeos

open Forest

variable {n : ℕ}

/-! ## Descendants -/

section

variable {parent : Fin n → Option (Fin n)} {p x : Fin n} {fs : List (Fin n)}

/-- A process without children has no descendants. -/
theorem not_descends_of_leaf (h : ∀ x, parent x ≠ some p) : ¬ Descends parent p x := by
  intro hx
  obtain ⟨y, hy, -⟩ := Relation.TransGen.head'_iff.mp hx
  exact h y hy

/-- Making a process a root does not change what is below it. -/
theorem descends_update_self (h : Acyclic parent) :
    Descends (Function.update parent p none) p x ↔ Descends parent p x := by
  constructor
  · intro hx
    refine Relation.TransGen.mono (fun a b hb => ?_) p x hx
    by_cases hbp : b = p
    · simp [hbp] at hb
    · rwa [Function.update_of_ne hbp] at hb
  · intro hx
    -- a path that comes back to `p` would be a cycle
    have hne : ∀ y, Descends parent p y → y ≠ p := by
      rintro y hy rfl
      exact h.irrefl hy
    induction hx with
    | single hstep =>
      apply Relation.TransGen.single
      rwa [Function.update_of_ne (hne _ (.single hstep))]
    | tail hpath hstep ih =>
      apply ih.tail
      rwa [Function.update_of_ne (hne _ (.tail hpath hstep))]

/-- What is left below a process when `fs` is gone, with all that is below it. -/
theorem descends_of_closed (hclosed : ∀ a b, parent b = some a → a ∈ fs → b ∈ fs) :
    Descends (fun b => if b ∈ fs then none else parent b) p x ↔
      Descends parent p x ∧ x ∉ fs := by
  have hedge : ∀ a b, (if b ∈ fs then none else parent b) = some a ↔
      parent b = some a ∧ b ∉ fs := by
    intro a b
    by_cases hb : b ∈ fs
    · simp [hb]
    · simp [hb]
  constructor
  · intro hx
    refine ⟨Relation.TransGen.mono (fun a b hb => ((hedge a b).mp hb).1) p x hx, ?_⟩
    obtain ⟨y, -, hy⟩ := Relation.TransGen.tail'_iff.mp hx
    exact ((hedge y x).mp hy).2
  · rintro ⟨hx, hxfs⟩
    induction hx with
    | single hstep => exact .single ((hedge _ _).mpr ⟨hstep, hxfs⟩)
    | tail hpath hstep ih =>
      have hb := fun hb => hxfs (hclosed _ _ hstep hb)
      exact (ih hb).tail ((hedge _ _).mpr ⟨hstep, hxfs⟩)

end

/-- `gs` are the process `child` and those below it. -/
structure IsTree (parent : Fin n → Option (Fin n)) (child : Fin n) (gs : List (Fin n)) : Prop where
  /-- none occurs twice -/
  nodup : gs.Nodup
  /-- the processes of the tree -/
  mem : ∀ x, x ∈ gs ↔ x = child ∨ Descends parent child x

section

variable {parent : Fin n → Option (Fin n)} {p child x : Fin n} {fs gs ds : List (Fin n)}

/-- The processes below the child and then itself are its tree. -/
theorem IsTree.of_below (hirrefl : ¬ Descends parent child child) (hnd : fs.Nodup)
    (hfs : ∀ x, x ∈ fs ↔ Descends parent child x) : IsTree parent child (fs ++ [child]) := by
  have hchild : child ∉ fs := fun hc => hirrefl ((hfs child).mp hc)
  refine ⟨hnd.append (List.nodup_singleton child) (by simpa using hchild), fun x => ?_⟩
  rw [List.mem_append, List.mem_singleton, hfs, or_comm]

/-- The tree of a child is below the parent. -/
theorem IsTree.descends (h : IsTree parent child gs) (hparent : parent child = some p)
    (hx : x ∈ gs) : Descends parent p x := by
  rcases (h.mem x).mp hx with rfl | hx
  · exact .single hparent
  · exact .trans (.single hparent) hx

/-- The children of a process of the tree are in it. -/
theorem IsTree.closed (h : IsTree parent child gs) (a b : Fin n) (hb : parent b = some a)
    (ha : a ∈ gs) : b ∈ gs := by
  refine (h.mem b).mpr (.inr ?_)
  rcases (h.mem a).mp ha with rfl | ha
  · exact .single hb
  · exact ha.tail hb

/-- The bound on the processes below `p` leaves one less when one of them is put aside. -/
theorem length_lt_of_descends {fuel : ℕ}
    (hfuel : ∀ ds : List (Fin n), ds.Nodup → (∀ x ∈ ds, Descends parent p x) →
      ds.length < fuel + 1)
    (hchild : Descends parent p child) (hnd : ds.Nodup) (hds : ∀ x ∈ ds, Descends parent p x)
    (hnot : child ∉ ds) : ds.length < fuel := by
  have hlen := hfuel (child :: ds) (List.nodup_cons.mpr ⟨hnot, hnd⟩)
    (List.forall_mem_cons.mpr ⟨hchild, hds⟩)
  simpa using hlen

end

/-- The others of a list, when one of `fs` has been taken out of it before. -/
theorem filter_erase_of_mem {fs : List (Fin n)} {p : Fin n} (hp : p ∈ fs) (xs : List (Fin n)) :
    (xs.erase p).filter (· ∉ fs) = xs.filter (· ∉ fs) := by
  by_cases hxs : p ∈ xs
  · obtain ⟨l₁, l₂, -, rfl, herase⟩ := List.exists_erase_eq hxs
    rw [herase]
    simp [hp]
  · rw [List.erase_of_not_mem hxs]

/-! ## Taking processes out of everything -/

/-- The processes of `fs` are freed, in this order. -/
def Lists.purge (l : Lists n) (fs : List (Fin n)) : Lists n where
  q i := if i = .free then l.q .free ++ fs else (l.q i).filter (· ∉ fs)
  parent p := if p ∈ fs then none else l.parent p
  kids p := if p ∈ fs then [] else (l.kids p).filter (· ∉ fs)
  semAdd := l.semAdd

/-- Clear the times and the trap areas of the processes of `fs`. -/
def PcbData.purge (d : PcbData n) (fs : List (Fin n)) : PcbData n := { d with
  pTime := fun p => if p ∈ fs then 0 else d.pTime p
  trap := fun p => if p ∈ fs then TrapAreas.none else d.trap p }

namespace Lists

variable {l : Lists n} {fs gs : List (Fin n)} {p r : Fin n} {i : Place} {cur : Option (Fin n)}

@[simp] theorem purge_semAdd : (l.purge fs).semAdd = l.semAdd := rfl

@[simp] theorem purge_parent :
    (l.purge fs).parent = fun p => if p ∈ fs then none else l.parent p := rfl

@[simp] theorem purge_free : (l.purge fs).q .free = l.q .free ++ fs := by simp [purge]

theorem purge_q (hi : i ≠ .free) : (l.purge fs).q i = (l.q i).filter (· ∉ fs) := if_neg hi

theorem purge_kids (hp : p ∉ fs) : (l.purge fs).kids p = (l.kids p).filter (· ∉ fs) := if_neg hp

@[simp] theorem purge_nil : l.purge [] = l := by
  cases l
  simp only [purge, mk.injEq, and_true]
  refine ⟨?_, ?_, ?_⟩
  · funext i
    by_cases hi : i = .free
    · simp [hi]
    · simp [hi]
  · simp
  · simp

/-- Some processes, and then others. -/
theorem purge_purge : (l.purge fs).purge gs = l.purge (fs ++ gs) := by
  have hfilter : ∀ xs : List (Fin n), (xs.filter (· ∉ fs)).filter (· ∉ gs) =
      xs.filter (· ∉ fs ++ gs) := by
    intro xs
    rw [List.filter_filter]
    refine List.filter_congr fun x _ => ?_
    by_cases hx : x ∈ fs
    · simp [hx]
    · simp [hx]
  simp only [purge, mk.injEq, and_true]
  refine ⟨?_, ?_, ?_⟩
  · funext i
    by_cases hi : i = .free
    · simp [hi]
    · simp only [if_neg hi, hfilter]
  · funext p
    by_cases hp : p ∈ fs
    · simp [hp]
    · simp [hp]
  · funext p
    by_cases hp : p ∈ fs
    · simp [hp]
    · by_cases hp' : p ∈ gs
      · simp [hp']
      · simp only [hp, hp', List.mem_append, or_self, if_false, hfilter]

/-- Before a process is freed, it may as well come off the tree. -/
theorem orphan_purge (hp : p ∈ fs) (hparent : l.parent p = some r) :
    (l.orphan r p).purge fs = l.purge fs := by
  simp only [purge, orphan, mk.injEq, true_and, and_true]
  refine ⟨?_, ?_⟩
  · funext x
    by_cases hx : x = p
    · simp [hx, hp]
    · simp [hx]
  · funext x
    by_cases hx : x = r
    · subst hx
      by_cases hxfs : x ∈ fs
      · simp [hxfs]
      · simp only [if_neg hxfs, eraseKid, Function.update_self]
        exact filter_erase_of_mem hp _
    · simp [eraseKid, hx]

/-- Freeing a process without parent and children does not touch the tree. -/
theorem Ok.purge_eq (h : l.Ok cur) (hiso : l.Isolated p) {q : Place → List (Fin n)}
    (hq : (l.purge [p]).q = q) : l.purge [p] = { l with q := q } := by
  obtain ⟨hparent, hkids⟩ := hiso
  have hfilter : ∀ x, (l.kids x).filter (· ∉ [p]) = l.kids x := by
    intro x
    refine List.filter_eq_self.mpr fun y hy => ?_
    have hyp : y ≠ p := by
      rintro rfl
      exact h.forest.notMem_of_root hparent x hy
    simpa using hyp
  subst hq
  simp only [purge, mk.injEq, true_and, and_true]
  refine ⟨?_, ?_⟩
  · funext x
    by_cases hx : x = p
    · simp [hx, hparent]
    · simp [hx]
  · funext x
    by_cases hx : x = p
    · simp [hx, hkids]
    · rw [if_neg (by simpa using hx), hfilter]

/-- The queue of a process without that process. -/
theorem Ok.filter_eq (h : l.Ok cur) (i : Place) :
    (l.q i).filter (· ∉ [p]) = (l.q i).erase p := by
  rw [(h.placed.nodup i).erase_eq_filter]
  refine List.filter_congr fun x _ => ?_
  by_cases hx : x = p
  · simp [hx]
  · simp [hx]

/-- A process without parent and children that waits in a queue. -/
theorem Ok.purge_queued (h : l.Ok cur) (hi : i ≠ .free) (hp : p ∈ l.q i) (hiso : l.Isolated p) :
    (l.setQ i ((l.q i).erase p)).append .free p = l.purge [p] := by
  refine (h.purge_eq hiso ?_).symm
  funext j
  by_cases hj : j = .free
  · subst hj
    simp [hi.symm]
  · rw [purge_q hj, h.filter_eq, Function.update_of_ne hj, setQ_q]
    by_cases hji : j = i
    · rw [hji, Function.update_self]
    · rw [Function.update_of_ne hji, List.erase_of_not_mem]
      exact fun hpj => hji (h.placed.eq_of_mem hp hpj)

/-- A process without parent and children that runs. -/
theorem Ok.purge_cur (h : l.Ok (some p)) (hiso : l.Isolated p) :
    l.append .free p = l.purge [p] := by
  refine (h.purge_eq hiso ?_).symm
  funext j
  by_cases hj : j = .free
  · subst hj
    simp
  · rw [purge_q hj, h.filter_eq, Function.update_of_ne hj,
      List.erase_of_not_mem (h.cur_loose j)]

/-- Who waits after the processes of `fs` are gone. -/
theorem mem_purge_q (hi : i ≠ .free) : p ∈ (l.purge fs).q i ↔ p ∈ l.q i ∧ p ∉ fs := by
  rw [purge_q hi, List.mem_filter, decide_eq_true_iff]

/-- Freeing processes with all that is below them keeps the lists in order. -/
theorem Ok.purge {cur' : Option (Fin n)} (h : l.Ok cur) (hnd : fs.Nodup)
    (hfree : ∀ x ∈ fs, x ∉ l.q .free) (hcur : ∀ x, x ∈ cur' ↔ x ∈ cur ∧ x ∉ fs)
    (hclosed : ∀ a b, l.parent b = some a → a ∈ fs → b ∈ fs) : (l.purge fs).Ok cur' := by
  have hplaced : Placed (l.purge fs).q cur'.toList :=
    h.placed.gather hnd hfree (by cases cur' <;> simp) (by simpa using hcur)
  refine ⟨hplaced, h.forest.prune hclosed, h.acyclic.prune fs, ?_, ?_, ?_⟩
  · intro x hx
    by_cases hxfs : x ∈ fs
    · exact ⟨if_pos hxfs, if_pos hxfs⟩
    · have hxfree : x ∈ l.q .free := by
        rw [purge_free] at hx
        exact (List.mem_append.mp hx).resolve_right hxfs
      obtain ⟨hparent, hkids⟩ := h.free x hxfree
      refine ⟨?_, ?_⟩
      · rw [purge_parent]
        simp [hxfs, hparent]
      · rw [purge_kids hxfs, hkids]
        rfl
  · intro a x hx
    exact h.blocked a x ((mem_purge_q (by simp)).mp hx).1
  · rw [purge_q (by simp), h.null]
    rfl

end Lists

/-! ## The words and the counts -/

/-- How many of `fs` are blocked on `a`. -/
def Lists.waiting (l : Lists n) (fs : List (Fin n)) (a : ℕ) : ℕ := fs.countP (· ∈ l.q (.blocked a))

/-- A process below another one is not free. -/
theorem Lists.Ok.notMem_free_of_descends {l : Lists n} {cur : Option (Fin n)} {p x : Fin n}
    (h : l.Ok cur) (hx : Descends l.parent p x) : x ∉ l.q .free := by
  obtain ⟨y, -, hy⟩ := Relation.TransGen.tail'_iff.mp hx
  intro hfree
  rw [(h.free x hfree).1] at hy
  cases hy

/-- Neither is one that has a child. -/
theorem Lists.Ok.notMem_free_of_parent {l : Lists n} {cur : Option (Fin n)} {p x : Fin n}
    (h : l.Ok cur) (hx : l.parent x = some p) : p ∉ l.q .free := by
  intro hfree
  have hkid := (h.forest.mem p x).mpr hx
  rw [(h.free p hfree).2] at hkid
  cases hkid

/-- Freeing the tree of a child keeps the lists in order. -/
theorem Lists.Ok.purge_tree {l : Lists n} {cur : Option (Fin n)} {p child : Fin n}
    {gs : List (Fin n)} (hok : l.Ok cur) (htree : IsTree l.parent child gs)
    (hparent : l.parent child = some p) (hcur : ∀ x, Descends l.parent p x → cur ≠ some x) :
    (l.purge gs).Ok cur := by
  refine hok.purge htree.nodup (fun x hx => ?_) (fun x => ?_) htree.closed
  · exact hok.notMem_free_of_descends (htree.descends hparent hx)
  · exact ⟨fun hx => ⟨hx, fun hxgs => hcur x (htree.descends hparent hxgs) hx⟩, And.left⟩

variable [Layout]

/-- How many of `fs` are blocked on a device or the clock. -/
def Lists.devWaiting (l : Lists n) (fs : List (Fin n)) : ℕ :=
  fs.countP fun x => IsDevSem (l.semAdd x) ∧ x ∈ l.q (.blocked (l.semAdd x))

/-- The processes of `fs` are freed, in this order, with the compensation of the semaphores they
were blocked on. -/
def Abs.purge (s : Abs n) (fs : List (Fin n)) : Abs n := { s with
  mem := fun a => if IsDevSem a then s.mem a
    else s.mem a + BitVec.ofNat 32 (s.lists.waiting fs a)
  processCount := s.processCount - fs.length
  softBlockCount := s.softBlockCount - s.lists.devWaiting fs
  data := s.data.purge fs
  lists := s.lists.purge fs }

namespace Lists

variable {l : Lists n} {fs gs : List (Fin n)} {p : Fin n} {a : ℕ} {cur : Option (Fin n)}

omit [Layout] in
@[simp] theorem waiting_nil : l.waiting [] a = 0 := rfl

@[simp] theorem devWaiting_nil : l.devWaiting [] = 0 := rfl

omit [Layout] in
theorem waiting_append : l.waiting (fs ++ gs) a = l.waiting fs a + l.waiting gs a :=
  List.countP_append ..

theorem devWaiting_append : l.devWaiting (fs ++ gs) = l.devWaiting fs + l.devWaiting gs :=
  List.countP_append ..

omit [Layout] in
/-- Those that are left still wait in the same queues. -/
theorem waiting_purge (hdis : ∀ x ∈ gs, x ∉ fs) : (l.purge fs).waiting gs a = l.waiting gs a :=
  List.countP_congr fun x hx => by simp [mem_purge_q, hdis x hx]

theorem devWaiting_purge (hdis : ∀ x ∈ gs, x ∉ fs) :
    (l.purge fs).devWaiting gs = l.devWaiting gs :=
  List.countP_congr fun x hx => by simp [mem_purge_q, hdis x hx]

omit [Layout] in
/-- A process that is blocked waits on its semaphore only. -/
theorem Ok.waiting_blocked (h : l.Ok cur) (hp : p ∈ l.q (.blocked a)) (b : ℕ) :
    l.waiting [p] b = if b = a then 1 else 0 := by
  split
  case isTrue hb =>
    subst hb
    simp [waiting, hp]
  case isFalse hb =>
    have hpb : p ∉ l.q (.blocked b) := fun hpb => hb (Place.blocked.inj (h.placed.eq_of_mem hp hpb))
    simp [waiting, hpb]

/-- It counts if its semaphore is that of a device or the clock. -/
theorem Ok.devWaiting_blocked (h : l.Ok cur) (hp : p ∈ l.q (.blocked a)) :
    l.devWaiting [p] = if IsDevSem a then 1 else 0 := by
  obtain rfl := h.blocked a p hp
  by_cases ha : IsDevSem (l.semAdd p)
  · simp [devWaiting, ha, hp]
  · simp [devWaiting, ha]

omit [Layout] in
/-- A process that is not blocked does not wait. -/
theorem waiting_of_notMem (hp : ∀ a, p ∉ l.q (.blocked a)) : l.waiting [p] a = 0 := by
  simp [waiting, hp]

theorem devWaiting_of_notMem (hp : ∀ a, p ∉ l.q (.blocked a)) : l.devWaiting [p] = 0 := by
  simp [devWaiting, hp]

end Lists

namespace Abs

variable {s : Abs n} {fs gs : List (Fin n)} {p r : Fin n}

@[simp] theorem purge_lists : (s.purge fs).lists = s.lists.purge fs := rfl

@[simp] theorem purge_currentProcess : (s.purge fs).currentProcess = s.currentProcess := rfl

@[simp] theorem purge_nil : s.purge [] = s := by
  cases s
  simp [purge, PcbData.purge]

/-- Some processes, and then others. -/
theorem purge_purge (hdis : ∀ x ∈ gs, x ∉ fs) : (s.purge fs).purge gs = s.purge (fs ++ gs) := by
  simp only [purge, Lists.purge_purge, Lists.waiting_purge hdis, Lists.devWaiting_purge hdis,
    Lists.waiting_append, Lists.devWaiting_append, List.length_append, PcbData.purge,
    Abs.mk.injEq, Globals.mk.injEq, PcbData.mk.injEq, true_and, and_true]
  refine ⟨⟨?_, ?_, ?_⟩, ?_, ?_⟩
  · funext a
    by_cases ha : IsDevSem a
    · simp only [if_pos ha]
    · simp only [if_neg ha]
      rw [BitVec.add_assoc, ← BitVec.ofNat_add]
  · push_cast
    ring
  · push_cast
    ring
  · funext x
    by_cases hx : x ∈ fs
    · simp [hx]
    · simp [hx]
  · funext x
    by_cases hx : x ∈ fs
    · simp [hx]
    · simp [hx]

/-- Before a process is freed, it may as well come off the tree. -/
theorem orphan_purge (hp : p ∈ fs) (hparent : s.lists.parent p = some r) :
    (s.setLists (s.lists.orphan r p)).purge fs = s.purge fs := by
  rw [purge, purge]
  simp only [setLists_lists, Lists.orphan_purge hp hparent]
  rfl

/-- Only the words, the counts, the fields of the PCBs and the lists change. -/
theorem of_purge {s' : Abs n} {Q : Abs n → Prop} (hQ : Q (s.purge fs))
    (hlists : s'.lists = s.lists.purge fs) (hdata : s'.data = s.data.purge fs)
    (hglobals : s'.toGlobals = (s.purge fs).toGlobals) : Q s' := by
  have heq : s' = s.purge fs := by
    cases s'
    simp only at hlists hdata hglobals
    rw [hlists, hdata, hglobals]
    rfl
  rwa [heq]

end Abs

/-! ## The end of the kill -/

omit [Layout] in
theorem PcbData.wash_eq (d : PcbData n) (p : Fin n) : d.wash p = d.purge [p] := by
  have hite : ∀ {β : Type} (f : Fin n → β) (b : β),
      Function.update f p b = fun x => if x ∈ [p] then b else f x := by
    intro β f b
    funext x
    by_cases hx : x = p
    · simp [hx]
    · simp [hx]
  rw [wash, purge, hite, hite]

section

variable {s : Abs n} {p : Fin n}

/-- The end of the kill of a process that does not run. -/
theorem wp_nukeLeaf_purge {Q : Unit → Abs n → Prop} (hok : s.lists.Ok s.currentProcess)
    (hcur : s.currentProcess ≠ some p) (halive : p ∉ s.lists.q .free) (hiso : s.lists.Isolated p)
    (hready : p ∈ s.lists.q .ready → s.lists.semAdd p = null) (hQ : Q () (s.purge [p])) :
    (nukeLeaf p).wp NucOp.spec Q s := by
  simp only [nukeLeaf, nukeDetach, Prog.wp_bind, Prog.wp_ite, wp_globals, wp_semAdd, if_neg hcur]
  obtain hr | ⟨i, hi⟩ := hok.placed.cover p
  · exact absurd (by simpa using hr) hcur
  have hloose : (s.lists.setQ i ((s.lists.q i).erase p)).Loose p :=
    (hok.placed.take hi).loose p (by simp)
  cases i with
  | free => exact absurd hi halive
  | ready =>
    rw [if_pos (hready hi), wp_outReady]
    refine ⟨fun hnot => absurd hi hnot, fun _ => ⟨hloose, hiso, ?_⟩⟩
    have hblocked : ∀ a, p ∉ s.lists.q (.blocked a) := fun a ha => by
      cases hok.placed.eq_of_mem hi ha
    refine Abs.of_purge (Q := Q ()) hQ (hok.purge_queued (by simp) hi hiso) (s.data.wash_eq p) ?_
    simp only [Abs.purge, Lists.waiting_of_notMem hblocked, Lists.devWaiting_of_notMem hblocked]
    simp
  | blocked a =>
    obtain rfl : s.lists.semAdd p = a := hok.blocked a p hi
    rw [if_neg (hok.ne_null hi), wp_outBlocked]
    refine ⟨fun hnot => absurd hi hnot, fun _ => ?_⟩
    have hlists := hok.purge_queued (by simp) hi hiso
    simp only [Prog.wp_bind, Prog.wp_ite, wp_semAdd]
    split
    case isTrue hdev =>
      have hdev : IsDevSem (s.lists.semAdd p) := hdev
      refine ⟨hloose, hiso, Abs.of_purge (Q := Q ()) hQ hlists (s.data.wash_eq p) ?_⟩
      simp only [Abs.purge, hok.waiting_blocked hi, hok.devWaiting_blocked hi, if_pos hdev]
      have hmem : (fun a => if IsDevSem a then s.mem a
          else s.mem a + BitVec.ofNat 32 (if a = s.lists.semAdd p then 1 else 0)) = s.mem := by
        funext a
        by_cases ha : a = s.lists.semAdd p
        · rw [ha, if_pos hdev]
        · simp [ha]
      rw [hmem]
      rfl
    case isFalse hdev =>
      have hdev : ¬ IsDevSem (s.lists.semAdd p) := hdev
      refine ⟨hloose, hiso, Abs.of_purge (Q := Q ()) hQ hlists (s.data.wash_eq p) ?_⟩
      simp only [Abs.purge, hok.waiting_blocked hi, hok.devWaiting_blocked hi, if_neg hdev]
      have hmem : (fun a => if IsDevSem a then s.mem a
          else s.mem a + BitVec.ofNat 32 (if a = s.lists.semAdd p then 1 else 0)) =
            Function.update s.mem (s.lists.semAdd p) (s.mem (s.lists.semAdd p) + 1) := by
        funext a
        by_cases ha : a = s.lists.semAdd p
        · rw [ha, if_neg hdev, if_pos rfl, Function.update_self]
          rfl
        · simp [ha]
      rw [hmem]
      simp [Globals.setMem]

/-- The end of the kill of the process that runs. -/
theorem wp_nukeLeaf_root {Q : Unit → Abs n → Prop} (hcur : s.currentProcess = some p)
    (hok : s.lists.Ok (some p)) (hkids : s.lists.kids p = []) (hQ : Q () (s.purge [p])) :
    (nukeLeaf p).wp NucOp.spec Q s := by
  simp only [nukeLeaf, nukeDetach, Prog.wp_bind, wp_globals, if_pos hcur]
  have hend : ∀ t : Abs n, t.lists.Ok (some p) → t.lists.Isolated p → Q () (t.purge [p]) →
      Q () (((t.setData (t.data.wash p)).setLists (t.lists.append .free p)).setGlobals
        { t.toGlobals with processCount := t.processCount - 1 }) := by
    intro t htok htiso htQ
    have hloose : ∀ a, p ∉ t.lists.q (.blocked a) := fun a => htok.cur_loose _
    refine Abs.of_purge (Q := Q ()) htQ (htok.purge_cur htiso) (t.data.wash_eq p) ?_
    simp only [Abs.purge, Lists.waiting_of_notMem hloose, Lists.devWaiting_of_notMem hloose]
    simp
  rw [wp_outChild]
  refine ⟨fun hnone => ⟨hok.cur_loose, ⟨hnone, hkids⟩, hend s hok ⟨hnone, hkids⟩ hQ⟩,
    fun r hr => ?_⟩
  have hpr : p ≠ r := by
    rintro rfl
    have hmem := (hok.forest.mem p p).mpr hr
    rw [hkids] at hmem
    cases hmem
  have hiso : (s.lists.orphan r p).Isolated p := by
    refine ⟨Function.update_self .., ?_⟩
    change Function.update s.lists.kids r _ p = []
    rw [Function.update_of_ne hpr, hkids]
  refine ⟨hok.cur_loose, hiso, hend (s.setLists (s.lists.orphan r p)) (hok.orphan hr) hiso ?_⟩
  rwa [Abs.orphan_purge (by simp) hr]

end

/-! ## The recursion -/

section

variable {s : Abs n} {p child : Fin n} {fs : List (Fin n)}

/-- The end of the kill of a child, when the processes below it are gone. -/
theorem wp_nukeLeaf_below {Q : Unit → Abs n → Prop} (hok : s.lists.Ok s.currentProcess)
    (hsafe : ∀ q, Descends s.lists.parent p q → s.currentProcess ≠ some q ∧
      (q ∈ s.lists.q .ready → s.lists.semAdd q = null))
    (hparent : s.lists.parent child = some p) (hnd : fs.Nodup)
    (hfs : ∀ x, x ∈ fs ↔ Descends s.lists.parent child x) (hQ : Q () (s.purge (fs ++ [child]))) :
    (nukeLeaf child).wp NucOp.spec Q ((s.setLists (s.lists.orphan p child)).purge fs) := by
  have hchild : Descends s.lists.parent p child := .single hparent
  have hcfs : child ∉ fs := fun hc => hok.acyclic.irrefl ((hfs child).mp hc)
  have hdown : ∀ x ∈ fs, Descends s.lists.parent p x := fun x hx =>
    .trans hchild ((hfs x).mp hx)
  have hok₁ : ((s.lists.orphan p child).purge fs).Ok s.currentProcess := by
    refine (hok.orphan hparent).purge hnd (fun x hx => ?_) (fun x => ?_) ?_
    · exact hok.notMem_free_of_descends (hdown x hx)
    · exact ⟨fun hx => ⟨hx, fun hxfs => (hsafe x (hdown x hxfs)).1 hx⟩, And.left⟩
    · intro a b hb ha
      exact (hfs b).mpr (((hfs a).mp ha).tail (Lists.parent_of_orphan hb))
  have hiso : ((s.lists.orphan p child).purge fs).Isolated child := by
    have hroot : ((s.lists.orphan p child).purge fs).parent child = none := by
      simp [hcfs, Lists.orphan]
    refine ⟨hroot, List.eq_nil_iff_forall_not_mem.mpr fun y hy => ?_⟩
    have hy' := (hok₁.forest.mem child y).mp hy
    rw [Lists.purge_parent] at hy'
    dsimp only at hy'
    split at hy'
    · cases hy'
    case isFalse hyfs => exact hyfs ((hfs y).mpr (.single (Lists.parent_of_orphan hy')))
  refine wp_nukeLeaf_purge hok₁ (hsafe child hchild).1 ?_ hiso ?_ ?_
  · have halive := hok.notMem_free_of_descends hchild
    simpa [hcfs] using halive
  · intro hr
    exact (hsafe child hchild).2 ((Lists.mem_purge_q (by simp)).mp hr).1
  · rwa [Abs.purge_purge (by simpa using hcfs), Abs.orphan_purge (by simp) hparent]

/-- What the loop of the kill of `p` does: the processes below it are freed. -/
theorem wp_nuke_descendants {fuel : ℕ} {Q : Unit → Abs n → Prop}
    (hok : s.lists.Ok s.currentProcess)
    (hsafe : ∀ q, Descends s.lists.parent p q → s.currentProcess ≠ some q ∧
      (q ∈ s.lists.q .ready → s.lists.semAdd q = null))
    (hfuel : ∀ ds : List (Fin n), ds.Nodup → (∀ x ∈ ds, Descends s.lists.parent p x) →
      ds.length < fuel)
    (hQ : ∀ fs : List (Fin n), fs.Nodup → (∀ x, x ∈ fs ↔ Descends s.lists.parent p x) →
      (nukeLeaf p).wp NucOp.spec Q (s.purge fs)) :
    (nukeItTilItPukes fuel p).wp NucOp.spec Q s := by
  induction fuel generalizing s p Q with
  | zero => exact absurd (hfuel [] List.nodup_nil (by simp)) (by simp)
  | succ fuel ih =>
    rw [nukeItTilItPukes]
    simp only [Prog.wp_bind, Prog.wp_ite, wp_emptyChild, List.isEmpty_iff]
    split
    case isTrue hk =>
      have hleaf : ∀ x, s.lists.parent x ≠ some p := fun x hx => by
        have hmem := (hok.forest.mem p x).mpr hx
        rw [hk] at hmem
        cases hmem
      have hQ := hQ [] List.nodup_nil fun x => by simp [not_descends_of_leaf hleaf]
      rwa [Abs.purge_nil] at hQ
    case isFalse hk =>
      rw [wp_removeChild]
      refine ⟨fun hnil => absurd hnil hk, fun child ps hcons => ?_⟩
      have hparent : s.lists.parent child = some p := (hok.forest.mem p child).mp (by simp [hcons])
      have hchild : Descends s.lists.parent p child := .single hparent
      have hirrefl : ¬ Descends s.lists.parent child child := hok.acyclic.irrefl
      have hself : ∀ x, Descends (s.lists.orphan p child).parent child x ↔
          Descends s.lists.parent child x := fun x => descends_update_self hok.acyclic
      change (nukeItTilItPukes fuel child >>= fun _ => nukeItTilItPukes fuel p).wp _ _ _
      rw [Prog.wp_bind]
      -- the processes below the child go first, and then the child
      refine ih (s := s.setLists (s.lists.orphan p child)) (hok.orphan hparent) ?_ ?_ ?_
      · intro q hq
        exact hsafe q (.trans hchild ((hself q).mp hq))
      · intro ds hnd hds
        apply length_lt_of_descends hfuel hchild hnd
        · exact fun x hx => .trans hchild ((hself x).mp (hds x hx))
        · exact fun hc => hirrefl ((hself child).mp (hds child hc))
      intro fs hnd hfs
      replace hfs : ∀ x, x ∈ fs ↔ Descends s.lists.parent child x :=
        fun x => (hfs x).trans (hself x)
      apply wp_nukeLeaf_below hok hsafe hparent hnd hfs
      -- then the rest of the loop
      have htree := IsTree.of_below hirrefl hnd hfs
      generalize fs ++ [child] = gs at htree ⊢
      have hleft : ∀ x, Descends (s.lists.purge gs).parent p x ↔
          Descends s.lists.parent p x ∧ x ∉ gs := fun x => descends_of_closed htree.closed
      refine ih (s := s.purge gs) ?_ ?_ ?_ ?_
      · exact hok.purge_tree htree hparent fun x hx => (hsafe x hx).1
      · intro q hq
        obtain ⟨hqp, -⟩ := (hleft q).mp hq
        exact ⟨(hsafe q hqp).1, fun hr => (hsafe q hqp).2 ((Lists.mem_purge_q (by simp)).mp hr).1⟩
      · intro ds hndds hds
        apply length_lt_of_descends hfuel hchild hndds
        · exact fun x hx => ((hleft x).mp (hds x hx)).1
        · exact fun hc => ((hleft child).mp (hds child hc)).2 ((htree.mem child).mpr (.inl rfl))
      · intro hs hndhs hhs
        have hdis : ∀ x ∈ hs, x ∉ gs := fun x hx => ((hleft x).mp ((hhs x).mp hx)).2
        rw [Abs.purge_purge hdis]
        refine hQ (gs ++ hs) (htree.nodup.append hndhs fun x hx hxhs => hdis x hxhs hx)
          fun x => ?_
        rw [List.mem_append]
        constructor
        · rintro (hx | hx)
          · exact htree.descends hparent hx
          · exact ((hleft x).mp ((hhs x).mp hx)).1
        · intro hx
          by_cases hxgs : x ∈ gs
          · exact .inl hxgs
          · exact .inr ((hhs x).mpr ((hleft x).mpr ⟨hx, hxgs⟩))

end

/-- The contract of the recursive kill of the current process: the processes below it and then
itself are freed, and nobody else. -/
theorem wp_nuke_exact {s : Abs n} {p : Fin n} {Q : Unit → Abs n → Prop} (hok : s.lists.Ok (some p))
    (hcur : s.currentProcess = some p) (hsafe : s.core.KillSafe p)
    (hQ : ∀ fs : List (Fin n), fs.Nodup →
      (∀ x, x ∈ fs ↔ x = p ∨ Descends s.lists.parent p x) → Q () (s.purge fs)) :
    (nukeItTilItPukes (nukeFuel n) p).wp NucOp.spec Q s := by
  have hirrefl : ¬ Descends s.lists.parent p p := hok.acyclic.irrefl
  refine wp_nuke_descendants (hcur ▸ hok) (fun q hq => ⟨?_, hsafe q hq⟩) ?_ ?_
  · rw [hcur]
    rintro ⟨⟩
    exact hirrefl hq
  · intro ds hnd _
    have hlen := hnd.length_le_card
    rw [Fintype.card_fin] at hlen
    rw [nukeFuel, Nat.succ_mul]
    omega
  · intro fs hnd hfs
    have hpfs : p ∉ fs := fun hp => hirrefl ((hfs p).mp hp)
    have hok₁ : (s.lists.purge fs).Ok (some p) := by
      refine hok.purge hnd (fun x hx => ?_) (fun x => ?_) ?_
      · exact hok.notMem_free_of_descends ((hfs x).mp hx)
      · refine ⟨fun hx => ⟨hx, ?_⟩, And.left⟩
        obtain rfl : p = x := Option.some.inj hx
        exact hpfs
      · intro a b hb ha
        exact (hfs b).mpr (((hfs a).mp ha).tail hb)
    have hkids : (s.lists.purge fs).kids p = [] := by
      rw [Lists.purge_kids hpfs]
      refine List.filter_eq_nil_iff.mpr fun y hy => ?_
      have hyfs : y ∈ fs := (hfs y).mpr (.single ((hok.forest.mem p y).mp hy))
      simpa using hyfs
    refine wp_nukeLeaf_root (s := s.purge fs) hcur hok₁ hkids ?_
    rw [Abs.purge_purge (by simpa using hpfs)]
    refine hQ (fs ++ [p]) (hnd.append (List.nodup_singleton p) (by simpa using hpfs)) fun x => ?_
    rw [List.mem_append, List.mem_singleton, hfs, or_comm]

/-! ## On the store -/

/-- What the kill of the processes of `fs` leaves behind. -/
structure Nucleus.Nuked (c : Nucleus n) (fs : List (Fin n)) (c' : Nucleus n) : Prop where
  /-- the store represents what a reader sees -/
  rep : c'.Rep c'.abs
  /-- each process of `fs` has been freed once, and nobody else -/
  free : c'.store.freeList = c.store.freeList ++ fs
  /-- it is out of the ready queue, where the others keep their order -/
  ready : c'.store.readyList = c.store.readyList.filter (· ∉ fs)
  /-- and out of the queue of its semaphore -/
  blocked : ∀ a, c'.store.blockedOn a = (c.store.blockedOn a).filter (· ∉ fs)
  /-- it has no parent any more -/
  parent : ∀ p, c'.store.pPrnt p = if p ∈ fs then none else c.store.pPrnt p
  /-- it has no children, and is nobody's child -/
  children : ∀ p, c'.store.children p =
    if p ∈ fs then [] else (c.store.children p).filter (· ∉ fs)
  /-- the addresses are as they were -/
  semAdd : c'.store.pSemAdd = c.store.pSemAdd
  /-- so are the saved states -/
  pS : c'.store.pS = c.store.pS
  /-- the times of the others -/
  pTime : ∀ p, c'.store.pTime p = if p ∈ fs then 0 else c.store.pTime p
  /-- and their trap areas -/
  trap : ∀ p, c'.store.trap p = if p ∈ fs then TrapAreas.none else c.store.trap p
  /-- as many processes less -/
  processCount : c'.processCount = c.processCount - fs.length
  /-- as many less wait for a device or the clock -/
  softBlockCount : c'.softBlockCount =
    c.softBlockCount - fs.countP fun x => ∃ i < maxSema, x ∈ c.store.blockedOn (semArr i)
  /-- their semaphores are as they were -/
  device : ∀ i < maxSema, c'.mem (semArr i) = c.mem (semArr i)
  /-- each other word is raised by the number of those that were blocked on it -/
  word : ∀ a, (∀ i < maxSema, a ≠ semArr i) →
    c'.mem a = c.mem a + BitVec.ofNat 32 (fs.countP (· ∈ c.store.blockedOn a))
  /-- nothing else has changed -/
  globals : c'.toGlobals = { c.toGlobals with
    mem := c'.mem, processCount := c'.processCount, softBlockCount := c'.softBlockCount }

/-- The kill, when nobody is blocked inside a word of `semaphoreArray`. -/
theorem Nucleus.Nuked.of_purge {c c' : Nucleus n} {fs : List (Fin n)}
    (hok : c.store.lists.Ok c.currentProcess)
    (haddr : ∀ a, c.store.blockedOn a ≠ [] → AddrOk a) (hrep : c'.Rep (c.abs.purge fs)) :
    c.Nuked fs c' := by
  have habs : c'.abs = c.abs.purge fs := hrep.abs_eq
  have hlists : c'.store.lists = c.store.lists.purge fs := congrArg Abs.lists habs
  have hglobals : c'.toGlobals = (c.abs.purge fs).toGlobals := hrep.globals
  have hdata : c'.store.toPcbData = c.store.toPcbData.purge fs := hrep.store.data
  have hq : ∀ i, c'.store.lists.q i = (c.store.lists.purge fs).q i := by
    rw [hlists]
    exact fun i => rfl
  have hdev : ∀ x, (IsDevSem (c.store.lists.semAdd x) ∧
      x ∈ c.store.lists.q (.blocked (c.store.lists.semAdd x))) ↔
      ∃ i < maxSema, x ∈ c.store.blockedOn (semArr i) := by
    intro x
    constructor
    · rintro ⟨hdev, hx⟩
      obtain ⟨i, hi, heq⟩ := (haddr _ (List.ne_nil_of_mem hx)).of_isDevSem hdev
      exact ⟨i, hi, heq ▸ hx⟩
    · rintro ⟨i, hi, hx⟩
      have heq : c.store.lists.semAdd x = semArr i := hok.blocked _ x hx
      rw [heq]
      exact ⟨isDevSem_semArr hi, hx⟩
  have hmem : ∀ a, c'.mem a = if IsDevSem a then c.mem a
      else c.mem a + BitVec.ofNat 32 (fs.countP (· ∈ c.store.blockedOn a)) :=
    fun a => congrFun (congrArg Globals.mem hglobals) a
  refine ⟨habs ▸ hrep, ?_, ?_, fun a => ?_, ?_, ?_, congrArg Lists.semAdd hlists, ?_,
    ?_, ?_, ?_, ?_,
    fun i hi => ?_, fun a ha => ?_, ?_⟩
  · exact (hq .free).trans Lists.purge_free
  · exact (hq .ready).trans (Lists.purge_q (by simp))
  · exact (hq (.blocked a)).trans (Lists.purge_q (by simp))
  · exact congrFun (congrArg Lists.parent hlists)
  · exact congrFun (congrArg Lists.kids hlists)
  · exact (congrArg PcbData.pS hdata).trans rfl
  · exact congrFun (congrArg PcbData.pTime hdata)
  · exact congrFun (congrArg PcbData.trap hdata)
  · exact congrArg Globals.processCount hglobals
  · have hsoft : c'.softBlockCount = c.softBlockCount - (c.store.lists.devWaiting fs : ℕ) :=
      congrArg Globals.softBlockCount hglobals
    rw [hsoft, Lists.devWaiting]
    congr 2
    exact List.countP_congr fun x _ => by simpa using hdev x
  · rw [hmem, if_pos (isDevSem_semArr hi)]
  · rw [hmem]
    split
    case isTrue hdev =>
      -- nobody is blocked on an address between two words of the array
      have hnil : c.store.blockedOn a = [] := by
        by_contra hne
        obtain ⟨i, hi, rfl⟩ := (haddr a hne).of_isDevSem hdev
        exact ha i hi rfl
      simp [hnil]
    case isFalse => rfl
  · rw [hglobals]
    rfl

/-- Recursive termination is exact: the subtree of the current process is freed, each process of it
once, and nothing happens to anybody else. -/
theorem nuke_exact (hn : n ≤ maxProc) {c : Nucleus n} {p : Fin n} (hwf : c.WellFormed)
    (hcur : c.currentProcess = some p)
    (hready : ∀ q ∈ c.store.readyList, c.store.pSemAdd q = null)
    (haddr : ∀ a, c.store.blockedOn a ≠ [] → AddrOk a) :
    ∃ fs c', ((nukeItTilItPukes (nukeFuel n) p).run NucOp.sem).run c = some ((), c') ∧ fs.Nodup ∧
      (∀ x, x ∈ fs ↔ x = p ∨ Descends c.store.pPrnt p x) ∧ c.Nuked fs c' := by
  have hok : c.store.lists.Ok (some p) := hcur ▸ hwf.ok
  obtain ⟨⟨⟩, c', s', hrun, hrep, fs, hnd, hfs, rfl⟩ := nucleus_sound hn
    (Q := fun _ s' => ∃ fs : List (Fin n), fs.Nodup ∧
      (∀ x, x ∈ fs ↔ x = p ∨ Descends c.store.pPrnt p x) ∧ s' = c.abs.purge fs) hwf.rep
    (wp_nuke_exact hok hcur (fun q _ hq => hready q hq) fun fs hnd hfs => ⟨fs, hnd, hfs, rfl⟩)
  exact ⟨fs, c', hrun, hnd, hfs, .of_purge hwf.ok haddr hrep⟩

omit [Layout] in
/-- A process is killed while its only child is blocked on a semaphore. -/
theorem nuke_exact_blocked_child : ∃ (_ : Layout) (c : Nucleus maxProc) (fs : List (Fin maxProc))
    (c' : Nucleus maxProc), c.store.pPrnt 2 = some 1 ∧ c.store.blockedOn 0x10000 = [2] ∧
      ((nukeItTilItPukes (nukeFuel maxProc) 1).run NucOp.sem).run c = some ((), c') ∧ fs.Nodup ∧
        (∀ x, x ∈ fs ↔ x = 1 ∨ Descends c.store.pPrnt 1 x) ∧ c.Nuked fs c' := by
  refine ⟨sampleLayout, ?_⟩
  let _ := sampleLayout
  obtain ⟨es, hes⟩ : ∃ es : List Event, es = [.call 1 0 0 0 0, .timer 5000, .call 1 0 0 0 5000,
    .timer 10000, .timer 15000, .call 4 0x10000 0 0 15000] := ⟨_, rfl⟩
  have hexec : (Boot.zero.config.bind (·.exec es)).map (fun c =>
      (c.mode, c.nuc.currentProcess, c.nuc.store.pPrnt 2, c.nuc.store.blockedOn 0x10000,
        decide (∀ q ∈ c.nuc.store.readyList, c.nuc.store.pSemAdd q = null))) =
          some (.running, some 1, some 1, [2], true) := by
    rw [hes]
    decide +kernel
  obtain ⟨c, hc, hrest⟩ := Option.map_eq_some_iff.mp hexec
  simp only [Prod.mk.injEq, decide_eq_true_eq] at hrest
  obtain ⟨hmode, hcur, hparent, hblocked, hready⟩ := hrest
  obtain ⟨tr, hrun, htr⟩ := Boot.exec_run hc
  have hharmless : ∀ e ∈ es, e.Harmless := by
    simp only [hes, List.forall_mem_cons]
    exact ⟨fun _ h => h, fun _ h => h, fun _ h => h, fun _ h => h, fun _ h => h, fun _ h => h,
      by simp⟩
  have hlegal : ∀ e ∈ es, e.Legal := by
    rw [hes]
    decide
  have hsafe : ∀ x ∈ tr, x.2.Harmless := forall_event htr hharmless
  obtain ⟨hsound, hsoft⟩ := Config.soft_of_run le_rfl hrun.run (forall_event htr hlegal)
    (fun x hx => (hsafe x hx).killSafe x.1) (.inl hmode)
  obtain ⟨fs, c', h⟩ := nuke_exact le_rfl hsound.wellFormed hcur hready hsoft.addrs
  exact ⟨c.nuc, fs, c', hparent, hblocked, h⟩

end Jaeos
