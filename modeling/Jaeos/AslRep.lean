import Jaeos.Asl
import Mathlib.Data.List.FinRange

/-!
# The active semaphore list is a map

`AslShape asl Q h ds fs` says that the descriptors hold the map `Q` from
semaphore addresses to queues: `h` is the dummy, `ds` the active list in the
order of the addresses, `fs` the free list, and no descriptor is lost. The
process queues themselves are rings of the PCBs, and each lemma only asks for
the ring it works on.
-/

namespace Jaeos

open LinkedRing LinkedList

variable {n : ℕ}

/-- The store with other semaphore descriptors. -/
def Store.withAsl (st : Store n) (asl : AslData n) : Store n := { st with toAslData := asl }

/-- The descriptors hold the map `Q`. -/
structure AslShape (asl : AslData n) (Q : ℕ → List (Fin n)) (h : SemdPtr)
    (ds fs : List SemdPtr) : Prop where
  /-- `h` is the dummy -/
  dummy : asl.activeSemdListH = some h
  /-- the dummy and the active nodes form a list -/
  active : IsList asl.sNext (some h) (h :: ds)
  /-- the free descriptors form a list -/
  free : IsList asl.sNext asl.semdListH fs
  /-- each descriptor is in exactly one place -/
  perm : (h :: ds ++ fs).Perm (List.finRange (maxProc + 1))
  /-- the active list is strictly increasing -/
  sorted : ds.Pairwise fun d e => asl.sSemAdd d < asl.sSemAdd e
  /-- each node owns the queue of its address -/
  tails : ∀ d ∈ ds, asl.sProcQ d = (Q (asl.sSemAdd d)).getLast?
  /-- no node is kept for an empty queue -/
  nonempty : ∀ d ∈ ds, Q (asl.sSemAdd d) ≠ []
  /-- each address with a queue has a node -/
  complete : ∀ a, Q a ≠ [] → ∃ d ∈ ds, asl.sSemAdd d = a

/-- The descriptors hold the map `Q`, for some arrangement of the descriptors. -/
def AslRep (asl : AslData n) (Q : ℕ → List (Fin n)) : Prop := ∃ h ds fs, AslShape asl Q h ds fs

variable {st : Store n} {asl : AslData n} {Q : ℕ → List (Fin n)} {h prev d : SemdPtr}
  {ds fs pre rest : List SemdPtr} {a : ℕ} {p : Fin n} {l : List (Fin n)}

namespace AslShape

theorem nodup (hs : AslShape asl Q h ds fs) : (h :: ds ++ fs).Nodup :=
  hs.perm.nodup_iff.mpr (List.nodup_finRange _)

theorem length_add_length (hs : AslShape asl Q h ds fs) : ds.length + fs.length = maxProc := by
  have := hs.perm.length_eq
  simp only [List.length_append, List.length_cons, List.length_finRange] at this
  omega

/-- Two active nodes with the same address are the same. -/
theorem semAdd_inj (hs : AslShape asl Q h ds fs) {d e : SemdPtr} (hd : d ∈ ds) (he : e ∈ ds)
    (hde : asl.sSemAdd d = asl.sSemAdd e) : d = e := by
  have hmap : (ds.map asl.sSemAdd).Nodup :=
    (List.pairwise_map.mpr hs.sorted).imp fun hlt => Nat.ne_of_lt hlt
  exact List.inj_on_of_nodup_map hmap hd he hde

/-- The dummy is not an active node. -/
theorem dummy_notMem (hs : AslShape asl Q h ds fs) : h ∉ ds := by
  have hnd : (h :: ds).Nodup := (List.nodup_append.mp hs.nodup).1
  exact (List.nodup_cons.mp hnd).1

/-- A free descriptor is not on the active list. -/
theorem free_notMem (hs : AslShape asl Q h ds fs) {f : SemdPtr} (hf : f ∈ fs) : f ∉ h :: ds :=
  fun hm => (List.nodup_append.mp hs.nodup).2.2 f hm f hf rfl

/-- The map is read off the active list. -/
theorem activeSemds_eq (hs : AslShape st.toAslData Q h ds fs) : st.activeSemds = ds := by
  rw [Store.activeSemds, hs.dummy]
  refine IsList.toList_eq hs.active.2 ?_
  have := hs.length_add_length
  omega

theorem freeSemds_eq (hs : AslShape st.toAslData Q h ds fs) : st.freeSemds = fs := by
  refine IsList.toList_eq hs.free ?_
  have := hs.length_add_length
  omega

/-- Reading the queue of an address gives its list. -/
theorem blockedOn_eq (hs : AslShape st.toAslData Q h ds fs) (hr : IsRing st.queueLinks (Q a)) :
    st.blockedOn a = Q a := by
  rw [Store.blockedOn, hs.activeSemds_eq]
  cases hfind : ds.find? fun d => st.sSemAdd d = a with
  | none =>
    by_contra hne
    obtain ⟨d, hd, hda⟩ := hs.complete a fun e => hne e.symm
    have := List.find?_eq_none.mp hfind d hd
    simp [hda] at this
  | some d =>
    have hda : st.sSemAdd d = a := by simpa using List.find?_some hfind
    have htail := hs.tails d (List.mem_of_find?_eq_some hfind)
    rw [hda] at htail
    exact IsQueue.procQ_eq ⟨hr, htail⟩

/-- Giving the node of `a` another non-empty queue. -/
theorem setProcQ (hs : AslShape asl Q h ds fs) (hd : d ∈ ds) (hda : asl.sSemAdd d = a)
    (hl : l ≠ []) :
    AslShape { asl with sProcQ := Function.update asl.sProcQ d l.getLast? } (Function.update Q a l)
      h ds fs := by
  have hother : ∀ e ∈ ds, e ≠ d → asl.sSemAdd e ≠ a := fun e he hne hea =>
    hne (hs.semAdd_inj he hd (hea.trans hda.symm))
  refine ⟨hs.dummy, hs.active, hs.free, hs.perm, hs.sorted, ?_, ?_, ?_⟩
  · intro e he
    by_cases hed : e = d
    · simp [hed, hda]
    · simp only [Function.update_of_ne hed, Function.update_of_ne (hother e he hed)]
      exact hs.tails e he
  · intro e he
    by_cases hed : e = d
    · simpa [hed, hda] using hl
    · simp only [Function.update_of_ne (hother e he hed)]
      exact hs.nonempty e he
  · intro b hb
    by_cases hba : b = a
    · exact ⟨d, hd, hba ▸ hda⟩
    · rw [Function.update_of_ne hba] at hb
      exact hs.complete b hb

/-! ## The search -/

/-- The search stops at the last node before the place of `a`. -/
theorem getPrevSemd_run (hs : AslShape st.toAslData Q h ds fs) (a : ℕ) :
    ∃ pre prev l₁ rest, h :: ds = pre ++ prev :: rest ∧ ds = l₁ ++ rest ∧
      (getPrevSemd a).run st = some (prev, st) ∧
      (∀ d ∈ l₁, st.sSemAdd d < a) ∧ ∀ d ∈ rest, a ≤ st.sSemAdd d := by
  have hfuel : ds.length < maxProc + 1 := by
    have := hs.length_add_length
    omega
  obtain ⟨before, hbe⟩ : ∃ b : SemdPtr → Bool, b = fun d => decide (st.sSemAdd d < a) := ⟨_, rfl⟩
  have hfind : findPrev st.sNext before (maxProc + 1) h =
      some ((h :: ds.takeWhile before).getLast (by simp)) := findPrev_eq hs.active.2 hfuel
  have hlast := List.dropLast_append_getLast (l := h :: ds.takeWhile before) (by simp)
  refine ⟨(h :: ds.takeWhile before).dropLast, (h :: ds.takeWhile before).getLast (by simp),
    ds.takeWhile before, ds.dropWhile before, ?_, List.takeWhile_append_dropWhile.symm, ?_, ?_, ?_⟩
  · calc h :: ds = h :: ds.takeWhile before ++ ds.dropWhile before := by
          rw [List.cons_append, List.takeWhile_append_dropWhile]
      _ = (h :: ds.takeWhile before).dropLast ++ [(h :: ds.takeWhile before).getLast (by simp)] ++
            ds.dropWhile before := congrArg (· ++ _) hlast.symm
      _ = _ := (List.append_cons ..).symm
  · simp [getPrevSemd, hs.dummy, ← hbe, hfind]
  · intro d hd
    have := List.mem_takeWhile_imp hd
    rw [hbe] at this
    simpa using this
  · -- the first node behind the search is not before `a`, and the list is sorted
    have hdrop := hs.sorted.sublist (List.dropWhile_sublist before)
    cases hdw : ds.dropWhile before with
    | nil => simp
    | cons e es =>
      have hhead : ¬ st.sSemAdd e < a := by
        have := List.head?_dropWhile_not before ds
        rw [hdw] at this
        simpa [hbe] using this
      rw [hdw] at hdrop
      intro d hd
      rcases List.mem_cons.mp hd with rfl | hd
      · omega
      · have := (List.pairwise_cons.mp hdrop).1 d hd
        omega

/-- The search for an address without a queue. -/
theorem search_none (hs : AslShape st.toAslData Q h ds fs) (hQ : Q a = []) :
    ∃ pre prev l₁ rest, h :: ds = pre ++ prev :: rest ∧ ds = l₁ ++ rest ∧
      (getPrevSemd a).run st = some (prev, st) ∧ (foundSemd prev a).run st = some (none, st) ∧
      (∀ d ∈ l₁, st.sSemAdd d < a) ∧ ∀ d ∈ rest, a < st.sSemAdd d := by
  obtain ⟨pre, prev, l₁, rest, hsplit, hds, hrun, hlt, hge⟩ := hs.getPrevSemd_run a
  have hne : ∀ d ∈ rest, st.sSemAdd d ≠ a := fun d hd he =>
    hs.nonempty d (hds ▸ List.mem_append_right _ hd) (he ▸ hQ)
  refine ⟨pre, prev, l₁, rest, hsplit, hds, hrun, ?_, hlt, ?_⟩
  · have hnext : st.sNext prev = rest.head? := IsList.next_eq (hsplit ▸ hs.active)
    cases rest with
    | nil => simp [foundSemd, hnext]
    | cons e es => simp [foundSemd, hnext, hne e (by simp)]
  · intro d hd
    exact lt_of_le_of_ne (hge d hd) (hne d hd).symm

/-- The search for an address with a queue finds its node. -/
theorem search_some (hs : AslShape st.toAslData Q h ds fs) (hQ : Q a ≠ []) :
    ∃ pre prev d rest, h :: ds = pre ++ prev :: d :: rest ∧ d ∈ ds ∧ st.sSemAdd d = a ∧
      (getPrevSemd a).run st = some (prev, st) ∧
      (foundSemd prev a).run st = some (some d, st) := by
  obtain ⟨pre, prev, l₁, rest, hsplit, hds, hrun, hlt, hge⟩ := hs.getPrevSemd_run a
  obtain ⟨d, hd, hda⟩ := hs.complete a hQ
  have hsuf : rest <:+ ds := ⟨l₁, hds.symm⟩
  have hdrest : d ∈ rest := by
    rcases List.mem_append.mp (hds ▸ hd) with hm | hm
    · have := hlt d hm
      omega
    · exact hm
  have hnext : st.sNext prev = rest.head? := IsList.next_eq (hsplit ▸ hs.active)
  cases rest with
  | nil => cases hdrest
  | cons e es =>
    -- the list is sorted, so only its first node can have the address
    have hea : st.sSemAdd e = a := by
      rcases List.mem_cons.mp hdrest with rfl | hm
      · exact hda
      · have hlt' := (List.pairwise_cons.mp (hs.sorted.sublist hsuf.sublist)).1 d hm
        have hge' := hge e (by simp)
        omega
    exact ⟨pre, prev, e, es, hsplit, hsuf.subset (by simp), hea, hrun,
      by simp [foundSemd, hnext, hea]⟩

/-! ## Moving a node -/

/-- Where the node `d` behind `prev` does not occur. -/
theorem notMem_of_split (hs : AslShape asl Q h ds fs)
    (hsplit : h :: ds = pre ++ prev :: d :: rest) : d ∉ pre ++ [prev] ∧ d ∉ rest := by
  have hnd : (h :: ds).Nodup := (List.nodup_append.mp hs.nodup).1
  rw [hsplit, List.append_cons] at hnd
  obtain ⟨-, hrest, hdisj⟩ := List.nodup_append.mp hnd
  exact ⟨fun hm => hdisj d hm d (by simp) rfl, (List.nodup_cons.mp hrest).1⟩

/-- The active list without the node `d` behind `prev`. -/
theorem erase_split (hs : AslShape asl Q h ds fs)
    (hsplit : h :: ds = pre ++ prev :: d :: rest) (hd : d ∈ ds) :
    h :: ds.erase d = pre ++ prev :: rest := by
  have hdh : h ≠ d := by
    rintro rfl
    exact hs.dummy_notMem hd
  calc h :: ds.erase d = (h :: ds).erase d := by rw [List.erase_cons_tail (by simpa using hdh)]
    _ = (pre ++ [prev] ++ d :: rest).erase d := by rw [hsplit, List.append_cons]
    _ = pre ++ [prev] ++ rest := by
      rw [List.erase_append_right _ (hs.notMem_of_split hsplit).1, List.erase_cons_head]
    _ = pre ++ prev :: rest := (List.append_cons ..).symm

/-- Unweaving the node of `a`: it goes to the front of the free list. -/
theorem unweave (hs : AslShape asl Q h ds fs) (hsplit : h :: ds = pre ++ prev :: d :: rest)
    (hd : d ∈ ds) (hda : asl.sSemAdd d = a) :
    AslShape { asl with
      sNext := Function.update (Function.update asl.sNext prev (asl.sNext d)) d asl.semdListH
      sProcQ := Function.update asl.sProcQ d none
      semdListH := some d } (Function.update Q a []) h (ds.erase d) (d :: fs) := by
  obtain ⟨hdpre, hdrest⟩ := hs.notMem_of_split hsplit
  have hdfs : d ∉ fs := fun hm => hs.free_notMem hm (List.mem_cons_of_mem _ hd)
  have hprevfs : prev ∉ fs := fun hm => hs.free_notMem hm (hsplit ▸ by simp)
  have hsub : ∀ e ∈ ds.erase d, e ∈ ds ∧ e ≠ d ∧ asl.sSemAdd e ≠ a := by
    intro e he
    have hds : ds.Nodup := (List.nodup_cons.mp (List.nodup_append.mp hs.nodup).1).2
    obtain ⟨hed, heds⟩ := hds.mem_erase_iff.mp he
    exact ⟨heds, hed, fun hea => hed (hs.semAdd_inj heds hd (hea.trans hda.symm))⟩
  refine ⟨hs.dummy, ?_, ⟨rfl, ?_⟩, ?_, hs.sorted.sublist List.erase_sublist, ?_, ?_, ?_⟩
  · have hact := hs.active
    rw [hsplit] at hact
    rw [hs.erase_split hsplit hd]
    refine hact.removeAfter.congr fun x hx => Function.update_of_ne ?_ _ _
    rintro rfl
    rw [List.append_cons] at hx
    rcases List.mem_append.mp hx with hm | hm
    · exact hdpre hm
    · exact hdrest hm
  · simp only [Function.update_self]
    refine hs.free.congr fun x hx => ?_
    have hxd : x ≠ d := fun e => hdfs (e ▸ hx)
    have hxp : x ≠ prev := fun e => hprevfs (e ▸ hx)
    rw [Function.update_of_ne hxd, Function.update_of_ne hxp]
  · have hmove : (ds.erase d ++ d :: fs).Perm (ds ++ fs) :=
      List.perm_middle.trans ((List.perm_cons_erase hd).symm.append_right fs)
    exact (hmove.cons h).trans hs.perm
  · intro e he
    obtain ⟨heds, hed, hea⟩ := hsub e he
    simp only [Function.update_of_ne hed, Function.update_of_ne hea]
    exact hs.tails e heds
  · intro e he
    obtain ⟨heds, hed, hea⟩ := hsub e he
    simp only [Function.update_of_ne hea]
    exact hs.nonempty e heds
  · intro b hb
    have hba : b ≠ a := by
      rintro rfl
      simp at hb
    rw [Function.update_of_ne hba] at hb
    obtain ⟨e, he, heb⟩ := hs.complete b hb
    have hed : e ≠ d := fun hed => hba (heb.symm.trans (hed ▸ hda))
    exact ⟨e, (List.mem_erase_of_ne hed).mpr he, heb⟩

/-- Weaving a free descriptor `f` in behind `prev`, with the queue `l` of a new address. -/
theorem weave {f : SemdPtr} {l₁ : List SemdPtr} (hs : AslShape asl Q h ds (f :: fs))
    (hsplit : h :: ds = pre ++ prev :: rest) (hds : ds = l₁ ++ rest)
    (hlt : ∀ d ∈ l₁, asl.sSemAdd d < a) (hgt : ∀ d ∈ rest, a < asl.sSemAdd d)
    (hQ : Q a = []) (hl : l ≠ []) :
    AslShape { asl with
      sNext := Function.update (Function.update asl.sNext f (asl.sNext prev)) prev (some f)
      sSemAdd := Function.update asl.sSemAdd f a
      sProcQ := Function.update asl.sProcQ f l.getLast?
      semdListH := asl.sNext f } (Function.update Q a l) h (l₁ ++ f :: rest) fs := by
  have hf : f ∉ h :: ds := hs.free_notMem (by simp)
  have hfs : f ∉ fs := (List.nodup_cons.mp (List.nodup_append.mp hs.nodup).2.1).1
  have hprevfs : prev ∉ fs := fun hm =>
    hs.free_notMem (List.mem_cons_of_mem _ hm) (hsplit ▸ by simp)
  have hpre : pre ++ [prev] = h :: l₁ := by
    have heq : h :: l₁ ++ rest = pre ++ [prev] ++ rest := by
      rw [← List.append_cons, ← hsplit, hds, List.cons_append]
    exact (List.append_cancel_right heq).symm
  have hperm : (l₁ ++ f :: rest).Perm (f :: ds) := hds ▸ List.perm_middle
  have hne : ∀ e ∈ ds, e ≠ f ∧ asl.sSemAdd e ≠ a := fun e he =>
    ⟨fun hef => hf (hef ▸ List.mem_cons_of_mem _ he), fun hea => hs.nonempty e he (hea ▸ hQ)⟩
  have hmem : ∀ e ∈ l₁ ++ f :: rest, e = f ∨ e ∈ ds := fun e he =>
    List.mem_cons.mp (hperm.mem_iff.mp he)
  refine ⟨hs.dummy, ?_, ?_, ?_, ?_, ?_, ?_, ?_⟩
  · have hact := hs.active
    rw [hsplit] at hact
    have hds' : h :: (l₁ ++ f :: rest) = pre ++ prev :: f :: rest := by
      rw [← List.cons_append, ← hpre, ← List.append_cons]
    rw [hds']
    exact hact.insertAfter (hsplit ▸ hf)
  · refine IsList.congr hs.free.2 fun x hx => ?_
    have hxf : x ≠ f := fun e => hfs (e ▸ hx)
    have hxp : x ≠ prev := fun e => hprevfs (e ▸ hx)
    simp only [Function.update_of_ne hxp, Function.update_of_ne hxf]
  · have hmove : (l₁ ++ f :: rest ++ fs).Perm (ds ++ f :: fs) :=
      (hperm.append_right fs).trans List.perm_middle.symm
    exact (hmove.cons h).trans hs.perm
  · -- the new address lies between the two parts of the list
    have hold := hs.sorted
    rw [hds] at hold
    obtain ⟨hleft, hright, hcross⟩ := List.pairwise_append.mp hold
    have hsame : ∀ e ∈ ds, Function.update asl.sSemAdd f a e = asl.sSemAdd e := fun e he =>
      Function.update_of_ne (hne e he).1 _ _
    have hl₁ : ∀ e ∈ l₁, e ∈ ds := fun e he => hds ▸ List.mem_append_left _ he
    have hrest : ∀ e ∈ rest, e ∈ ds := fun e he => hds ▸ List.mem_append_right _ he
    change (l₁ ++ f :: rest).Pairwise fun x y =>
      Function.update asl.sSemAdd f a x < Function.update asl.sSemAdd f a y
    refine List.pairwise_append.mpr ⟨?_, List.pairwise_cons.mpr ⟨?_, ?_⟩, ?_⟩
    · refine hleft.imp_of_mem ?_
      intro x y hx hy hxy
      rw [hsame x (hl₁ x hx), hsame y (hl₁ y hy)]
      exact hxy
    · intro y hy
      rw [hsame y (hrest y hy), Function.update_self]
      exact hgt y hy
    · refine hright.imp_of_mem ?_
      intro x y hx hy hxy
      rw [hsame x (hrest x hx), hsame y (hrest y hy)]
      exact hxy
    · intro x hx y hy
      rw [hsame x (hl₁ x hx)]
      rcases List.mem_cons.mp hy with rfl | hy
      · rw [Function.update_self]
        exact hlt x hx
      · rw [hsame y (hrest y hy)]
        exact hcross x hx y hy
  · intro e he
    rcases hmem e he with rfl | heds
    · simp
    · simp only [Function.update_of_ne (hne e heds).1, Function.update_of_ne (hne e heds).2]
      exact hs.tails e heds
  · intro e he
    rcases hmem e he with rfl | heds
    · simpa using hl
    · simp only [Function.update_of_ne (hne e heds).1, Function.update_of_ne (hne e heds).2]
      exact hs.nonempty e heds
  · intro b hb
    by_cases hba : b = a
    · exact ⟨f, by simp, by simp [hba]⟩
    · rw [Function.update_of_ne hba] at hb
      obtain ⟨e, he, heb⟩ := hs.complete b hb
      exact ⟨e, hperm.mem_iff.mpr (List.mem_cons_of_mem _ he),
        (Function.update_of_ne (hne e he).1 _ _).trans heb⟩

end AslShape

/-! ## The operations -/

theorem setSProcQ_run (v : Option (Fin n)) : (setSProcQ d v).run st = some ((),
    st.withAsl { st.toAslData with sProcQ := Function.update st.sProcQ d v }) := rfl

/-- Some active nodes have gone to the front of the free list. -/
def Retired (ds fs ds' fs' : List SemdPtr) : Prop :=
  ∃ xs, fs' = xs ++ fs ∧ (∀ x ∈ xs, x ∈ ds) ∧ ds' = ds.filter (· ∉ xs)

theorem Retired.refl (ds fs : List SemdPtr) : Retired ds fs ds fs :=
  ⟨[], rfl, by simp, by simp⟩

theorem Retired.trans {ds₁ fs₁ ds₂ fs₂ : List SemdPtr} (h : Retired ds fs ds₁ fs₁)
    (h' : Retired ds₁ fs₁ ds₂ fs₂) : Retired ds fs ds₂ fs₂ := by
  obtain ⟨xs, rfl, hxs, rfl⟩ := h
  obtain ⟨ys, rfl, hys, rfl⟩ := h'
  refine ⟨ys ++ xs, by simp, fun x hx => ?_, ?_⟩
  · rcases List.mem_append.mp hx with hx | hx
    · exact List.mem_of_mem_filter (hys x hx)
    · exact hxs x hx
  · rw [List.filter_filter]
    congr 1
    funext x
    simp

/-- Unweaving the node of `a` after its queue has become `l`, if `l` is empty. -/
theorem AslShape.unweaveEmpty_run (hs : AslShape st.toAslData Q h ds fs)
    (hsplit : h :: ds = pre ++ prev :: d :: rest) (hd : d ∈ ds) (hda : st.sSemAdd d = a)
    (l : List (Fin n)) :
    ∃ asl ds' fs', (unweaveEmpty prev d).run
        (st.withAsl { st.toAslData with sProcQ := Function.update st.sProcQ d l.getLast? }) =
        some ((), st.withAsl asl) ∧ AslShape asl (Function.update Q a l) h ds' fs' ∧
      asl.sSemAdd = st.sSemAdd ∧ Retired ds fs ds' fs' := by
  by_cases hl : l = []
  · subst hl
    have hprevd : prev ≠ d := fun e => (hs.notMem_of_split hsplit).1 (by simp [e])
    have hnd : ds.Nodup := (List.nodup_cons.mp (List.nodup_append.mp hs.nodup).1).2
    refine ⟨_, ds.erase d, d :: fs, ?_, hs.unweave hsplit hd hda, rfl,
      [d], rfl, by simpa using hd, ?_⟩
    · cases hfree : st.semdListH <;>
        simp [unweaveEmpty, emptyProcQ, setSNext, freeSemd, hfree, Store.withAsl]
    · rw [hnd.erase_eq_filter]
      refine List.filter_congr fun x _ => ?_
      by_cases hx : x = d
      · simp [hx]
      · simp [hx]
  · have hsome : l.getLast? = some (l.getLast hl) := List.getLast?_eq_some_getLast hl
    refine ⟨_, ds, fs, ?_, hs.setProcQ hd hda hl, rfl, .refl ds fs⟩
    simp [unweaveEmpty, emptyProcQ, hsome, Store.withAsl]

/-- What a store looks like after a queue operation on the map: other queue links, which
agree with the old ones off `l`, and other descriptors. -/
structure AslStep (st : Store n) (k : Links (Fin n)) (asl : AslData n) (Q : ℕ → List (Fin n))
    (a : ℕ) (l l' : List (Fin n)) : Prop where
  /-- the descriptors hold the new map -/
  rep : AslRep asl (Function.update Q a l')
  /-- the queue of `a` is a ring -/
  ring : IsRing k l'
  /-- only the links of `l` have changed -/
  frame : st.queueLinks.EqOff k l

/-- `removeBlocked` without a queue. -/
theorem removeBlocked_nil (hs : AslRep st.toAslData Q) (hQ : Q a = []) :
    (removeBlocked a).run st = some (none, st) := by
  obtain ⟨h, ds, fs, hs⟩ := hs
  obtain ⟨pre, prev, l₁, rest, -, -, hprev, hfound, -⟩ := hs.search_none hQ
  simp [removeBlocked, hprev, hfound]

/-- `removeBlocked` takes the oldest process of the queue, if there is one, and retires the node
when it was the last one. -/
theorem AslShape.removeBlocked_run (hs : AslShape st.toAslData Q h ds fs)
    (hr : IsRing st.queueLinks (Q a)) :
    ∃ k asl ds' fs', (removeBlocked a).run st = some ((Q a).head?, (st.withLinks k).withAsl asl) ∧
      AslShape asl (Function.update Q a (Q a).tail) h ds' fs' ∧ asl.sSemAdd = st.sSemAdd ∧
      Retired ds fs ds' fs' ∧ IsRing k (Q a).tail ∧ st.queueLinks.EqOff k (Q a) := by
  cases hQ : Q a with
  | nil =>
    refine ⟨st.queueLinks, st.toAslData, ds, fs, removeBlocked_nil ⟨h, ds, fs, hs⟩ hQ, ?_, rfl,
      .refl ds fs, IsRing.nil, fun _ _ => ⟨rfl, rfl⟩⟩
    rw [List.tail_nil, ← hQ, Function.update_eq_self]
    exact hs
  | cons x l =>
    have hne : Q a ≠ [] := by simp [hQ]
    obtain ⟨pre, prev, d, rest, hsplit, hd, hda, hprev, hfound⟩ := hs.search_some hne
    have hq : IsQueue st (st.sProcQ d) (x :: l) := by
      rw [← hQ]
      exact ⟨hr, by rw [hs.tails d hd, hda]⟩
    obtain ⟨k, hrun, hring, heq⟩ := removeProcQ_cons hq
    have hs' : AslShape (st.withLinks k).toAslData Q h ds fs := hs
    obtain ⟨asl, ds', fs', hweave, hshape, hsem, hretired⟩ := hs'.unweaveEmpty_run hsplit hd hda l
    refine ⟨k, asl, ds', fs', ?_, hshape, hsem, hretired, hring, heq⟩
    simp [removeBlocked, hprev, hfound, hrun, setSProcQ_run, hweave]

/-- `removeBlocked` takes the oldest process of the queue, if there is one. -/
theorem removeBlocked_run (hs : AslRep st.toAslData Q) (hr : IsRing st.queueLinks (Q a)) :
    ∃ k asl, (removeBlocked a).run st = some ((Q a).head?, (st.withLinks k).withAsl asl) ∧
      AslStep st k asl Q a (Q a) (Q a).tail := by
  obtain ⟨h, ds, fs, hs⟩ := hs
  obtain ⟨k, asl, ds', fs', hrun, hshape, -, -, hring, heq⟩ := hs.removeBlocked_run hr
  exact ⟨k, asl, hrun, ⟨h, ds', fs', hshape⟩, hring, heq⟩

/-- `outBlocked` takes the process out of the queue it is in. -/
theorem outBlocked_mem {l₁ l₂ : List (Fin n)} (hs : AslRep st.toAslData Q)
    (hr : IsRing st.queueLinks (Q a)) (hsem : st.pSemAdd p = a) (hQ : Q a = l₁ ++ p :: l₂) :
    ∃ k asl, (outBlocked p).run st = some (some p, (st.withLinks k).withAsl asl) ∧
      AslStep st k asl Q a (Q a) (l₁ ++ l₂) := by
  obtain ⟨h, ds, fs, hs⟩ := hs
  have hne : Q a ≠ [] := by simp [hQ]
  obtain ⟨pre, prev, d, rest, hsplit, hd, hda, hprev, hfound⟩ := hs.search_some hne
  have hq : IsQueue st (st.sProcQ d) (l₁ ++ p :: l₂) := by
    rw [← hQ]
    exact ⟨hr, by rw [hs.tails d hd, hda]⟩
  obtain ⟨k, hrun, hring, heq⟩ := outProcQ_mem hq
  have hs' : AslShape (st.withLinks k).toAslData Q h ds fs := hs
  obtain ⟨asl, ds', fs', hweave, hshape, -⟩ := hs'.unweaveEmpty_run hsplit hd hda (l₁ ++ l₂)
  refine ⟨k, asl, ?_, ⟨h, ds', fs', hshape⟩, hring, hQ ▸ heq⟩
  generalize l₁ ++ l₂ = l at hrun hweave
  simp [outBlocked, hsem, hprev, hfound, hrun, setSProcQ_run, hweave]

/-- `outBlocked` on a process that is not in the queue of its `p_semAdd` changes nothing. -/
theorem outBlocked_notMem (hs : AslRep st.toAslData Q)
    (hr : IsRing st.queueLinks (Q (st.pSemAdd p))) (hp : p ∉ Q (st.pSemAdd p)) :
    (outBlocked p).run st = some (none, st) := by
  obtain ⟨h, ds, fs, hs⟩ := hs
  by_cases hQ : Q (st.pSemAdd p) = []
  · obtain ⟨pre, prev, l₁, rest, -, -, hprev, hfound, -⟩ := hs.search_none hQ
    simp [outBlocked, hprev, hfound]
  · obtain ⟨pre, prev, d, rest, -, hd, hda, hprev, hfound⟩ := hs.search_some hQ
    have hq : IsQueue st (st.sProcQ d) (Q (st.pSemAdd p)) := ⟨hr, by rw [hs.tails d hd, hda]⟩
    have hrun := outProcQ_not_mem hq hp
    simp [outBlocked, hprev, hfound, hrun, setSProcQ_run, Store.withAsl]

/-- `headBlocked` reads the oldest process. -/
theorem headBlocked_run (hs : AslRep st.toAslData Q) (hr : IsRing st.queueLinks (Q a)) :
    (headBlocked a).run st = some ((Q a).head?, st) := by
  obtain ⟨h, ds, fs, hs⟩ := hs
  by_cases hQ : Q a = []
  · obtain ⟨pre, prev, l₁, rest, -, -, hprev, hfound, -⟩ := hs.search_none hQ
    simp [headBlocked, hprev, hfound, hQ]
  · obtain ⟨pre, prev, d, rest, -, hd, hda, hprev, hfound⟩ := hs.search_some hQ
    have hq : IsQueue st (st.sProcQ d) (Q a) := ⟨hr, by rw [hs.tails d hd, hda]⟩
    simp [headBlocked, hprev, hfound, headProcQ_run hq]

/-- The store with the `p_semAdd` of one process set. -/
def Store.withSemAdd (st : Store n) (p : Fin n) (a : ℕ) : Store n :=
  { st with pSemAdd := Function.update st.pSemAdd p a }

/-- `insertBlocked` appends when the address has a queue or a descriptor is free. -/
theorem insertBlocked_run (hs : AslShape st.toAslData Q h ds fs)
    (hr : IsRing st.queueLinks (Q a)) (hp : p ∉ Q a) (hcap : Q a = [] → fs ≠ []) :
    ∃ k asl, (insertBlocked a p).run st =
        some (false, ((st.withLinks k).withAsl asl).withSemAdd p a) ∧
      AslStep st k asl Q a (Q a ++ [p]) (Q a ++ [p]) := by
  by_cases hQ : Q a = []
  · -- a descriptor comes off the free list
    obtain ⟨f, fs, rfl⟩ := List.exists_cons_of_ne_nil (hcap hQ)
    obtain ⟨pre, prev, l₁, rest, hsplit, hds, hprev, hfound, hlt, hgt⟩ := hs.search_none hQ
    have hweave := hs.weave (l := [p]) hsplit hds hlt hgt hQ (by simp)
    have hfprev : prev ≠ f := by
      have hf : f ∉ h :: ds := hs.free_notMem (List.mem_cons_self ..)
      rintro rfl
      exact hf (hsplit ▸ by simp)
    refine ⟨⟨Function.update st.pNext p (some p), Function.update st.pPrev p (some p)⟩, _, ?_,
      ⟨h, _, fs, by simpa [hQ] using hweave⟩, ?_, ?_⟩
    · have hfree : st.semdListH = some f := hs.free.1
      cases hnext : st.sNext f <;>
        simp [insertBlocked, hprev, hfound, allocSemd, hfree, hnext, setSProcQ_run, setSSemAdd,
          setSNext, setSemAdd, mkEmptyProcQ, insertProcQ, setNext, setPrev, Store.withAsl,
          Store.withLinks, Store.withSemAdd, hfprev]
    · rw [hQ]
      exact IsRing.singleton (by simp) (by simp)
    · rw [hQ]
      intro y hy
      have hyp : y ≠ p := by simpa using hy
      exact ⟨Function.update_of_ne hyp _ _, Function.update_of_ne hyp _ _⟩
  · obtain ⟨pre, prev, d, rest, -, hd, hda, hprev, hfound⟩ := hs.search_some hQ
    have hq : IsQueue st (st.sProcQ d) (Q a) := ⟨hr, by rw [hs.tails d hd, hda]⟩
    obtain ⟨k, hrun, hring, heq⟩ := insertProcQ_run hq hp
    have hset := hs.setProcQ (l := Q a ++ [p]) hd hda (by simp)
    refine ⟨k, _, ?_, ⟨h, ds, fs, hset⟩, hring, heq⟩
    simp [insertBlocked, hprev, hfound, hrun, setSProcQ_run, setSemAdd, Store.withSemAdd,
      Store.withAsl, Store.withLinks]

/-- `insertBlocked` changes nothing when a new address finds no free descriptor. -/
theorem insertBlocked_full (hs : AslShape st.toAslData Q h ds []) (hQ : Q a = []) :
    (insertBlocked a p).run st = some (true, st) := by
  obtain ⟨pre, prev, l₁, rest, -, -, hprev, hfound, -⟩ := hs.search_none hQ
  simp [insertBlocked, hprev, hfound, allocSemd, hs.free.start]

/-! ## Initialisation -/

/-- `freeSemd` pushes. -/
theorem freeSemd_run (hf : IsList st.sNext st.semdListH fs) (hd : d ∉ fs) :
    ∃ next, (freeSemd d).run st =
        some ((), st.withAsl { st.toAslData with sNext := next, semdListH := some d }) ∧
      IsList next (some d) (d :: fs) := by
  refine ⟨Function.update st.sNext d st.semdListH, ?_, hf.push hd⟩
  cases hfree : st.semdListH <;> simp [freeSemd, hfree, setSNext, Store.withAsl]

/-- Freeing one descriptor after the other. -/
theorem forM_freeSemd_run (l : List SemdPtr) : ∀ {st : Store n} {fs : List SemdPtr},
    IsList st.sNext st.semdListH fs → (l.reverse ++ fs).Nodup →
      ∃ asl, (l.forM freeSemd).run st = some ((), st.withAsl asl) ∧
        IsList asl.sNext asl.semdListH (l.reverse ++ fs) := by
  induction l with
  | nil =>
    intro st fs hf _
    exact ⟨st.toAslData, rfl, hf⟩
  | cons d l ih =>
    intro st fs hf hnd
    have hnd' : (l.reverse ++ d :: fs).Nodup := by simpa using hnd
    have hd : d ∉ fs := (List.nodup_cons.mp (List.nodup_append.mp hnd').2.1).1
    obtain ⟨next, hrun, hpush⟩ := freeSemd_run hf hd
    have hlist : IsList (st.withAsl { st.toAslData with sNext := next, semdListH := some d }).sNext
      (st.withAsl { st.toAslData with sNext := next, semdListH := some d }).semdListH (d :: fs) :=
      hpush
    obtain ⟨asl, hrest, hall⟩ := ih hlist hnd'
    refine ⟨asl, ?_, by simpa using hall⟩
    change (freeSemd d >>= fun _ => l.forM freeSemd).run st = _
    rw [StateT.run_bind, hrun]
    exact hrest

/-- `initASL` makes the empty map, whatever the descriptors held before. -/
theorem initASL_run (st : Store n) :
    ∃ asl, initASL.run st = some ((), st.withAsl asl) ∧ 
      AslRep asl fun _ => ([] : List (Fin n)) := by
  have hempty : IsList { st with semdListH := none }.sNext
    { st with semdListH := none }.semdListH [] := rfl
  obtain ⟨asl, hrun, hlist⟩ := forM_freeSemd_run (List.finRange (maxProc + 1)) hempty
    (by simpa using List.nodup_finRange (maxProc + 1))
  rw [List.forM_eq_forM] at hrun
  rw [List.append_nil] at hlist
  obtain ⟨h, fs, hrev⟩ : ∃ h fs, (List.finRange (maxProc + 1)).reverse = h :: fs := ⟨_, _, rfl⟩
  rw [hrev] at hlist
  have hnd : (h :: fs).Nodup := hrev ▸ List.nodup_reverse.mpr (List.nodup_finRange _)
  have hperm : (h :: fs).Perm (List.finRange (maxProc + 1)) := hrev ▸ List.reverse_perm _
  -- the dummy comes off the free list again
  refine ⟨{ asl with
    sNext := Function.update asl.sNext h none
    sSemAdd := Function.update asl.sSemAdd h 0
    sProcQ := Function.update asl.sProcQ h none
    semdListH := asl.sNext h
    activeSemdListH := some h }, ?_, h, [], fs, ?_⟩
  · have hstart : asl.semdListH = some h := hlist.1
    cases hnext : asl.sNext h <;>
      simp [initASL, hrun, allocSemd, hstart, hnext, setSNext, setSSemAdd, setSProcQ, Store.withAsl]
  · refine ⟨rfl, ⟨rfl, Function.update_self ..⟩, ?_, hperm, List.Pairwise.nil, by simp, by simp,
      by simp⟩
    refine hlist.2.congr fun x hx => Function.update_of_ne ?_ _ _
    rintro rfl
    exact (List.nodup_cons.mp hnd).1 hx

end Jaeos
