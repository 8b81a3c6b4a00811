import Jaeos.Support.Delays
import Mathlib.Data.List.Sort

/-!
# The ADL as a priority queue

The pairs of a wake time and a process that the active delay list holds, and what a
priority queue may do with them. The list stays sorted as long as no delay that ends before
its head is inserted, since a new node never goes in front of the head. While it is sorted, the
daemon's loop leaves nobody behind whose time has come.
-/

namespace Jaeos

variable {k : ℕ}

/-! ## Priority queues -/

/-- The first pair does not wake up after the second. -/
def Earlier (e f : Word × ℤ) : Prop := e.1.toInt ≤ f.1.toInt

instance (e f : Word × ℤ) : Decidable (Earlier e f) := inferInstanceAs (Decidable (_ ≤ _))

instance : Std.Total Earlier := ⟨fun e f => le_total e.1.toInt f.1.toInt⟩

instance : IsTrans (Word × ℤ) Earlier := ⟨fun _ _ _ => le_trans⟩

/-- A call of `adl.c`. -/
inductive AdlCall where
  /-- `insertDelay(wakeTime, procID)` -/
  | insertDelay (wakeTime : Word) (procID : ℤ)
  /-- `removeDelay()` -/
  | removeDelay

namespace AdlCall

/-- The call and its result, an `int`: `TRUE` is 1 and `FALSE` is 0. -/
def exec : AdlCall → AdlM k ℤ
  | insertDelay w q => do return if ← Jaeos.insertDelay w q then 1 else 0
  | removeDelay => Jaeos.removeDelay

/-- The wake time is not negative. -/
def Sensible : AdlCall → Prop
  | insertDelay w _ => 0 ≤ w.toInt
  | removeDelay => True

/-- What a call on a priority queue with room for `k` pairs may return, and what it then holds. -/
inductive Serves (k : ℕ) (m : Multiset (Word × ℤ)) : AdlCall → ℤ → Multiset (Word × ℤ) → Prop
  /-- there is no room -/
  | full {w : Word} {q : ℤ} (h : m.card = k) : Serves k m (.insertDelay w q) 0 m
  /-- one more pair -/
  | insert {w : Word} {q : ℤ} (h : m.card < k) : Serves k m (.insertDelay w q) 1 ((w, q) ::ₘ m)
  /-- there is nothing to remove -/
  | empty (h : m = 0) : Serves k m .removeDelay (-1) m
  /-- a pair with the least wake time is removed -/
  | remove {e : Word × ℤ} (he : e ∈ m) (hmin : ∀ f ∈ m, Earlier e f) :
    Serves k m .removeDelay e.2 (m.erase e)

/-- There is nothing to do: no room, or nothing to remove. -/
def Idle (k : ℕ) (es : List (Word × ℤ)) : AdlCall → Prop
  | insertDelay _ _ => es.length = k
  | removeDelay => es = []

/-- If there is room, the new delay does not end before the one at the head. -/
def BehindHead (k : ℕ) (es : List (Word × ℤ)) : AdlCall → Prop
  | insertDelay w _ => es.length < k → ∀ e ∈ es.head?, e.1.toInt ≤ w.toInt
  | removeDelay => True

end AdlCall

/-! ## What the list holds -/

namespace Adl

/-- What a node says: `d_wakeTime` and `d_procID`. -/
def entry (a : Adl k) (d : Fin k) : Word × ℤ := (a.dWakeTime d, a.dProcID d)

/-- What the active nodes say, from the head on. -/
def pending (a : Adl k) : List (Word × ℤ) := a.active.map a.entry

/-- The active list is sorted, and each node is on it or free. -/
structure Sorted (a : Adl k) : Prop where
  /-- each node is in exactly one of the lists -/
  shape : ∃ fs, AdlShape a a.active fs
  /-- no node wakes up before the one in front of it -/
  sorted : a.pending.Pairwise Earlier

/-- The call behaves as on a priority queue, and keeps the list sorted. -/
def Refines (a : Adl k) (c : AdlCall) : Prop :=
  ∃ r a', c.exec.run a = some (r, a') ∧ a'.Sorted ∧ c.Serves k a.pending r a'.pending ∧
    (c.Idle k a.pending → a' = a)

/-- The time is the least wake time, or the mark of an empty list. -/
def LeastTime (a : Adl k) (t : Word) : Prop :=
  a.pending = [] ∧ t = failed ∨ ∃ e ∈ a.pending, e.1 = t ∧ ∀ f ∈ a.pending, Earlier e f

end Adl

/-- The data that a sequence of calls reaches from `initADL`, as long as no wake time is negative
and no delay ends before the one at the head. -/
inductive AdlRun : Adl k → Prop
  /-- `initADL`, from any data -/
  | init {a₀ a : Adl k} (h : initADL.run a₀ = some ((), a)) : AdlRun a
  /-- one more call -/
  | call {a a' : Adl k} {r : ℤ} (c : AdlCall) (hsens : c.Sensible) (hc : c.BehindHead k a.pending)
    (h : c.exec.run a = some (r, a')) (hrun : AdlRun a) : AdlRun a'

variable {a a' : Adl k} {l fs : List (Fin k)} {d f h : Fin k} {w : Word} {q : ℤ}

namespace AdlShape

theorem pending_eq (hs : AdlShape a l fs) : a.pending = l.map a.entry := by
  rw [Adl.pending, hs.active_eq]

theorem sorted (hs : AdlShape a l fs) (h : (l.map a.entry).Pairwise Earlier) : a.Sorted :=
  ⟨⟨fs, hs.active_eq ▸ hs⟩, hs.pending_eq ▸ h⟩

/-- The head is what `headDelaydTime` reads. -/
theorem headTime_head {e : Word × ℤ} {es : List (Word × ℤ)} (hs : AdlShape a l fs)
    (h : a.pending = e :: es) : a.headTime = e.1 := by
  rw [hs.pending_eq] at h
  obtain ⟨d, t, rfl, rfl, -⟩ := List.map_eq_cons_iff.mp h
  rw [Adl.headTime, hs.active.start]
  rfl

/-- What the old nodes say after an insertion. -/
theorem entry_old (hfl : f ∉ l) (hwake : a'.dWakeTime = Function.update a.dWakeTime f w)
    (hproc : a'.dProcID = Function.update a.dProcID f q) : ∀ d ∈ l, a'.entry d = a.entry d := by
  intro d hd
  have hdf : d ≠ f := fun e => hfl (e ▸ hd)
  rw [Adl.entry, hwake, hproc, Function.update_of_ne hdf, Function.update_of_ne hdf, Adl.entry]

/-- The new node goes behind the head, to its place among the others. -/
theorem map_place (hfl : f ∉ h :: l) (hwake : a'.dWakeTime = Function.update a.dWakeTime f w)
    (hproc : a'.dProcID = Function.update a.dProcID f q) : (place a w f (h :: l)).map a'.entry =
      a.entry h :: (l.map a.entry).orderedInsert Earlier (w, q) := by
  have hold := entry_old hfl hwake hproc
  have hnew : a'.entry f = (w, q) := by simp [Adl.entry, hwake, hproc]
  have hbefore : (fun e => decide ¬ Earlier (w, q) e) ∘ a.entry =
      fun d => decide ((a.dWakeTime d).toInt < w.toInt) := by
    funext d
    apply decide_eq_decide.mpr
    exact not_le
  rw [place, List.map_cons, List.map_append, List.map_cons, hnew, hold h (by simp),
    List.orderedInsert_eq_take_drop, List.takeWhile_map, List.dropWhile_map, hbefore]
  have htake := List.takeWhile_sublist (l := l) fun d => (a.dWakeTime d).toInt < w.toInt
  have hdrop := List.dropWhile_sublist (l := l) fun d => (a.dWakeTime d).toInt < w.toInt
  rw [List.map_congr_left fun d hd => hold d (List.mem_cons_of_mem h (htake.subset hd)),
    List.map_congr_left fun d hd => hold d (List.mem_cons_of_mem h (hdrop.subset hd))]

end AdlShape

/-- A sorted list with a new pair behind its head is sorted exactly when the pair belongs there. -/
theorem pairwise_behind_head {e x : Word × ℤ} {es : List (Word × ℤ)}
    (h : (e :: es).Pairwise Earlier) :
    (e :: es.orderedInsert Earlier x).Pairwise Earlier ↔ Earlier e x := by
  obtain ⟨hhead, htail⟩ := List.pairwise_cons.mp h
  rw [List.pairwise_cons]
  constructor
  · exact fun hs => hs.1 x (by simp)
  · refine fun hx => ⟨fun f hf => ?_, htail.orderedInsert x⟩
    rcases (List.mem_orderedInsert Earlier).mp hf with rfl | hf
    · exact hx
    · exact hhead f hf

namespace Adl.Sorted

/-- The head is a pair with the least wake time. -/
theorem head_least (hs : a.Sorted) {e : Word × ℤ} {es : List (Word × ℤ)}
    (he : a.pending = e :: es) : ∀ f ∈ a.pending, Earlier e f := by
  have hsorted := hs.sorted
  rw [he] at hsorted ⊢
  intro f hf
  rcases List.mem_cons.mp hf with rfl | hf
  · exact le_refl _
  · exact (List.pairwise_cons.mp hsorted).1 f hf

/-- What `insertDelay` does: the list is full, or the new node goes to its place behind the head. -/
theorem insert_cases (hs : a.Sorted) (w : Word) (q : ℤ) :
    (a.pending.length = k ∧ (insertDelay w q).run a = some (false, a)) ∨
    (a.pending.length < k ∧ ∃ a' fs', (insertDelay w q).run a = some (true, a') ∧
      AdlShape a' a'.active fs' ∧ a'.pending = match a.pending with
        | [] => [(w, q)]
        | e :: es => e :: es.orderedInsert Earlier (w, q)) := by
  obtain ⟨fs, hshape⟩ := hs.shape
  have hlen := hshape.length_add_length
  rw [Adl.pending, List.length_map]
  cases fs with
  | nil => exact .inl ⟨by simpa using hlen, hshape.insertDelay_full⟩
  | cons f fs =>
    rw [List.length_cons] at hlen
    obtain ⟨a', hrun, hs', hwake, hproc⟩ := hshape.insertDelay_run (w := w) (q := q)
    refine .inr ⟨by omega, a', fs, hrun, hs'.active_eq.symm ▸ hs', ?_⟩
    rw [hs'.pending_eq]
    have hfl := hshape.notMem_of_free.1
    generalize a.active = l at hfl
    cases l with
    | nil => simp [place, Adl.entry, hwake, hproc]
    | cons h t => exact AdlShape.map_place hfl hwake hproc

/-- An insertion behaves as on a priority queue exactly when the delay belongs behind the head. -/
theorem refines_insert (hs : a.Sorted) (w : Word) (q : ℤ) :
    a.Refines (.insertDelay w q) ↔ (AdlCall.insertDelay w q).BehindHead k a.pending := by
  have hsorted := hs.sorted
  rcases hs.insert_cases w q with ⟨hfull, hrun⟩ | ⟨hroom, a', fs', hrun, hshape, hpending⟩
  · refine iff_of_true ⟨0, a, ?_, hs, .full (by simpa using hfull), fun _ => rfl⟩ ?_
    · simp [AdlCall.exec, hrun]
    · exact fun hlt => absurd hfull hlt.ne
  · have hexec : (AdlCall.exec (.insertDelay w q)).run a = some (1, a') := by
      simp [AdlCall.exec, hrun]
    have hperm : (a'.pending : Multiset (Word × ℤ)) = (w, q) ::ₘ (a.pending : Multiset _) := by
      rw [hpending, Multiset.cons_coe, Multiset.coe_eq_coe]
      cases a.pending with
      | nil => rfl
      | cons e es =>
        exact ((List.perm_orderedInsert Earlier (w, q) es).cons e).trans (.swap (w, q) e es)
    have hserves : AdlCall.Serves k a.pending (.insertDelay w q) 1 a'.pending := by
      rw [hperm]
      exact .insert (by simpa using hroom)
    have hiff : a'.Sorted ↔ (AdlCall.insertDelay w q).BehindHead k a.pending := by
      have hiff' : a'.Sorted ↔ a'.pending.Pairwise Earlier :=
        ⟨fun h => h.sorted, fun h => ⟨⟨fs', hshape⟩, h⟩⟩
      rw [hiff', hpending]
      cases hp : a.pending with
      | nil => simp [AdlCall.BehindHead]
      | cons e es =>
        rw [hp] at hsorted hroom
        rw [pairwise_behind_head hsorted]
        simp only [AdlCall.BehindHead, List.head?_cons, Option.mem_some_iff, forall_eq',
          Earlier, forall_prop_of_true hroom]
    rw [← hiff]
    constructor
    · rintro ⟨r, a₁, hrun₁, hs₁, -⟩
      obtain ⟨-, rfl⟩ := Prod.mk.inj (Option.some.inj (hexec.symm.trans hrun₁))
      exact hs₁
    · exact fun hs' => ⟨1, a', hexec, hs', hserves, fun hidle => absurd hidle hroom.ne⟩

/-- `removeDelay` on an empty list. -/
theorem remove_nil (hs : a.Sorted) (h : a.pending = []) : removeDelay.run a = some (-1, a) := by
  obtain ⟨fs, hshape⟩ := hs.shape
  rw [List.map_eq_nil_iff.mp h] at hshape
  exact hshape.removeDelay_nil

/-- `removeDelay` takes the head, and the rest stays as it is. -/
theorem remove_cons (hs : a.Sorted) {e : Word × ℤ} {es : List (Word × ℤ)}
    (h : a.pending = e :: es) :
    ∃ a', removeDelay.run a = some (e.2, a') ∧ a'.Sorted ∧ a'.pending = es := by
  obtain ⟨fs, hshape⟩ := hs.shape
  obtain ⟨d, t, hact, rfl, rfl⟩ := List.map_eq_cons_iff.mp h
  rw [hact] at hshape
  obtain ⟨a', hrun, hs', hwake, hproc⟩ := hshape.removeDelay_run
  have hentry : a'.entry = a.entry := by
    funext e
    rw [Adl.entry, hwake, hproc, Adl.entry]
  have hpending : a'.pending = t.map a.entry := by rw [hs'.pending_eq, hentry]
  have hsorted := hs.sorted
  rw [h] at hsorted
  refine ⟨a', hrun, ⟨⟨d :: fs, hs'.active_eq.symm ▸ hs'⟩, ?_⟩, hpending⟩
  rw [hpending]
  exact (List.pairwise_cons.mp hsorted).2

/-- A removal always behaves as on a priority queue. -/
theorem refines_remove (hs : a.Sorted) : a.Refines .removeDelay := by
  cases hp : a.pending with
  | nil => exact ⟨-1, a, hs.remove_nil hp, hs, .empty (by simp [hp]), fun _ => rfl⟩
  | cons e es =>
    obtain ⟨a', hrun, hs', hpending⟩ := hs.remove_cons hp
    refine ⟨e.2, a', hrun, hs', ?_, fun hidle => ?_⟩
    · have herase : (a'.pending : Multiset (Word × ℤ)) =
          (a.pending : Multiset (Word × ℤ)).erase e := by
        rw [hpending, hp, ← Multiset.cons_coe, Multiset.erase_cons_head]
      rw [herase]
      apply AdlCall.Serves.remove
      · rw [hp]
        exact Multiset.mem_coe.mpr List.mem_cons_self
      · exact hs.head_least hp
    · rw [hp] at hidle
      cases hidle

/-- From a sorted list, a call behaves as on a priority queue exactly when it inserts behind the
head. -/
theorem refines_iff (hs : a.Sorted) (c : AdlCall) : a.Refines c ↔ c.BehindHead k a.pending := by
  cases c with
  | insertDelay w q => exact hs.refines_insert w q
  | removeDelay => exact iff_of_true hs.refines_remove trivial

/-- `headDelaydTime` gives the least wake time. -/
theorem leastTime (hs : a.Sorted) : a.LeastTime a.headTime := by
  obtain ⟨fs, hshape⟩ := hs.shape
  cases hp : a.pending with
  | nil =>
    have hact : a.active = [] := List.map_eq_nil_iff.mp hp
    rw [hact] at hshape
    left
    refine ⟨hp, ?_⟩
    rw [Adl.headTime, hshape.active.start]
    rfl
  | cons e es =>
    right
    refine ⟨e, by simp [hp], (hshape.headTime_head hp).symm, hs.head_least hp⟩

end Adl.Sorted

/-! ## Runs -/

/-- The list after a call that behaves as on a priority queue holds no negative wake time if it
held none. -/
theorem AdlCall.Serves.nonneg {m m' : Multiset (Word × ℤ)} {c : AdlCall} {r : ℤ}
    (h : c.Serves k m r m') (hc : c.Sensible) (hm : ∀ e ∈ m, 0 ≤ e.1.toInt) :
    ∀ e ∈ m', 0 ≤ e.1.toInt := by
  cases h with
  | full => exact hm
  | insert =>
    intro e he
    rcases Multiset.mem_cons.mp he with rfl | he
    · exact hc
    · exact hm e he
  | empty => exact hm
  | remove => exact fun e he => hm e (Multiset.mem_of_mem_erase he)

namespace AdlRun

/-- After any sequence of calls that insert behind the head the list is sorted, and no wake time is
negative. -/
theorem inv (hrun : AdlRun a) : a.Sorted ∧ ∀ e ∈ a.pending, 0 ≤ e.1.toInt := by
  induction hrun with
  | @init a₀ a h =>
    obtain ⟨a', fs, hinit, hshape⟩ := initADL_run a₀
    obtain ⟨-, rfl⟩ := Prod.mk.inj (Option.some.inj (hinit.symm.trans h))
    refine ⟨hshape.sorted .nil, ?_⟩
    rw [hshape.pending_eq]
    rintro e ⟨⟩
  | call c hsens hc h hrun ih =>
    obtain ⟨hsorted, hnonneg⟩ := ih
    obtain ⟨r₁, a₁, hexec, hs₁, hserves, -⟩ := (hsorted.refines_iff c).mpr hc
    obtain ⟨-, rfl⟩ := Prod.mk.inj (Option.some.inj (hexec.symm.trans h))
    exact ⟨hs₁, hserves.nonneg hsens hnonneg⟩

end AdlRun

/-! ## The daemon -/

section

variable [Support] {s : VState} {p : Caller} {t c : Word} {fuel : ℕ} {g : List Note}

/-- The loop of the daemon stops when each delay that is left ends later, or by a panic. -/
theorem wakeDelayed_later (hs : s.adl.Sorted) (hnonneg : ∀ e ∈ s.adl.pending, 0 ≤ e.1.toInt)
    (hfuel : s.adl.pending.length < fuel) :
    Prog.wpx (VState.liberally p t) (wakeDelayed c fuel)
      (fun _ x => ∀ e ∈ x.1.adl.pending, c.toInt < e.1.toInt) (fun e _ => e = .panic) (s, g) := by
  induction fuel generalizing s g with
  | zero => omega
  | succ fuel ih =>
    have hhead : (VState.sem p t Word .headDelaydTime).run s = some (s.adl.headTime, s) :=
      VState.inAdl_run (headDelaydTime_run s.adl)
    simp only [wakeDelayed, Prog.wpx_bind, wpx_sup]
    refine (watched_iff hhead).mpr ?_
    rw [Prog.wpx_ite]
    cases hp : s.adl.pending with
    | nil =>
      have hfailed : s.adl.headTime = failed := by
        rcases hs.leastTime with ⟨-, h⟩ | ⟨e, he, -⟩
        · exact h
        · simp [hp] at he
      have hdone : ∀ e ∈ s.adl.pending, c.toInt < e.1.toInt := by simp [hp]
      split
      · simp only [Prog.wpx_bind, wpx_sup]
        refine (watched_iff hhead).mpr ?_
        rw [Prog.wpx_ite, if_neg (not_not.mpr hfailed)]
        exact hdone
      · exact hdone
    | cons e es =>
      obtain ⟨fs, hshape⟩ := hs.shape
      have hheadTime : s.adl.headTime = e.1 := hshape.headTime_head hp
      split
      · -- the head's time has come, and it is not the mark of an empty list
        have hne : s.adl.headTime ≠ failed := by
          intro h
          have h0 := hnonneg e (by simp [hp])
          rw [← hheadTime, h] at h0
          exact absurd h0 (by decide)
        obtain ⟨a', hrun, hs', hpending⟩ := hs.remove_cons hp
        have hrem : (VState.sem p t ℤ .removeDelay).run s = some (e.2, { s with adl := a' }) :=
          VState.inAdl_run hrun
        simp only [Prog.wpx_bind, wpx_sup]
        refine (watched_iff hhead).mpr ?_
        rw [Prog.wpx_ite, if_pos hne]
        simp only [Prog.wpx_bind, wpx_sup]
        refine (watched_iff hrem).mpr ?_
        rw [Prog.wpx_ite]
        split
        · exact rfl
        · rw [Prog.wpx_bind, wpx_sup]
          refine liberally_verhogen fun s' hv => ?_
          have hadl : s'.adl = a' := VState.verhogen_adl hv
          subst hadl
          apply ih hs'
          · intro f hf
            exact hnonneg f (by rw [hp]; exact List.mem_cons_of_mem e (hpending ▸ hf))
          · rw [hpending]
            simpa [hp] using hfuel
      · -- the head is the first to wake up
        rename_i hlater
        intro f hf
        have hle : e.1.toInt ≤ f.1.toInt := hs.head_least hp f hf
        rw [hheadTime] at hlater
        omega

/-- After a round of the daemon that does not panic, each delay that is left ends later. -/
theorem delayDaemon_later (hs : s.adl.Sorted) (hnonneg : ∀ e ∈ s.adl.pending, 0 ≤ e.1.toInt)
    {r : Except End Unit} {s' : VState}
    (hrun : (delayDaemon.run.run (VState.sem p c)).run s = some (r, s')) :
    r = .ok () ∧ (∀ e ∈ s'.adl.pending, c.toInt < e.1.toInt) ∨ r = .error .panic := by
  obtain ⟨fs, hshape⟩ := hs.shape
  have hfuel : s.adl.pending.length < Support.maxUserProc + 2 := by
    have := hshape.length_add_length
    rw [hshape.pending_eq, List.length_map]
    omega
  have hround : Prog.wpx (VState.liberally p c) delayDaemon
      (fun _ x => ∀ e ∈ x.1.adl.pending, c.toInt < e.1.toInt) (fun e _ => e = .panic) (s, []) := by
    simp only [delayDaemon, Prog.wpx_bind, wpx_sup]
    refine (watched_iff rfl).mpr ((watched_iff rfl).mpr ?_)
    exact wakeDelayed_later hs hnonneg hfuel
  have hend := Prog.of_watched hround hrun
  cases r with
  | ok u => exact .inl ⟨rfl, hend⟩
  | error e => exact .inr (congrArg Except.error hend)

/-- After any sequence of calls that insert behind the head, the list is sorted,
`headDelaydTime` gives the least wake time, the next call behaves as on a priority queue exactly
when it inserts behind the head as well, and a round of the daemon leaves nobody behind whose time
has come. -/
theorem adl_priority_queue {a : Adl (Support.maxUserProc + 1)} (hrun : AdlRun a) :
    a.Sorted ∧ (∃ t, headDelaydTime.run a = some (t, a) ∧ a.LeastTime t) ∧
    (∀ c : AdlCall, c.Sensible →
      (a.Refines c ↔ c.BehindHead (Support.maxUserProc + 1) a.pending)) ∧
    ∀ (s s' : VState) (p : Caller) (now : Word) (r : Except End Unit), s.adl = a →
      (delayDaemon.run.run (VState.sem p now)).run s = some (r, s') →
      r = .ok () ∧ (∀ e ∈ s'.adl.pending, now.toInt < e.1.toInt) ∨ r = .error .panic := by
  obtain ⟨hsorted, hnonneg⟩ := hrun.inv
  refine ⟨hsorted, ⟨a.headTime, headDelaydTime_run a, hsorted.leastTime⟩,
    fun c _ => hsorted.refines_iff c, ?_⟩
  rintro s s' p now r rfl hround
  exact delayDaemon_later hsorted hnonneg hround

end

/-- A delay that ends at 10. -/
theorem exists_adlRun : ∃ a : Adl 4, AdlRun a ∧ a.pending = [(10, 1)] := by
  obtain ⟨a₀, fs, hinit, hshape⟩ := initADL_run (k := 4) ⟨fun _ => none, fun _ => 0, fun _ => 0,
    none, none⟩
  have hrun₀ := AdlRun.init hinit
  have hempty : a₀.pending = [] := hshape.pending_eq
  rcases hrun₀.inv.1.insert_cases 10 1 with ⟨hfull, -⟩ | ⟨-, a₁, fs₁, hexec, -, hpending⟩
  · simp [hempty] at hfull
  · rw [hempty] at hpending
    have hcall : (AdlCall.exec (.insertDelay 10 1)).run a₀ = some (1, a₁) := by
      rw [AdlCall.exec, StateT.run_bind, hexec]
      rfl
    refine ⟨a₁, .call (.insertDelay 10 1) ?_ ?_ hcall hrun₀, hpending⟩
    · exact (by decide : 0 ≤ (10 : Word).toInt)
    · rw [hempty]
      rintro - e ⟨⟩

/-- A delay that ends later goes behind it. -/
theorem adl_priority_queue_later : ∃ (_ : Support) (a : Adl (Support.maxUserProc + 1)),
    AdlRun a ∧ a.pending = [(10, 1)] ∧ a.Refines (.insertDelay 20 2) := by
  let _ := threeUsers
  obtain ⟨a, hrun, hpending⟩ := exists_adlRun
  refine ⟨threeUsers, a, hrun, hpending, ?_⟩
  have hsens : (AdlCall.insertDelay 20 2).Sensible := (by decide : 0 ≤ (20 : Word).toInt)
  apply ((adl_priority_queue hrun).2.2.1 _ hsens).mpr
  rw [hpending]
  rintro - e ⟨⟩
  decide

/-- A delay that ends earlier goes behind it as well: the list is not sorted afterwards, its head is
not the least, and a round at 5 leaves it where it is. -/
theorem adl_priority_queue_fails : ∃ a a' : Adl 4, AdlRun a ∧
    (insertDelay 5 2).run a = some (true, a') ∧ a'.pending = [(10, 1), (5, 2)] ∧
    ¬ a'.Sorted ∧ ¬ a'.LeastTime a'.headTime := by
  obtain ⟨a, hrun, hpending⟩ := exists_adlRun
  rcases hrun.inv.1.insert_cases 5 2 with ⟨hfull, -⟩ | ⟨-, a', fs, hexec, hshape, hafter⟩
  · simp [hpending] at hfull
  · rw [hpending] at hafter
    have hafter : a'.pending = [(10, 1), (5, 2)] := hafter
    refine ⟨a, a', hrun, hexec, hafter, fun hs => ?_, fun ht => ?_⟩
    · have hsorted := hs.sorted
      rw [hafter] at hsorted
      revert hsorted
      decide
    · have hhead : a'.headTime = 10 := hshape.headTime_head hafter
      rw [Adl.LeastTime, hhead, hafter] at ht
      revert ht
      decide

end Jaeos
