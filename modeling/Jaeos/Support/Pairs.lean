import Jaeos.Support.Avsl

/-!
# The AVSL as a list of pairs

What `vInsertBlocked` and `vRemoveBlocked` do to a list of pairs of a semaphore and a
process. The data of `avsl.c` refine the list as long as no call takes out the head of a
longer list; a call that does leaves the old head both free and on the ring.
-/

namespace Jaeos

/-- A call of `avsl.c`. -/
inductive AvslCall where
  /-- `vInsertBlocked(vSemAdd, procID)` -/
  | vInsertBlocked (vSemAdd : Word) (procID : ℤ)
  /-- `vRemoveBlocked(vSemAdd)` -/
  | vRemoveBlocked (vSemAdd : Word)

namespace AvslCall

/-- The call and its result, an `int`: `TRUE` is 1 and `FALSE` is 0. -/
def exec : AvslCall → AvslM ℤ
  | vInsertBlocked v q => do return if ← Jaeos.vInsertBlocked v q then 1 else 0
  | vRemoveBlocked v => Jaeos.vRemoveBlocked v

variable (es : List (Word × ℤ))

/-- The result, by the list. -/
def result : AvslCall → ℤ
  | vInsertBlocked _ _ => if es.length = maxProc + 1 then 0 else 1
  | vRemoveBlocked v =>
    match es.find? fun e => e.1 = v with
    | some e => e.2
    | none => 0

/-- The list after the call. -/
def next : AvslCall → List (Word × ℤ)
  | vInsertBlocked v q => if es.length = maxProc + 1 then es else es ++ [(v, q)]
  | vRemoveBlocked v => es.eraseP fun e => e.1 = v

/-- There is nothing to do: no room, or no pair for the semaphore. -/
def Idle : AvslCall → Prop
  | vInsertBlocked _ _ => es.length = maxProc + 1
  | vRemoveBlocked v => ∀ e ∈ es, e.1 ≠ v

/-- The call does not take out the head of a list of two pairs or more. -/
def SparesHead : AvslCall → Prop
  | vInsertBlocked _ _ => True
  | vRemoveBlocked v => ∀ q e es', es ≠ (v, q) :: e :: es'

/-- From these data, the call behaves as the list says. -/
def Refines (a : Avsl) (c : AvslCall) : Prop :=
  ∃ a', c.exec.run a = some (c.result es, a') ∧ a'.Holds (c.next es) ∧ (c.Idle es → a' = a)

end AvslCall

/-- The data and lists that a sequence of calls reaches from `initAVSL`, as long as the calls spare
the head. -/
inductive AvslRun : Avsl → List (Word × ℤ) → Prop
  /-- `initAVSL`, from any data -/
  | init {a₀ a : Avsl} (h : initAVSL.run a₀ = some ((), a)) : AvslRun a []
  /-- one more call -/
  | call {a a' : Avsl} {es : List (Word × ℤ)} {r : ℤ} (c : AvslCall) (hc : c.SparesHead es)
    (h : c.exec.run a = some (r, a')) (hrun : AvslRun a es) : AvslRun a' (c.next es)

variable {a : Avsl} {es : List (Word × ℤ)}

namespace Avsl.Holds

/-- The first pair for a semaphore, if there is one. -/
theorem find_cases (es : List (Word × ℤ)) (v : Word) : (∀ e ∈ es, e.1 ≠ v) ∨
    ∃ e₁ q e₂, es = e₁ ++ (v, q) :: e₂ ∧ ∀ e ∈ e₁, e.1 ≠ v := by
  cases hnamed : named es v with
  | nil => exact .inl (by simpa [named] using hnamed)
  | cons q rest =>
    obtain ⟨e₁, e₂, hes, hfirst, -⟩ := exists_of_named hnamed
    exact .inr ⟨e₁, q, e₂, hes, hfirst⟩

theorem refines_insert (h : a.Holds es) (v : Word) (q : ℤ) :
    (AvslCall.vInsertBlocked v q).Refines es a := by
  by_cases hfull : es.length = maxProc + 1
  · refine ⟨a, ?_, ?_, fun _ => rfl⟩
    · simp [AvslCall.exec, AvslCall.result, hfull, h.insert_full hfull]
    · simpa [AvslCall.next, hfull] using h
  · have hlen := h.length_le
    obtain ⟨a', hrun, ha'⟩ := h.insert (v := v) (q := q) (by omega)
    refine ⟨a', ?_, ?_, fun hidle => absurd hidle hfull⟩
    · simp [AvslCall.exec, AvslCall.result, hfull, hrun]
    · simpa [AvslCall.next, hfull] using ha'

theorem refines_absent (h : a.Holds es) {v : Word} (hv : ∀ e ∈ es, e.1 ≠ v) :
    (AvslCall.vRemoveBlocked v).Refines es a := by
  have hfind : es.find? (fun e => e.1 = v) = none := by simpa using hv
  refine ⟨a, ?_, ?_, fun _ => rfl⟩
  · simpa [AvslCall.exec, AvslCall.result, hfind] using h.absent hv
  · rw [AvslCall.next, List.eraseP_of_forall_not (by simpa using hv)]
    exact h

/-- What the list says about the first pair for a semaphore. -/
theorem result_first {e₁ e₂ : List (Word × ℤ)} {v : Word} {q : ℤ} (hfirst : ∀ e ∈ e₁, e.1 ≠ v) :
    (AvslCall.vRemoveBlocked v).result (e₁ ++ (v, q) :: e₂) = q ∧
      (AvslCall.vRemoveBlocked v).next (e₁ ++ (v, q) :: e₂) = e₁ ++ e₂ := by
  have hnone : e₁.find? (fun e => e.1 = v) = none := by simpa using hfirst
  refine ⟨?_, ?_⟩
  · simp [AvslCall.result, List.find?_append, hnone]
  · rw [AvslCall.next, List.eraseP_append_right _ (by simpa using hfirst)]
    simp

theorem refines_remove {e₁ e₂ : List (Word × ℤ)} {v : Word} {q : ℤ}
    (h : a.Holds (e₁ ++ (v, q) :: e₂)) (hfirst : ∀ e ∈ e₁, e.1 ≠ v)
    (hc : (AvslCall.vRemoveBlocked v).SparesHead (e₁ ++ (v, q) :: e₂)) :
    (AvslCall.vRemoveBlocked v).Refines (e₁ ++ (v, q) :: e₂) a := by
  have hlong : ¬ a.LongHead v := by
    rw [Avsl.LongHead, h.entries_eq]
    intro hlong
    split at hlong
    · rename_i e f es' heq
      obtain ⟨w, r⟩ := e
      obtain rfl : w = v := hlong
      exact hc r f es' heq
    · exact hlong
  obtain ⟨a', hrun, ha'⟩ := h.remove hfirst hlong
  obtain ⟨hresult, hnext⟩ : (AvslCall.vRemoveBlocked v).result (e₁ ++ (v, q) :: e₂) = q ∧
      (AvslCall.vRemoveBlocked v).next (e₁ ++ (v, q) :: e₂) = e₁ ++ e₂ := result_first hfirst
  refine ⟨a', ?_, ?_, fun hidle => absurd rfl (hidle (v, q) (by simp))⟩
  · rw [hresult]
    exact hrun
  · rw [hnext]
    exact ha'

/-- Taking out the head of a longer list leaves data that hold no list. -/
theorem not_holds_of_head {v : Word} {q : ℤ} {e : Word × ℤ} {es' : List (Word × ℤ)}
    (h : a.Holds ((v, q) :: e :: es')) :
    ∃ a', (vRemoveBlocked v).run a = some (q, a') ∧ ∀ es'', ¬ a'.Holds es'' := by
  obtain ⟨l, fs, hs, hes⟩ := h
  obtain ⟨d, r, rfl, hd, hr⟩ := List.map_eq_cons_iff.mp hes
  obtain ⟨x, r, rfl, -, -⟩ := List.map_eq_cons_iff.mp hr
  obtain ⟨rfl, rfl⟩ : a.vsSemaphore d = v ∧ a.vsProcID d = q := Prod.mk.inj hd
  obtain ⟨a', hrun, hfree, hhead, hnext⟩ := hs.vRemoveBlocked_head rfl
  refine ⟨a', hrun, ?_⟩
  rintro es'' ⟨l', fs', hs', -⟩
  exact hs.not_shape_of_head hfree hhead hnext hs'

/-- From well-formed data, a call behaves as the list says exactly when it spares the head. -/
theorem refines_iff (h : a.Holds es) (c : AvslCall) : c.Refines es a ↔ c.SparesHead es := by
  constructor
  · rintro ⟨a', hrun, ha', -⟩
    cases c with
    | vInsertBlocked v q => trivial
    | vRemoveBlocked v =>
      rintro q e es' rfl
      obtain ⟨a₁, hrun₁, hnot⟩ := h.not_holds_of_head
      obtain ⟨-, rfl⟩ := Prod.mk.inj (Option.some.inj (hrun₁.symm.trans hrun))
      exact hnot _ ha'
  · intro hc
    cases c with
    | vInsertBlocked v q => exact h.refines_insert v q
    | vRemoveBlocked v =>
      rcases find_cases es v with hv | ⟨e₁, q, e₂, rfl, hfirst⟩
      · exact h.refines_absent hv
      · exact h.refines_remove hfirst hc

end Avsl.Holds

theorem AvslRun.holds (hrun : AvslRun a es) : a.Holds es := by
  induction hrun with
  | init h => exact .of_init h
  | call c hc h hrun ih =>
    obtain ⟨a₁, hexec, ha₁, -⟩ := (ih.refines_iff c).mpr hc
    obtain ⟨-, rfl⟩ := Prod.mk.inj (Option.some.inj (hexec.symm.trans h))
    exact ha₁

/-- After any sequence of calls that spare the head, the active nodes form a ring that holds the
list and the others are free; and the next call returns what the list says and has its effect
exactly when it spares the head as well. -/
theorem avsl_refines_pairs (hrun : AvslRun a es) :
    a.Holds es ∧ ∀ c : AvslCall, c.Refines es a ↔ c.SparesHead es :=
  ⟨hrun.holds, hrun.holds.refines_iff⟩

/-- Two processes wait for one semaphore each. -/
theorem exists_avslRun : ∃ a, AvslRun a [(8, 1), (16, 2)] := by
  obtain ⟨a₀, -, hinit, -⟩ := initAVSL_run ⟨fun _ => none, fun _ => none, fun _ => 0, fun _ => 0,
    none, none⟩
  have hrun₀ := AvslRun.init hinit
  obtain ⟨a₁, hexec₁, -⟩ := hrun₀.holds.refines_insert 8 1
  have hrun₁ := AvslRun.call (.vInsertBlocked 8 1) trivial hexec₁ hrun₀
  obtain ⟨a₂, hexec₂, -⟩ := hrun₁.holds.refines_insert 16 2
  exact ⟨a₂, .call (.vInsertBlocked 16 2) trivial hexec₂ hrun₁⟩

/-- The second one can be taken out. -/
theorem avsl_refines_pairs_inner : ∃ a a', AvslRun a [(8, 1), (16, 2)] ∧
    (vRemoveBlocked 16).run a = some (2, a') ∧ a'.Holds [(8, 1)] := by
  obtain ⟨a, hrun⟩ := exists_avslRun
  have hspares : (AvslCall.vRemoveBlocked 16).SparesHead [(8, 1), (16, 2)] := by
    rintro q e es' heq
    cases heq
  obtain ⟨a', hexec, ha', -⟩ := ((avsl_refines_pairs hrun).2 _).mpr hspares
  exact ⟨a, a', hrun, hexec, ha'⟩

/-- The first one cannot: the data are corrupt afterwards. -/
theorem avsl_refines_pairs_fails : ∃ a a', AvslRun a [(8, 1), (16, 2)] ∧
    (vRemoveBlocked 8).run a = some (1, a') ∧ ∀ es, ¬ a'.Holds es := by
  obtain ⟨a, hrun⟩ := exists_avslRun
  obtain ⟨a', hexec, hnot⟩ := hrun.holds.not_holds_of_head
  exact ⟨a, a', hrun, hexec, hnot⟩

end Jaeos
