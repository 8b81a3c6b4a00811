import Jaeos.Support.Waiters

/-!
# The nodes of the AVSL

Each node belongs to a process that is blocked inside its SYS12 or SYS13, and no process
has two. So there is always a free node for the next one. A run keeps this as long as
no delay ends: the daemon wakes a process without taking its node off the AVSL.
-/

namespace Jaeos

variable [Support]

/-! ## Inside a request -/

/-- The last request of a process. -/
def lastCall : List (VState × VEvent) → ℤ → Option Caller
  | [], _ => none
  | (_, .call c _) :: tr, p => if c.procID = p then some c else lastCall tr p
  | _ :: tr, p => lastCall tr p

/-- The last request of `p` is SYS12 on `v`, or SYS13, with the `Tp_sem` of `p` in the place of
`v`. -/
def Asked (tr : List (VState × VEvent)) (p : ℤ) (v : Word) : Prop :=
  ∃ c, lastCall tr p = some c ∧ (((c.regs sA1).toInt = 12 ∧ v = c.regs sA2) ∨
    ((c.regs sA1).toInt = 13 ∧ v = Support.tpSem p))

/-- Each node belongs to a process that is blocked inside its SYS12 or SYS13, and no process has
two. -/
structure Occupied (tr : List (VState × VEvent)) (s : VState) : Prop where
  /-- the owner is blocked -/
  blocked : ∀ d ∈ s.avsl.active, s.Blocked (s.avsl.vsProcID d)
  /-- inside its SYS12 or SYS13 -/
  asked : ∀ d ∈ s.avsl.active, Asked tr (s.avsl.vsProcID d) (s.avsl.vsSemaphore d)
  /-- no process has two nodes -/
  once : (s.avsl.active.map s.avsl.vsProcID).Nodup

namespace VEvent

/-- SYS11 and SYS12 are on words of the user segments, SYS11 spares the head of a longer list, and a
round of the daemon finds no delay that has ended. -/
def Calm (s : VState) : VEvent → Prop
  | call p t => ((p.regs sA1).toInt ≠ 13 → kUseg2Addr ≤ p.regs sA2) ∧ (call p t).SparesHead s
  | round t => t.toInt < s.adl.headTime.toInt ∨ s.adl.headTime = failed
  | write _ _ => True

instance (s : VState) : ∀ e : VEvent, Decidable (e.Calm s)
  | call _ _ => inferInstanceAs (Decidable ((_ → _) ∧ _))
  | round _ => inferInstanceAs (Decidable (_ ∨ _))
  | write _ _ => inferInstanceAs (Decidable True)

end VEvent

variable {tr : List (VState × VEvent)} {s s' : VState} {es : List (Word × ℤ)} {p : Caller}
  {t v : Word} {q : ℤ}

theorem asked_of_ne (h : q ≠ p.procID) : Asked ((s, .call p t) :: tr) q v ↔ Asked tr q v := by
  rw [Asked, lastCall, if_neg (Ne.symm h), Asked]

/-! ## What a step keeps -/

/-- The state is matched, the delay list is well formed, and each pair is asked for. -/
structure OInv (tr : List (VState × VEvent)) (s : VState) (es : List (Word × ℤ)) : Prop where
  /-- the state is matched -/
  matched : Matched s es
  /-- the delay list is well formed -/
  adl : ∃ l fs, AdlShape s.adl l fs
  /-- each pair is asked for -/
  asked : ∀ e ∈ es, Asked tr e.2 e.1

theorem OInv.occupied (h : OInv tr s es) : Occupied tr s := by
  have hes : s.avsl.active.map s.avsl.entry = es := h.matched.holds.entries_eq
  have hmem : ∀ d ∈ s.avsl.active, s.avsl.entry d ∈ es := fun d hd => hes ▸ List.mem_map_of_mem hd
  refine ⟨fun d hd => ?_, fun d hd => h.asked _ (hmem d hd), ?_⟩
  · have hproc : s.avsl.vsProcID d ∈ es.map Prod.snd := List.mem_map_of_mem (hmem d hd)
    exact ((h.matched.mem_iff _).mp hproc).2
  · have honce := h.matched.once
    rw [← hes, List.map_map] at honce
    exact honce

section

variable (hpl : Placed) (hN : Support.maxUserProc ≤ maxProc + 1) (hinv : OInv tr s es)

include hinv

/-- A request that adds no pair. -/
theorem OInv.congr {es' : List (Word × ℤ)} (hm : Matched s' es') (hadl : s'.adl = s.adl)
    (hsub : ∀ e ∈ es', e ∈ es) (hb : ¬ s.Blocked p.procID) :
    OInv ((s, .call p t) :: tr) s' es' := by
  refine ⟨hm, hadl ▸ hinv.adl, fun e he => ?_⟩
  refine (asked_of_ne ?_).mpr (hinv.asked e (hsub e he))
  rintro heq
  exact hinv.matched.notMem hb (heq ▸ List.mem_map_of_mem (hsub e he))

/-- A request that adds the pair it asks for. -/
theorem OInv.append (hm : Matched s' (es ++ [(v, p.procID)]))
    (hadl : ∃ l fs, AdlShape s'.adl l fs) (hb : ¬ s.Blocked p.procID)
    (hasked : Asked ((s, .call p t) :: tr) p.procID v) :
    OInv ((s, .call p t) :: tr) s' (es ++ [(v, p.procID)]) := by
  refine ⟨hm, hadl, fun e he => ?_⟩
  rcases List.mem_append.mp he with he | he
  · refine (asked_of_ne ?_).mpr (hinv.asked e he)
    rintro heq
    exact hinv.matched.notMem hb (heq ▸ List.mem_map_of_mem he)
  · obtain rfl := List.mem_singleton.mp he
    exact hasked

include hpl hN

/-- SYS12 and SYS13 return, find a node and keep the invariant. -/
theorem OInv.insert (hp : IsUser p.procID) (hb : ¬ s.Blocked p.procID)
    (hnum : (p.regs sA1).toInt = 12 ∨ (p.regs sA1).toInt = 13)
    (hcalm : (VEvent.call p t).Calm s) : ∃ s' es',
    (VEvent.call p t).run s = some s' ∧ OInv ((s, .call p t) :: tr) s' es' ∧
      Note.vInsertBlocked false ∉ (VEvent.call p t).notes s := by
  have hlast : lastCall ((s, VEvent.call p t) :: tr) p.procID = some p := by simp [lastCall]
  rcases hnum with hnum | hnum
  · have hv := hpl.apart (hcalm.1 (by omega))
    by_cases hneg : (s.mem (p.regs sA2) - 1).toInt < 0
    · obtain ⟨s', hrun, hnotes, hm, hadl, -⟩ :=
        psem_block (t := t) hN hp hpl hinv.matched hb hnum hv hneg
      refine ⟨s', _, hrun, hinv.append hm (hadl ▸ hinv.adl) hb ?_, by simp [hnotes]⟩
      exact ⟨p, hlast, .inl ⟨hnum, rfl⟩⟩
    · obtain ⟨hrun, hnotes⟩ := psem_pass (t := t) (s := s) hN hp hnum (by omega)
      exact ⟨_, es, hrun, hinv.congr (hinv.matched.store hv) rfl (fun _ he => he)
        hb, by simp [hnotes]⟩
  · obtain ⟨l, fs, hs⟩ := hinv.adl
    obtain ⟨ok, d', l', fs', hdel, hs'⟩ :=
      hs.insertDelay_result (w := t + p.regs sA2 * timeScale) (q := p.procID)
    obtain ⟨s', hrun, hnotes, hadl, hm, -, -⟩ :=
      delay_block hN hp hpl hinv.matched hb hnum hdel
    refine ⟨s', _, hrun, hinv.append hm ⟨l', fs', hadl ▸ hs'⟩ hb ?_, by simp [hnotes]⟩
    exact ⟨p, hlast, .inr ⟨hnum, rfl⟩⟩

/-- SYS11 keeps the invariant. -/
theorem OInv.remove (hp : IsUser p.procID) (hb : ¬ s.Blocked p.procID)
    (hnum : (p.regs sA1).toInt = 11) (hcalm : (VEvent.call p t).Calm s)
    (hrun : (VEvent.call p t).run s = some s') : ∃ es', OInv ((s, .call p t) :: tr) s' es' := by
  have hv := hpl.apart (hcalm.1 (by omega))
  by_cases hpos : 0 < (s.mem (p.regs sA2) + 1).toInt
  · obtain ⟨hrun', -⟩ := vsem_pass (t := t) (s := s) hN hp hnum hpos
    obtain rfl := Option.some.inj (hrun'.symm.trans hrun)
    exact ⟨es, hinv.congr (hinv.matched.store hv) rfl (fun _ he => he) hb⟩
  · cases hnamed : named es (p.regs sA2) with
    | nil =>
      have habsent : ∀ e ∈ es, e.1 ≠ p.regs sA2 := by
        simpa [named] using hnamed
      obtain ⟨hm, hadl, -⟩ :=
        vsem_absent hN hp hpl hinv.matched hnum hv (by omega) habsent hrun
      exact ⟨es, hinv.congr hm hadl (fun _ he => he) hb⟩
    | cons q rest =>
      obtain ⟨e₁, e₂, rfl, hfirst, -⟩ := exists_of_named hnamed
      obtain ⟨s₁, hrun', -, hm, hadl, -⟩ := vsem_wake (t := t) hN hp hpl hinv.matched hnum hv
        (by omega) hfirst (hcalm.2 hnum (by omega))
      obtain rfl := Option.some.inj (hrun'.symm.trans hrun)
      refine ⟨e₁ ++ e₂, hinv.congr hm hadl (fun e he => ?_) hb⟩
      rcases List.mem_append.mp he with he | he
      · exact List.mem_append_left _ he
      · exact List.mem_append_right _ (List.mem_cons_of_mem _ he)

end

/-! ## Every run -/

/-- The runs of requests, rounds of the daemon and stores to user memory. -/
abbrev VRun : List (VState × VEvent) → VState → Prop := Transition.Run VState.Initial VStep

/-- In every run of calm steps each node of the AVSL belongs to a process blocked inside its SYS12
or SYS13, at most one each, and a further such request finds a free node. -/
theorem avsl_occupancy (hpl : Placed) (hN : Support.maxUserProc ≤ maxProc + 1) (hrun : VRun tr s)
    (hok : ∀ x ∈ tr, x.2.Calm x.1) : Occupied tr s ∧ ∀ p t, (VEvent.call p t).Enabled s →
      (VEvent.call p t).Calm s → (p.regs sA1).toInt ≠ 11 →
        ∃ s', VStep s (.call p t) s' ∧ Note.vInsertBlocked false ∉ (VEvent.call p t).notes s := by
  obtain ⟨es, hinv⟩ : ∃ es, OInv tr s es := by
    refine hrun.trace_invariant (I := fun tr s => ∃ es, OInv tr s es)
      (G := fun _ s e => e.Calm s) ?_ ?_ fun pre x post htr => hok x (by simp [htr])
    · intro s hinit
      obtain ⟨a, ha⟩ := hinit.adl
      obtain ⟨a', fs, hrun, hs⟩ := initADL_run a
      obtain ⟨-, rfl⟩ := Prod.mk.inj (Option.some.inj (hrun.symm.trans ha))
      exact ⟨[], Matched.of_initial hinit, ⟨[], fs, hs⟩, by simp⟩
    · rintro tr s e s' - ⟨es, hinv⟩ hcalm ⟨hen, hstep⟩
      cases e with
      | round t =>
        obtain ⟨hrun, -⟩ := round_calm hcalm
        obtain rfl := Option.some.inj (hrun.symm.trans hstep)
        exact ⟨es, hinv.matched, hinv.adl, hinv.asked⟩
      | write a w =>
        obtain ⟨hrun, -⟩ := VEvent.run_of_wpx (e := .write a w) (s := s) (r := (s.store a w, []))
          (contract_storeWord.mpr rfl)
        obtain rfl := Option.some.inj (hrun.symm.trans hstep)
        exact ⟨es, hinv.matched.store (hpl.apart hen), hinv.adl, hinv.asked⟩
      | call p t =>
        obtain ⟨hp, hb, hnum⟩ := hen
        by_cases h11 : (p.regs sA1).toInt = 11
        · exact hinv.remove hpl hN hp hb h11 hcalm hstep
        · have hnum' : (p.regs sA1).toInt = 12 ∨ (p.regs sA1).toInt = 13 := by
            simpa [VEvent.number, h11] using hnum
          obtain ⟨s₁, es', hrun, hinv', -⟩ := hinv.insert (t := t) hpl hN hp hb hnum' hcalm
          obtain rfl := Option.some.inj (hrun.symm.trans hstep)
          exact ⟨es', hinv'⟩
  refine ⟨hinv.occupied, fun p t hen hcalm h11 => ?_⟩
  have hnum' : (p.regs sA1).toInt = 12 ∨ (p.regs sA1).toInt = 13 := by
    simpa [VEvent.number, h11] using hen.2.2
  obtain ⟨s', es', hrun, -, hnotes⟩ := hinv.insert (t := t) hpl hN hen.1 hen.2.1 hnum' hcalm
  exact ⟨s', ⟨hen, hrun⟩, hnotes⟩

omit [Support] in
/-- One process waits for a semaphore and one for a time that has not come, and a third one can do
so as well. -/
theorem avsl_occupancy_two : ∃ (_ : Support) (tr : List (VState × VEvent)) (s : VState),
    s.avsl.active ≠ [] ∧ Occupied tr s ∧ ∃ s', VStep s (request 3 12 kUseg3Addr 0) s' ∧
      Note.vInsertBlocked false ∉ (request 3 12 kUseg3Addr 0).notes s := by
  let _ := threeUsers
  have hexec : (Transition.execIf VEvent.run (fun s e => e.Enabled s ∧ e.Calm s)
      [request 1 12 kUseg3Addr 0, request 2 13 5 0, .round 0] VState.boot).map (fun s => decide
        (s.avsl.active ≠ [] ∧ (request 3 12 kUseg3Addr 0).Enabled s ∧
          (request 3 12 kUseg3Addr 0).Calm s)) = some true := by
    decide +kernel
  obtain ⟨s, hs, hnext⟩ := Option.map_eq_some_iff.mp hexec
  obtain ⟨hne, hen, hcalm⟩ := of_decide_eq_true hnext
  have hstart : VRun [] VState.boot := .start VState.boot_initial
  obtain ⟨tr, hrun, hok⟩ : ∃ tr, VRun tr s ∧ ∀ x ∈ tr, x.2.Enabled x.1 ∧ x.2.Calm x.1 :=
    Transition.execIf_run (fun s e s' he h => ⟨he.1, h⟩) hstart (by simp) hs
  obtain ⟨hocc, hstep⟩ := avsl_occupancy placed_threeUsers (by decide) hrun fun x hx => (hok x hx).2
  exact ⟨threeUsers, tr, s, hne, hocc, hstep _ 0 hen hcalm (by decide)⟩

omit [Support] in
/-- A delay of no time: the daemon wakes the process, and its node stays on the AVSL. -/
theorem avsl_occupancy_fails : ¬ ∀ (_ : Support) (tr : List (VState × VEvent))
    (s : VState), Placed →
    Support.maxUserProc ≤ maxProc + 1 → VRun tr s → Occupied tr s := by
  intro h
  let _ := threeUsers
  have hexec : (Transition.execIf VEvent.run (fun s e => e.Enabled s)
      [request 1 13 0 0, .round 0] VState.boot).map (fun s => decide
        (∃ d ∈ s.avsl.active, ¬ s.Blocked (s.avsl.vsProcID d))) = some true := by
    decide +kernel
  obtain ⟨s, hs, hleft⟩ := Option.map_eq_some_iff.mp hexec
  obtain ⟨d, hd, hb⟩ := of_decide_eq_true hleft
  have hstart : VRun [] VState.boot := .start VState.boot_initial
  obtain ⟨tr, hrun, -⟩ : ∃ tr, VRun tr s ∧ ∀ x ∈ tr, x.2.Enabled x.1 :=
    Transition.execIf_run (fun s e s' he h => ⟨he, h⟩) hstart (by simp) hs
  exact hb ((h threeUsers tr s placed_threeUsers (by decide) hrun).blocked d hd)

end Jaeos
