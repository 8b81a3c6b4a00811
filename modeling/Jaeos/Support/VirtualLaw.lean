import Jaeos.Support.Waiters

/-!
# The law of virtual semaphores

A semaphore that starts at 0 or above and that only SYS11 and SYS12 change has as many
pairs on the AVSL as its value is below 0. They name the processes blocked by SYS12 on
it, in the order of their calls, so a SYS11 wakes the one that has waited longest. Every
run keeps the law as long as no SYS11 has to take out the head of a longer list.
-/

namespace Jaeos

variable [Support]

/-! ## Who is blocked on a virtual semaphore -/

/-- The processes whose last request is SYS12 on `v`, in the order of these requests. -/
def lastPs : List (VState × VEvent) → Word → List ℤ
  | [], _ => []
  | (_, .call p _) :: tr, v =>
    (lastPs tr v).filter (· ≠ p.procID) ++
      if (p.regs sA1).toInt = 12 ∧ p.regs sA2 = v then [p.procID] else []
  | _ :: tr, v => lastPs tr v

/-- The processes blocked by SYS12 on `v`, the one that has waited longest first. -/
def blockedBy (tr : List (VState × VEvent)) (s : VState) (v : Word) : List ℤ :=
  (lastPs tr v).filter fun p => s.Blocked p

variable {tr : List (VState × VEvent)} {s s' : VState} {p : Caller} {t v w : Word} {q : ℤ}

/-- A request that wakes nobody: its caller is the youngest if it has blocked. -/
theorem blockedBy_call (hb : ¬ s.Blocked p.procID)
    (hB : ∀ r, r ≠ p.procID → (s'.Blocked r ↔ s.Blocked r)) :
    blockedBy ((s, .call p t) :: tr) s' v = blockedBy tr s v ++
      if ((p.regs sA1).toInt = 12 ∧ p.regs sA2 = v) ∧ s'.Blocked p.procID then
          [p.procID] else [] := by
  rw [blockedBy, lastPs, List.filter_append, List.filter_filter]
  congr 1
  · refine List.filter_congr fun r _ => ?_
    by_cases hr : r = p.procID
    · simp [hr, hb]
    · simp [hr, hB r hr]
  · by_cases hc : (p.regs sA1).toInt = 12 ∧ p.regs sA2 = v <;>
      by_cases hp : s'.Blocked p.procID <;> simp [hc, hp]

/-- A SYS11 that wakes `q`. -/
theorem blockedBy_wake (hb : ¬ s.Blocked p.procID) (hnum : (p.regs sA1).toInt = 11)
    (hB : ∀ r, s'.Blocked r ↔ s.Blocked r ∧ r ≠ q) :
    blockedBy ((s, .call p t) :: tr) s' v = (blockedBy tr s v).filter (· ≠ q) := by
  rw [blockedBy, lastPs, if_neg (by simp [hnum]), List.append_nil, blockedBy, List.filter_filter,
    List.filter_filter]
  refine List.filter_congr fun r _ => ?_
  by_cases hr : r = p.procID
  · simp [hr, hb, hB]
  · simp [hr, hB, and_comm]

/-! ## The law -/

/-- The pairs for `v` name the processes blocked on it, as many as its value is below 0. -/
structure VSemLaw (tr : List (VState × VEvent)) (s : VState) (v : Word) : Prop where
  /-- the pairs name the blocked processes, in the order of their calls -/
  names : s.avsl.procs v = blockedBy tr s v
  /-- there are as many as the value is below 0 -/
  count : ((s.avsl.procs v).length : ℤ) = max 0 (-(s.mem v).toInt)

/-- A SYS11 wakes the process that has waited longest, if the semaphore is not positive then, and
nobody else. -/
structure WakesOldest (tr : List (VState × VEvent)) (s : VState) (p : Caller) (t : Word)
    (s' : VState) : Prop where
  /-- a positive semaphore wakes nobody -/
  idle : 0 < (s'.mem (p.regs sA2)).toInt → (VEvent.call p t).verhogens s = [] ∧
    (∀ r, s'.Blocked r ↔ s.Blocked r) ∧ ∀ w, s'.avsl.procs w = s.avsl.procs w
  /-- otherwise the oldest is woken, and the others stay where they are -/
  wakes : (s'.mem (p.regs sA2)).toInt ≤ 0 → ∃ q rest,
    blockedBy tr s (p.regs sA2) = q :: rest ∧ (VEvent.call p t).verhogens s = [.tpSem q] ∧
      (∀ r, s'.Blocked r ↔ s.Blocked r ∧ r ≠ q) ∧ s'.avsl.procs (p.regs sA2) = rest ∧
      ∀ w, w ≠ p.regs sA2 → s'.avsl.procs w = s.avsl.procs w

namespace VEvent

/-- The step is a SYS11 or SYS12 on one of `V`, or a store to other memory. -/
def On (V : Set Word) : VEvent → Prop
  | call p _ => (p.regs sA1).toInt ≠ 13 ∧ p.regs sA2 ∈ V
  | round _ => False
  | write a _ => a ∉ V

instance (V : Set Word) [DecidablePred (· ∈ V)] : ∀ e : VEvent, Decidable (e.On V)
  | call _ _ => inferInstanceAs (Decidable (_ ≠ _ ∧ _ ∈ V))
  | round _ => inferInstanceAs (Decidable False)
  | write _ _ => inferInstanceAs (Decidable (_ ∉ V))

/-- A SYS11 does not overflow its semaphore. -/
def Fits (s : VState) : VEvent → Prop
  | call p _ => (p.regs sA1).toInt = 11 → (s.mem (p.regs sA2)).toInt ≠ 2 ^ 31 - 1
  | _ => True

instance (s : VState) : ∀ e : VEvent, Decidable (e.Fits s)
  | call _ _ => inferInstanceAs (Decidable (_ → _ ≠ _))
  | round _ | write _ _ => inferInstanceAs (Decidable True)

end VEvent

/-- The runs of SYS11 and SYS12 on `V`, from semaphores at 0 or above. -/
abbrev VRunOn (V : Set Word) : List (VState × VEvent) → VState → Prop :=
  Transition.Run (fun s => s.Initial ∧ ∀ v ∈ V, 0 ≤ (s.mem v).toInt)
    fun s e s' => VStep s e s' ∧ e.On V

/-! ## The steps keep the law -/

/-- The state is matched, and the law holds of all semaphores. -/
def VInv (V : Set Word) (tr : List (VState × VEvent)) (s : VState) (es : List (Word × ℤ)) : Prop :=
  Matched s es ∧ ∀ v ∈ V, VSemLaw tr s v

variable {V : Set Word} {es e₁ e₂ : List (Word × ℤ)} {a : Word}

/-- The law of a semaphore that the step leaves alone. -/
theorem VSemLaw.congr {tr' : List (VState × VEvent)} (h : VSemLaw tr s v)
    (hprocs : s'.avsl.procs v = s.avsl.procs v) (hmem : s'.mem v = s.mem v)
    (hby : blockedBy tr' s' v = blockedBy tr s v) : VSemLaw tr' s' v :=
  ⟨by rw [hprocs, hby, h.names], by rw [hprocs, hmem, h.count]⟩

section

variable (hpl : Placed) (hN : Support.maxUserProc ≤ maxProc + 1) (hV : ∀ v ∈ V, Apart v)
  (hinv : VInv V tr s es) (hp : IsUser p.procID) (hb : ¬ s.Blocked p.procID)
  (hv : p.regs sA2 ∈ V)

include hV hinv hb hv

/-- A request that only changes the value, to one that calls for as many pairs. -/
theorem VInv.store {x : Word}
    (hx : max 0 (-(s.mem (p.regs sA2)).toInt) = max 0 (-x.toInt)) :
    VInv V ((s, .call p t) :: tr) (s.store (p.regs sA2) x) es := by
  obtain ⟨hm, hlaw⟩ := hinv
  refine ⟨hm.store (hV _ hv), fun w hw => ⟨?_, ?_⟩⟩
  · have hby : blockedBy ((s, .call p t) :: tr) (s.store (p.regs sA2) x) w = _ :=
      blockedBy_call hb fun _ _ => Iff.rfl
    rw [hby, if_neg fun h => hb h.2, List.append_nil]
    exact (hlaw w hw).names
  · have hcount := (hlaw w hw).count
    change ((s.avsl.procs w).length : ℤ) = max 0 (-(Function.update s.mem _ _ w).toInt)
    by_cases hvw : w = p.regs sA2
    · rw [hvw] at hcount ⊢
      rw [Function.update_self, hcount, hx]
    · rw [Function.update_of_ne hvw, hcount]

include hpl hN hp

/-- SYS12 keeps the law. -/
theorem VInv.psem (hnum : (p.regs sA1).toInt = 12) : ∃ s' es',
    (VEvent.call p t).run s = some s' ∧ VInv V ((s, .call p t) :: tr) s' es' := by
  obtain ⟨hm, hlaw⟩ := hinv
  have hlow : -2 ^ 31 < (s.mem (p.regs sA2)).toInt := by
    have hcount := (hlaw _ hv).count
    have hlen : (named es (p.regs sA2)).length ≤ es.length := length_named_le
    have hle := hm.holds.length_le
    rw [hm.holds.procs_eq] at hcount
    simp only [maxProc] at hle
    omega
  have hsub := toInt_sub_one hlow
  by_cases hneg : (s.mem (p.regs sA2) - 1).toInt < 0
  · obtain ⟨s', hrun, -, hm', -, hblocked, hmem⟩ :=
      psem_block (t := t) hN hp hpl hm hb hnum (hV _ hv) hneg
    refine ⟨s', _, hrun, hm', fun w hw => ⟨?_, ?_⟩⟩
    · rw [hm'.holds.procs_eq, named_append, named_singleton, ← hm.holds.procs_eq, (hlaw w hw).names,
        blockedBy_call hb fun r hr => by simp [hblocked, hr]]
      simp [hnum, hblocked]
    · have hcount := (hlaw w hw).count
      rw [hm.holds.procs_eq] at hcount
      rw [hm'.holds.procs_eq, named_append, named_singleton, hmem w (hV w hw)]
      by_cases hvw : p.regs sA2 = w
      · rw [← hvw] at hcount ⊢
        rw [Function.update_self, hsub, if_pos rfl, List.length_append, List.length_singleton]
        omega
      · rw [Function.update_of_ne (Ne.symm hvw), if_neg hvw, List.append_nil, hcount]
  · have hpos : 0 ≤ (s.mem (p.regs sA2) - 1).toInt := by omega
    obtain ⟨hrun, -⟩ := psem_pass (t := t) (s := s) hN hp hnum hpos
    exact ⟨_, es, hrun, VInv.store hV ⟨hm, hlaw⟩ hb hv (by omega)⟩

/-- SYS11 keeps the law, and wakes the oldest. -/
theorem VInv.vsem (hnum : (p.regs sA1).toInt = 11) (hhead : (VEvent.call p t).SparesHead s)
    (hfits : (VEvent.call p t).Fits s) : ∃ s' es',
    (VEvent.call p t).run s = some s' ∧ VInv V ((s, .call p t) :: tr) s' es' ∧
      WakesOldest tr s p t s' := by
  obtain ⟨hm, hlaw⟩ := hinv
  have hhigh := BitVec.toInt_lt (x := s.mem (p.regs sA2))
  have hadd := toInt_add_one (x := s.mem (p.regs sA2)) (by have := hfits hnum; omega)
  have hcount := (hlaw _ hv).count
  have hnames := (hlaw _ hv).names
  rw [hm.holds.procs_eq] at hcount hnames
  by_cases hpos : 0 < (s.mem (p.regs sA2) + 1).toInt
  · obtain ⟨hrun, hnotes⟩ := vsem_pass (t := t) (s := s) hN hp hnum hpos
    refine ⟨_, es, hrun, VInv.store hV ⟨hm, hlaw⟩ hb hv (by omega), ⟨fun _ => ?_, ?_⟩⟩
    · exact ⟨by rw [VEvent.verhogens, hnotes]; rfl, fun _ => Iff.rfl, fun _ => rfl⟩
    · intro hle
      rw [VState.store_mem_self] at hle
      omega
  · -- there is a pair for the semaphore, and it is not the head of a longer list
    obtain ⟨q, rest, hq⟩ : ∃ q rest, named es (p.regs sA2) = q :: rest :=
      List.exists_cons_of_ne_nil fun h => by
        rw [h, List.length_nil] at hcount
        omega
    obtain ⟨e₁, e₂, rfl, hfirst, hrest⟩ := exists_of_named hq
    obtain ⟨s', hrun, hnotes, hm', -, hblocked, hmem⟩ :=
      vsem_wake (t := t) hN hp hpl hm hnum (hV _ hv) (by omega) hfirst (hhead hnum (by omega))
    have hnamed : ∀ w, w ≠ p.regs sA2 → named (e₁ ++ e₂) w =
      named (e₁ ++ (p.regs sA2, q) :: e₂) w := by
      intro w hw
      rw [named_append, named_append, named_cons, if_neg (Ne.symm hw), List.nil_append]
    refine ⟨s', e₁ ++ e₂, hrun, ⟨hm', fun w hw => ⟨?_, ?_⟩⟩, ⟨fun hlt => ?_, fun _ => ?_⟩⟩
    · rw [hm'.holds.procs_eq, named_remove hm.once, ← hm.holds.procs_eq, (hlaw w hw).names,
        blockedBy_wake hb hnum hblocked]
    · have hcw := (hlaw w hw).count
      rw [hm.holds.procs_eq] at hcw
      rw [hm'.holds.procs_eq, hmem w (hV w hw)]
      by_cases hvw : w = p.regs sA2
      · rw [hvw, hrest, Function.update_self, hadd]
        rw [hq, List.length_cons] at hcount
        omega
      · rw [Function.update_of_ne hvw, hnamed w hvw, hcw]
    · rw [hmem _ (hV _ hv), Function.update_self] at hlt
      omega
    · refine ⟨q, rest, hnames ▸ hq, ?_, hblocked, ?_, fun w hw => ?_⟩
      · rw [VEvent.verhogens, hnotes]
        rfl
      · rw [hm'.holds.procs_eq, hrest]
      · rw [hm'.holds.procs_eq, hm.holds.procs_eq, hnamed w hw]

end

/-! ## Every run keeps the law -/

/-- A store to other memory keeps the law. -/
theorem VInv.write (hpl : Placed) (hinv : VInv V tr s es)
    (ha : kUseg2Addr ≤ a) (haV : a ∉ V) : (VEvent.write a w).run s = some (s.store a w) ∧
      VInv V ((s, .write a w) :: tr) (s.store a w) es := by
  obtain ⟨hm, hlaw⟩ := hinv
  obtain ⟨hrun, -⟩ := VEvent.run_of_wpx (e := .write a w) (s := s) (r := (s.store a w, []))
    (contract_storeWord.mpr rfl)
  refine ⟨hrun, hm.store (hpl.apart ha), fun v hv => (hlaw v hv).congr rfl ?_ rfl⟩
  refine Function.update_of_ne ?_ _ _
  rintro rfl
  exact haV hv

/-- In every run of SYS11 and SYS12 on `V` in which no SYS11 has to take out the head of a longer
list or overflows its semaphore, the law holds of all of `V`, and a further such SYS11 wakes the
process that has waited longest, and no other. -/
theorem virtual_semaphore_law (hpl : Placed) (hN : Support.maxUserProc ≤ 8)
    (hV : ∀ v ∈ V, kUseg3Addr ≤ v) (hrun : VRunOn V tr s)
    (hok : ∀ x ∈ tr, x.2.SparesHead x.1 ∧ x.2.Fits x.1) :
    (∀ v ∈ V, VSemLaw tr s v) ∧ ∀ p t, (VEvent.call p t).Enabled s → (VEvent.call p t).On V →
      (p.regs sA1).toInt = 11 → (VEvent.call p t).SparesHead s → (VEvent.call p t).Fits s →
        ∃ s', (VEvent.call p t).run s = some s' ∧ WakesOldest tr s p t s' := by
  have hN' : Support.maxUserProc ≤ maxProc + 1 := by
    simp only [maxProc]
    omega
  have hV' : ∀ v ∈ V, Apart v := fun v hv => hpl.apart (by have := hV v hv; bv_omega)
  obtain ⟨es, hinv⟩ : ∃ es, VInv V tr s es := by
    refine hrun.trace_invariant (I := fun tr s => ∃ es, VInv V tr s es)
      (G := fun _ s e => e.SparesHead s ∧ e.Fits s) ?_ ?_ fun pre x post htr =>
        hok x (by simp [htr])
    · rintro s ⟨hinit, hpos⟩
      have hm := Matched.of_initial hinit
      refine ⟨[], hm, fun v hv => ⟨by rw [hm.holds.procs_eq]; rfl, ?_⟩⟩
      have := hpos v hv
      rw [hm.holds.procs_eq, named, List.filter_nil, List.map_nil, List.length_nil]
      omega
    · rintro tr s e s' - ⟨es, hinv⟩ ⟨hhead, hfits⟩ ⟨⟨hen, hstep⟩, hon⟩
      cases e with
      | round t => exact hon.elim
      | write a w =>
        obtain ⟨hrun, hinv'⟩ := hinv.write (w := w) hpl hen hon
        obtain rfl := Option.some.inj (hrun.symm.trans hstep)
        exact ⟨es, hinv'⟩
      | call p t =>
        obtain ⟨hp, hb, hnum⟩ := hen
        obtain ⟨hne, hv⟩ := hon
        have hcases : (p.regs sA1).toInt = 11 ∨ (p.regs sA1).toInt = 12 := by
          simp only [VEvent.number, List.mem_cons, List.not_mem_nil, or_false] at hnum
          exact hnum.imp_right fun h => h.resolve_right hne
        rcases hcases with hnum | hnum
        · obtain ⟨s₁, es', hrun, hinv', -⟩ :=
            VInv.vsem (t := t) hpl hN' hV' hinv hp hb hv hnum hhead hfits
          obtain rfl := Option.some.inj (hrun.symm.trans hstep)
          exact ⟨es', hinv'⟩
        · obtain ⟨s₁, es', hrun, hinv'⟩ := VInv.psem (t := t) hpl hN' hV' hinv hp hb hv hnum
          obtain rfl := Option.some.inj (hrun.symm.trans hstep)
          exact ⟨es', hinv'⟩
  refine ⟨hinv.2, fun p t hen hon hnum hhead hfits => ?_⟩
  obtain ⟨s', es', hrun, -, hwakes⟩ :=
    VInv.vsem (t := t) hpl hN' hV' hinv hen.1 hen.2.1 hon.2 hnum hhead hfits
  exact ⟨s', hrun, hwakes⟩

omit [Support] in
/-- A process waits, and another one can wake it. -/
theorem virtual_semaphore_law_wait : ∃ (_ : Support) (tr : List (VState × VEvent)) (s : VState),
    VSemLaw tr s kUseg3Addr ∧ ∃ p t s', (p.regs sA1).toInt = 11 ∧
      (VEvent.call p t).run s = some s' ∧ WakesOldest tr s p t s' := by
  let _ := threeUsers
  let V : Set Word := {v | v = kUseg3Addr}
  let p : Caller := ⟨2, fun r => if r = sA1 then 11 else kUseg3Addr⟩
  have hexec : (Transition.execIf VEvent.run
      (fun s e => (e.Enabled s ∧ e.On V) ∧ e.SparesHead s ∧ e.Fits s)
      [request 1 12 kUseg3Addr 0] VState.boot).map (fun s => decide
        (((VEvent.call p 0).Enabled s ∧ (VEvent.call p 0).On V) ∧
          (VEvent.call p 0).SparesHead s ∧ (VEvent.call p 0).Fits s)) = some true := by
    decide +kernel
  obtain ⟨s, hs, hnext⟩ := Option.map_eq_some_iff.mp hexec
  obtain ⟨⟨hen, hon⟩, hhead, hfits⟩ := of_decide_eq_true hnext
  have hstart : VRunOn V [] VState.boot :=
    .start ⟨VState.boot_initial, fun _ _ => le_refl (0 : ℤ)⟩
  obtain ⟨tr, hrun, hok⟩ : ∃ tr, VRunOn V tr s ∧ ∀ x ∈ tr,
      (x.2.Enabled x.1 ∧ x.2.On V) ∧ x.2.SparesHead x.1 ∧ x.2.Fits x.1 :=
    Transition.execIf_run (fun s e s' he h => ⟨⟨he.1.1, h⟩, he.1.2⟩) hstart (by simp) hs
  obtain ⟨hlaw, hwake⟩ := virtual_semaphore_law placed_threeUsers (by decide)
    (by rintro v rfl; decide) hrun fun x hx => (hok x hx).2
  obtain ⟨s', hstep, hwakes⟩ := hwake p 0 hen hon rfl hhead hfits
  exact ⟨threeUsers, tr, s, hlaw _ rfl, p, 0, s', rfl, hstep, hwakes⟩

omit [Support] in
/-- Two processes wait, each on a semaphore of its own. A SYS11 for the first one loses the pair of
the second one. -/
theorem virtual_semaphore_law_fails : ¬ ∀ (_ : Support) (V : Set Word) (tr : List (VState × VEvent))
    (s : VState), Placed → Support.maxUserProc ≤ 8 → (∀ v ∈ V, kUseg3Addr ≤ v) → VRunOn V tr s →
      ∀ v ∈ V, VSemLaw tr s v := by
  intro h
  let _ := threeUsers
  let V : Set Word := {v | v = kUseg3Addr ∨ v = kUseg3Addr + 4}
  have hexec : (Transition.execIf VEvent.run (fun s e => e.Enabled s ∧ e.On V)
      [request 1 12 kUseg3Addr 0, request 2 12 (kUseg3Addr + 4) 0, request 3 11 kUseg3Addr 0]
      VState.boot).map (fun s => (s.avsl.procs (kUseg3Addr + 4), s.mem (kUseg3Addr + 4))) =
        some ([], -1) := by
    decide +kernel
  obtain ⟨s, hs, hprocs⟩ := Option.map_eq_some_iff.mp hexec
  obtain ⟨hnone, hmem⟩ := Prod.mk.inj hprocs
  have hstart : VRunOn V [] VState.boot :=
    .start ⟨VState.boot_initial, fun _ _ => le_refl (0 : ℤ)⟩
  obtain ⟨tr, hrun, -⟩ : ∃ tr, VRunOn V tr s ∧ ∀ x ∈ tr, x.2.Enabled x.1 ∧ x.2.On V :=
    Transition.execIf_run (fun s e s' he h => ⟨⟨he.1, h⟩, he.2⟩) hstart (by simp) hs
  have hlaw := h threeUsers V tr s placed_threeUsers (by decide)
    (by rintro v (rfl | rfl) <;> decide) hrun _ (.inr rfl)
  have hcount := hlaw.count
  rw [hnone, hmem] at hcount
  exact absurd hcount (by decide)

end Jaeos
