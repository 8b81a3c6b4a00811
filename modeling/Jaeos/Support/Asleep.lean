import Jaeos.Support.Priority

/-!
# Who is asleep and on no list

SYS12 and SYS13 enter the caller into the AVSL, SYS13 also into the ADL, and put it to sleep.
Neither of them looks at what `vInsertBlocked` and `insertDelay` return, so a caller that has
not been entered is put to sleep like any other.
-/

namespace Jaeos

/-! ## The lists -/

/-- The AVSL is well formed, or as it is before `initAVSL`. -/
def Avsl.IsState (a : Avsl) : Prop :=
  (∃ es, a.Holds es) ∨ a.virtSemdH = none ∧ a.virtSemdFreeH = none

/-- The ADL is well formed, or as it is before `initADL`. -/
def Adl.IsState {k : ℕ} (a : Adl k) : Prop :=
  (∃ l fs, AdlShape a l fs) ∨ a.activeDelaydListH = none ∧ a.delaydFreeH = none

section

variable {k : ℕ} {v w : Word} {q : ℤ}

/-- Without a free node nothing is entered. -/
theorem Avsl.insert_none {a : Avsl} (h : a.virtSemdFreeH = none) :
    (vInsertBlocked v q).run a = some (false, a) := by
  simp [vInsertBlocked, allocVirtSemd, h]

/-- With a free node the pair is entered. -/
theorem Avsl.IsState.insert {a : Avsl} (h : a.IsState) (hfree : a.virtSemdFreeH ≠ none) :
    ∃ a', (vInsertBlocked v q).run a = some (true, a') ∧ a'.entries = a.entries ++ [(v, q)] := by
  rcases h with ⟨es, h⟩ | ⟨-, hnone⟩
  · have hlen : es.length ≤ maxProc := by
      by_contra hlen
      have hfull : es.length = maxProc + 1 := by
        have := h.length_le
        omega
      -- no node is free when all of them are in use
      obtain ⟨l, fs, hs, hes⟩ := h
      have hnodes := hs.length_add_length
      have hl : l.length = maxProc + 1 := by rw [← hfull, ← hes, List.length_map]
      obtain rfl : fs = [] := List.eq_nil_of_length_eq_zero (by omega)
      exact hfree hs.free.start
    obtain ⟨a', hrun, h'⟩ := h.insert hlen
    exact ⟨a', hrun, by rw [h'.entries_eq, h.entries_eq]⟩
  · exact absurd hnone hfree

/-- Without a free node nothing is entered. -/
theorem Adl.insert_none {a : Adl k} (h : a.delaydFreeH = none) :
    (insertDelay w q).run a = some (false, a) := by
  simp [insertDelay, allocDelayd, h]

/-- With a free node the pair is entered. -/
theorem Adl.IsState.insert {a : Adl k} (h : a.IsState) (hfree : a.delaydFreeH ≠ none) :
    ∃ a', (insertDelay w q).run a = some (true, a') ∧ a'.pending.Perm ((w, q) :: a.pending) := by
  rcases h with ⟨l, fs, hs⟩ | ⟨-, hnone⟩
  · cases fs with
    | nil => exact absurd hs.free.start hfree
    | cons f fs =>
      obtain ⟨a', hrun, hs', hwake, hproc⟩ := hs.insertDelay_run (w := w) (q := q)
      refine ⟨a', hrun, ?_⟩
      have hold : l.map a'.entry = l.map a.entry :=
        List.map_congr_left (AdlShape.entry_old hs.notMem_of_free.1 hwake hproc)
      have hnew : a'.entry f = (w, q) := by simp [Adl.entry, hwake, hproc]
      rw [hs'.pending_eq, hs.pending_eq, ← hold, ← hnew, ← List.map_cons]
      exact place_perm.map a'.entry
  · exact absurd hnone hfree

end

/-! ## The calls -/

/-- What an observer of a SYS12 or a SYS13 notes. -/
structure Entering where
  /-- the result of `vInsertBlocked` -/
  avsl : Option Bool
  /-- the result of `insertDelay` -/
  adl : Option Bool
  /-- the processes for whose `Tp_sem` there was a P -/
  asleep : List ℤ

namespace Entering

/-- Nothing yet. -/
def start : Entering := ⟨none, none, []⟩

/-- The note on an operation. -/
def see : ∀ β, SupOp β → β → Entering → Entering
  | _, .vInsertBlocked _ _, ok, g => { g with avsl := some ok }
  | _, .insertDelay _ _, ok, g => { g with adl := some ok }
  | _, .passeren (.tpSem procID), _, g => { g with asleep := g.asleep ++ [procID] }
  | _, _, _, g => g

end Entering

variable [Support]

/-- SYS4 leaves the AVSL as it is. -/
theorem VState.passeren_avsl {s : VState} {procID : ℤ} {a : Word} :
    (s.passeren procID a).avsl = s.avsl := by
  rw [VState.passeren]
  split <;> rfl

/-- The notes on a call. -/
def Caller.entering (p : Caller) (t : Word) (s : VState) : Entering :=
  (vmSysHandler 0).run.observe (VState.sem p t) Entering.see s .start

/-- When the caller is put to sleep, it has been entered where it will be looked for. -/
structure SleepsEntered (p : Caller) (t : Word) (s s' : VState) : Prop where
  /-- by a SYS12 into the AVSL -/
  psemvirt : p.regs sA1 = 12 → p.procID ∈ (p.entering t s).asleep →
    s'.avsl.entries = s.avsl.entries ++ [(p.regs sA2, p.procID)]
  /-- by a SYS13 into the ADL -/
  delay : p.regs sA1 = 13 → p.procID ∈ (p.entering t s).asleep →
    s'.adl.pending.Perm ((t + p.regs sA2 * timeScale, p.procID) :: s.adl.pending)
  /-- if an entry could not be made, it is not put to sleep -/
  awake : (p.entering t s).avsl = some false ∨ (p.entering t s).adl = some false →
    p.procID ∉ (p.entering t s).asleep
  /-- a SYS13 that makes no entry into the ADL leaves none in the AVSL -/
  clean : (p.entering t s).adl = some false → s'.avsl.entries = s.avsl.entries

/-- There are free nodes for the entries that the call makes: the semaphore of a SYS12 lets it
pass or there is one in the AVSL, and for a SYS13 there is one in both. -/
def HasRoom (p : Caller) (s : VState) : Prop :=
  (p.regs sA1 = 12 → 0 ≤ (s.mem (p.regs sA2) - 1).toInt ∨ s.avsl.virtSemdFreeH ≠ none) ∧
  (p.regs sA1 = 13 → s.avsl.virtSemdFreeH ≠ none ∧ s.adl.delaydFreeH ≠ none)

section

variable {p : Caller} {t : Word} {s s' : VState} {g g' : Entering}

/-- The contract of the operations, for this observer. -/
abbrev VState.entry (p : Caller) (t : Word) : Prog.Contract SupOp (VState × Entering) :=
  Prog.certain (VState.sem p t) Entering.see

theorem enters {α : Type} {o : SupOp α} {b : α} {Q : α → VState × Entering → Prop}
    {E : End → VState × Entering → Prop} (h : (VState.sem p t α o).run s = some (b, s'))
    (hQ : Q b (s', Entering.see α o b g)) :
    Prog.wpx (VState.entry p t) (sup o) Q E (s, g) :=
  ⟨b, s', h, hQ⟩

/-- The state after a call, and the notes on it. -/
theorem run_entering {tod : Word} (h0 : 0 ≤ p.procID) (h64 : p.procID < 64)
    (h : Prog.wpx (VState.entry p tod) (p.service 0) (fun _ x => x = (s', g)) (fun _ _ => False)
      (s, .start)) : (VEvent.call p tod).run s = some s' ∧ p.entering tod s = g := by
  have hwp : Prog.wpx (VState.entry p tod) (vmSysHandler 0) (fun _ x => x = (s', g))
      (fun _ x => x = (s', g)) (s, .start) := by
    refine Caller.handler (p := p) ?_ ?_ ?_
    · exact fun hQ => ⟨_, _, rfl, hQ _ (asid_word h0 h64)⟩
    · intro reg Q x hQ
      refine ⟨p.regs reg, x.1, ?_, hQ⟩
      simp [VState.sem]
    · exact Prog.wpx_mono Prog.certain_mono (fun _ _ hx => hx) (fun _ _ hx => hx.elim) h
  obtain ⟨b, s₁, hrun, hb⟩ := Prog.run_of_certain hwp
  have hboth : (s₁, p.entering tod s) = (s', g) := by cases b <;> exact hb
  obtain ⟨rfl, hg⟩ := Prod.mk.inj hboth
  refine ⟨?_, hg⟩
  have hrun' : ((vmSysHandler 0).run.run (VState.sem p tod)).run s = some (b, s₁) := hrun
  change (((vmSysHandler 0).run.run (VState.sem p tod)).run s).map Prod.snd = _
  rw [hrun']
  rfl

/-- A SYS12 that passes. -/
theorem entering_pass (hp : 0 ≤ p.procID ∧ p.procID < 64) (hnum : p.regs sA1 = 12)
    (h : 0 ≤ (s.mem (p.regs sA2) - 1).toInt) :
    ∃ s', (VEvent.call p t).run s = some s' ∧ p.entering t s = .start := by
  refine ⟨s.store (p.regs sA2) (s.mem (p.regs sA2) - 1), run_entering hp.1 hp.2 ?_⟩
  have hservice : p.service 0 = pSemVirt p.procID (p.regs sA2) := by
    rw [Caller.service, hnum]
    rfl
  have hpass : ¬ ((s.store (p.regs sA2) (s.mem (p.regs sA2) - 1)).mem (p.regs sA2)).toInt < 0 := by
    simpa using h
  rw [hservice]
  simp only [pSemVirt, Prog.wpx_bind]
  refine enters rfl (enters rfl (enters rfl ?_))
  rw [if_neg hpass]
  rfl

/-- A SYS12 that blocks. -/
theorem entering_block (hp : 0 ≤ p.procID ∧ p.procID < 64) (hnum : p.regs sA1 = 12)
    (h : (s.mem (p.regs sA2) - 1).toInt < 0) {ok : Bool} {a' : Avsl}
    (hins : (vInsertBlocked (p.regs sA2) p.procID).run s.avsl = some (ok, a')) :
    ∃ s', (VEvent.call p t).run s = some s' ∧ s'.avsl = a' ∧ s'.adl = s.adl ∧
      p.entering t s = ⟨some ok, none, [p.procID]⟩ := by
  let s₁ : VState := { s.store (p.regs sA2) (s.mem (p.regs sA2) - 1) with avsl := a' }
  have hcall : (VEvent.call p t).run s = some (s₁.passeren p.procID (Support.tpSem p.procID)) ∧
      p.entering t s = ⟨some ok, none, [p.procID]⟩ := by
    refine run_entering hp.1 hp.2 ?_
    have hservice : p.service 0 = pSemVirt p.procID (p.regs sA2) := by
      rw [Caller.service, hnum]
      rfl
    have hblock : ((s.store (p.regs sA2) (s.mem (p.regs sA2) - 1)).mem (p.regs sA2)).toInt < 0 := by
      simpa using h
    rw [hservice]
    simp only [pSemVirt, Prog.wpx_bind]
    refine enters rfl (enters rfl (enters rfl ?_))
    rw [if_pos hblock]
    simp only [Prog.wpx_bind]
    exact enters (VState.inAvsl_run hins) (enters rfl rfl)
  exact ⟨_, hcall.1, VState.passeren_avsl, VState.passeren_adl, hcall.2⟩

/-- A SYS13. -/
theorem entering_delay (hp : 0 ≤ p.procID ∧ p.procID < 64) (hnum : p.regs sA1 = 13)
    {ok okd : Bool} {a' : Avsl} {d' : Adl (Support.maxUserProc + 1)}
    (hins : (vInsertBlocked (Support.tpSem p.procID) p.procID).run s.avsl = some (ok, a'))
    (hdel : (insertDelay (t + p.regs sA2 * timeScale) p.procID).run s.adl = some (okd, d')) :
    ∃ s', (VEvent.call p t).run s = some s' ∧ s'.avsl = a' ∧ s'.adl = d' ∧
      p.entering t s = ⟨some ok, some okd, [p.procID]⟩ := by
  let s₁ : VState := { s with avsl := a', adl := d' }
  have hcall : (VEvent.call p t).run s = some (s₁.passeren p.procID (Support.tpSem p.procID)) ∧
      p.entering t s = ⟨some ok, some okd, [p.procID]⟩ := by
    refine run_entering hp.1 hp.2 ?_
    have hservice : p.service 0 = delay p.procID (p.regs sA2) := by
      rw [Caller.service, hnum]
      rfl
    have hdel' : (insertDelay (t + p.regs sA2 * timeScale) p.procID).run
        { s with avsl := a' }.adl = some (okd, d') := hdel
    rw [hservice]
    simp only [delay, Prog.wpx_bind]
    refine enters (VState.inAvsl_run hins) (enters rfl ?_)
    exact enters (VState.inAdl_run hdel') (enters rfl rfl)
  exact ⟨_, hcall.1, VState.passeren_avsl, VState.passeren_adl, hcall.2⟩

/-- The call ends, and puts only a caller to sleep that it has entered. -/
def EntersFirst (p : Caller) (t : Word) (s : VState) : Prop :=
  ∃ s', (VEvent.call p t).run s = some s' ∧ SleepsEntered p t s s'

theorem entersFirst_iff (hrun : (VEvent.call p t).run s = some s') :
    EntersFirst p t s ↔ SleepsEntered p t s s' := by
  constructor
  · rintro ⟨s₁, hrun₁, hs₁⟩
    obtain rfl := Option.some.inj (hrun₁.symm.trans hrun)
    exact hs₁
  · exact fun hs => ⟨s', hrun, hs⟩

/-- A caller that is put to sleep after something was refused. -/
theorem SleepsEntered.not_refused {a d : Option Bool}
    (hlog : p.entering t s = ⟨a, d, [p.procID]⟩) (hrefused : a = some false ∨ d = some false) :
    ¬ SleepsEntered p t s s' := by
  intro hs
  have hawake := hs.awake
  rw [hlog] at hawake
  exact hawake hrefused (List.mem_singleton_self _)

theorem entersFirst_psemvirt (hp : 0 ≤ p.procID ∧ p.procID < 64) (hnum : p.regs sA1 = 12)
    (havsl : s.avsl.IsState) : EntersFirst p t s ↔ HasRoom p s := by
  have h13 : p.regs sA1 ≠ 13 := by
    rw [hnum]
    decide
  by_cases hpass : 0 ≤ (s.mem (p.regs sA2) - 1).toInt
  · obtain ⟨s', hrun, hlog⟩ := entering_pass (t := t) hp hnum hpass
    rw [entersFirst_iff hrun]
    refine iff_of_true ⟨?_, fun h => absurd h h13, ?_, ?_⟩
      ⟨fun _ => .inl hpass, fun h => absurd h h13⟩
    all_goals
      rw [hlog]
      simp [Entering.start]
  by_cases hfree : s.avsl.virtSemdFreeH = none
  · obtain ⟨s', hrun, -, -, hlog⟩ := entering_block (t := t) hp hnum (not_le.mp hpass)
      (Avsl.insert_none hfree)
    rw [entersFirst_iff hrun]
    refine iff_of_false (SleepsEntered.not_refused hlog (.inl rfl)) fun hroom => ?_
    exact (hroom.1 hnum).elim hpass fun h => h hfree
  · obtain ⟨a', hins, hentries⟩ := havsl.insert (v := p.regs sA2) (q := p.procID) hfree
    obtain ⟨s', hrun, ha', -, hlog⟩ := entering_block (t := t) hp hnum (not_le.mp hpass) hins
    rw [entersFirst_iff hrun]
    refine iff_of_true ⟨fun _ _ => ?_, fun h => absurd h h13, ?_, ?_⟩
      ⟨fun _ => .inr hfree, fun h => absurd h h13⟩
    · rw [ha', hentries]
    · rw [hlog]
      simp
    · rw [hlog]
      simp

theorem entersFirst_delay (hp : 0 ≤ p.procID ∧ p.procID < 64) (hnum : p.regs sA1 = 13)
    (havsl : s.avsl.IsState) (hadl : s.adl.IsState) : EntersFirst p t s ↔ HasRoom p s := by
  have h12 : p.regs sA1 ≠ 12 := by
    rw [hnum]
    decide
  by_cases hfree : s.avsl.virtSemdFreeH = none
  · -- the AVSL refuses, whatever the ADL does
    obtain ⟨okd, d', hdel⟩ : ∃ okd d', (insertDelay (t + p.regs sA2 * timeScale) p.procID).run
        s.adl = some (okd, d') := by
      by_cases hfree' : s.adl.delaydFreeH = none
      · exact ⟨_, _, Adl.insert_none hfree'⟩
      · obtain ⟨d', hdel, -⟩ := hadl.insert hfree'
        exact ⟨_, _, hdel⟩
    obtain ⟨s', hrun, -, -, hlog⟩ := entering_delay hp hnum (Avsl.insert_none hfree) hdel
    rw [entersFirst_iff hrun]
    exact iff_of_false (SleepsEntered.not_refused hlog (.inl rfl)) fun hroom =>
      (hroom.2 hnum).1 hfree
  obtain ⟨a', hins, -⟩ := havsl.insert (v := Support.tpSem p.procID) (q := p.procID) hfree
  by_cases hfree' : s.adl.delaydFreeH = none
  · obtain ⟨s', hrun, -, -, hlog⟩ := entering_delay (t := t) hp hnum hins (Adl.insert_none hfree')
    rw [entersFirst_iff hrun]
    exact iff_of_false (SleepsEntered.not_refused hlog (.inr rfl)) fun hroom =>
      (hroom.2 hnum).2 hfree'
  · obtain ⟨d', hdel, hpending⟩ := hadl.insert hfree'
    obtain ⟨s', hrun, -, hd', hlog⟩ := entering_delay hp hnum hins hdel
    rw [entersFirst_iff hrun]
    refine iff_of_true ⟨fun h => absurd h h12, fun _ _ => ?_, ?_, ?_⟩
      ⟨fun h => absurd h h12, fun _ => ⟨hfree, hfree'⟩⟩
    · rw [hd']
      exact hpending
    · rw [hlog]
      simp
    · rw [hlog]
      simp

/-- A SYS12 or SYS13 puts only callers to sleep that it has entered exactly if there is room. -/
theorem sleepsEntered_iff (h0 : 0 ≤ p.procID) (h64 : p.procID < 64)
    (hnum : p.regs sA1 = 12 ∨ p.regs sA1 = 13) (havsl : s.avsl.IsState) (hadl : s.adl.IsState) :
    EntersFirst p t s ↔ HasRoom p s := by
  rcases hnum with hnum | hnum
  · exact entersFirst_psemvirt ⟨h0, h64⟩ hnum havsl
  · exact entersFirst_delay ⟨h0, h64⟩ hnum havsl hadl

end

/-- A process that makes one of the two calls. -/
abbrev sampleSleeper (number : Word) : Caller :=
  ⟨1, fun r => if r = sA1 then number else if r = sA2 then kUseg3Addr else 0⟩

omit [Support] in
/-- A SYS13 after `initAVSL` and `initADL`. -/
theorem sleepsEntered_iff_delay : ∃ _ : Support,
    EntersFirst (sampleSleeper 13) 0 (VState.boot : VState) := by
  let _ := threeUsers
  obtain ⟨⟨_, havsl⟩, ⟨_, hadl⟩, -, -⟩ := VState.boot_initial
  obtain ⟨a, fs, hinit, hshape⟩ := initADL_run (k := Support.maxUserProc + 1) (Adl.zero)
  have hadl' : (VState.boot : VState).adl = a := by
    rw [VState.boot, hinit]
    rfl
  refine ⟨threeUsers, (sleepsEntered_iff (by decide) (by decide) (.inr rfl)
    (.inl ⟨_, .of_init havsl⟩) (.inl ⟨[], fs, hadl' ▸ hshape⟩)).mpr ⟨fun h => ?_, fun _ => ?_⟩⟩
  · exact absurd h (by decide)
  · decide +kernel

omit [Support] in
/-- A SYS12 before `initAVSL`. -/
theorem sleeper_lost : ¬ ∀ (_ : Support) (p : Caller) (t : Word) (s : VState), 0 ≤ p.procID →
    p.procID < 64 → p.regs sA1 = 12 ∨ p.regs sA1 = 13 → s.avsl.IsState → s.adl.IsState →
      EntersFirst p t s := by
  intro h
  let _ := threeUsers
  let s : VState := ⟨fun _ => 0, fun _ => [], .zero, .zero⟩
  have hstate : s.avsl.IsState ∧ s.adl.IsState := ⟨.inr ⟨rfl, rfl⟩, .inr ⟨rfl, rfl⟩⟩
  have hbad := h threeUsers (sampleSleeper 12) 0 s (by decide) (by decide) (.inl rfl)
    hstate.1 hstate.2
  have hroom := (entersFirst_psemvirt ⟨by decide, by decide⟩ rfl hstate.1).mp hbad
  exact (hroom.1 rfl).elim (fun hpass => absurd hpass (by decide)) fun hfree => hfree rfl

end Jaeos
