import Jaeos.Support.Occupancy
import Jaeos.Lib.Keeps

/-!
# Delays

A node of the active delay list is put there by a SYS13 and taken off by a round of the
daemon. Its wake time is the sum of the request in 32 bits; as long as the sum fits, no
round before it takes the node off, and it is not the mark of an empty list. When it
does not fit there is a run in which the daemon wakes the process early or does not
see it.
-/

namespace Jaeos

variable [Support]

/-! ## Who owns a node -/

/-- A SYS13. -/
structure DelayRequest where
  /-- the caller -/
  procID : ℤ
  /-- the seconds asked for, `s_a2` -/
  seconds : Word
  /-- what `STCK` gives -/
  tod : Word

namespace DelayRequest

/-- The time of day to wait for. -/
def wakeTime (r : DelayRequest) : ℤ := r.tod.toInt + r.seconds.toInt * 1000000

/-- The wake time as the code computes it. -/
def wake (r : DelayRequest) : Word := r.tod + r.seconds * timeScale

end DelayRequest

/-- The request of a step. -/
def VEvent.delay? : VEvent → Option DelayRequest
  | .call p t => if (p.regs sA1).toInt = 13 then some ⟨p.procID, p.regs sA2, t⟩ else none
  | _ => none

/-- The request that has put a node on the active list: that of the step that has brought it
there. -/
def owner : List (VState × VEvent) → VState → Fin (Support.maxUserProc + 1) → Option DelayRequest
  | [], _, _ => none
  | (s₀, e) :: tr, s, d =>
    if d ∈ s.adl.active ∧ d ∉ s₀.adl.active then e.delay? else owner tr s₀ d

variable {tr : List (VState × VEvent)} {s s' : VState} {p : Caller} {t c : Word} {g : List Note}

/-! ## Steps and the delay list -/

/-- The operations that do not touch the delay list. -/
def SupOp.KeepsAdl : ∀ {β : Type}, SupOp β → Prop
  | _, .insertDelay _ _ => False
  | _, .removeDelay => False
  | _, _ => True

theorem VState.sem_adl {β : Type} {o : SupOp β} (ho : o.KeepsAdl) :
    Keeps VState.adl (VState.sem p t β o) := by
  cases o with
  | getEntryHi => exact Keeps.of_pure _
  | stck => exact Keeps.of_pure _
  | waitForClock => exact Keeps.of_pure _
  | readOld q type r =>
    simp only [VState.sem]
    split
    · exact Keeps.of_pure _
    · exact Keeps.of_failure
  | loadWord a => exact Keeps.of_get_bind fun _ => Keeps.of_pure _
  | storeWord a v => exact Keeps.of_modify fun _ => rfl
  | passeren x =>
    cases x with
    | tpSem q => exact Keeps.of_modify fun _ => VState.passeren_adl
    | _ => exact Keeps.of_failure
  | verhogen x =>
    cases x with
    | tpSem q =>
      intro s b s' h
      cases hv : s.verhogen (Support.tpSem q) with
      | none => simp [VState.sem, hv] at h
      | some s₁ =>
        obtain rfl : s₁ = s' := by simpa [VState.sem, hv] using h
        exact VState.verhogen_adl hv
    | _ => exact Keeps.of_failure
  | vInsertBlocked v q =>
    intro s b s' h
    obtain ⟨r, -, hr⟩ := Option.map_eq_some_iff.mp h
    obtain ⟨-, rfl⟩ := Prod.mk.inj hr
    rfl
  | vRemoveBlocked v =>
    intro s b s' h
    obtain ⟨r, -, hr⟩ := Option.map_eq_some_iff.mp h
    obtain ⟨-, rfl⟩ := Prod.mk.inj hr
    rfl
  | headDelaydTime =>
    intro s b s' h
    obtain ⟨r, hrun, hr⟩ := Option.map_eq_some_iff.mp h
    obtain ⟨-, rfl⟩ := Prod.mk.inj hr
    obtain rfl := Option.some.inj ((headDelaydTime_run s.adl).symm.trans hrun)
    rfl
  | insertDelay w q => exact ho.elim
  | removeDelay => exact ho.elim
  | _ => exact Keeps.of_failure

/-- After an operation that does not touch the delay list. -/
theorem liberally_keep {β : Type} {o : SupOp β} {Q : β → VState × List Note → Prop}
    (ho : o.KeepsAdl) (h : ∀ b s' g', s'.adl = s.adl → Q b (s', g')) :
    VState.liberally p t β o Q (s, g) := fun b s' hrun =>
  h b s' _ (VState.sem_adl ho s b s' hrun)

/-- A SYS11 or SYS12 does not touch the delay list. -/
theorem call_adl (h0 : 0 ≤ p.procID) (h64 : p.procID < 64)
    (hnum : (p.regs sA1).toInt = 11 ∨ (p.regs sA1).toInt = 12)
    (hrun : (VEvent.call p t).run s = some s') : s'.adl = s.adl := by
  refine VEvent.of_call (R := fun x => x.1.adl = s.adl) h0 h64 ?_ hrun
  rcases hnum with hnum | hnum
  · rw [service_eleven hnum]
    simp only [vSemVirt, Prog.wpx_bind, wpx_sup]
    refine liberally_keep trivial fun _ s₁ g₁ h₁ => liberally_keep trivial fun _ s₂ g₂ h₂ =>
      liberally_keep trivial fun b s₃ g₃ h₃ => ?_
    have hadl : s₃.adl = s.adl := by rw [h₃, h₂, h₁]
    split
    · simp only [Prog.wpx_bind, wpx_sup]
      refine liberally_keep trivial fun q s₄ g₄ h₄ => ?_
      rw [Prog.wpx_ite]
      split
      · -- the swap semaphore is not part of the system
        simp only [virtualDeath, Prog.wpx_bind, wpx_sup]
        intro _ _ hfail
        cases hfail
      · exact liberally_keep trivial fun _ s₅ g₅ h₅ => h₅.trans (h₄.trans hadl)
    · exact hadl
  · rw [service_twelve hnum]
    simp only [pSemVirt, Prog.wpx_bind, wpx_sup]
    refine liberally_keep trivial fun _ s₁ g₁ h₁ => liberally_keep trivial fun _ s₂ g₂ h₂ =>
      liberally_keep trivial fun b s₃ g₃ h₃ => ?_
    have hadl : s₃.adl = s.adl := by rw [h₃, h₂, h₁]
    split
    · simp only [Prog.wpx_bind, wpx_sup]
      exact liberally_keep trivial fun _ s₄ g₄ h₄ => liberally_keep trivial fun _ s₅ g₅ h₅ =>
        h₅.trans (h₄.trans hadl)
    · exact hadl

/-- A SYS13 inserts a delay. -/
theorem delay_adl (h0 : 0 ≤ p.procID) (h64 : p.procID < 64) (hnum : (p.regs sA1).toInt = 13)
    (hrun : (VEvent.call p t).run s = some s') :
    ∃ ok, (insertDelay (t + p.regs sA2 * timeScale) p.procID).run s.adl = some (ok, s'.adl) := by
  refine VEvent.of_call (R := fun x => ∃ ok, (insertDelay (t + p.regs sA2 * timeScale)
    p.procID).run s.adl = some (ok, x.1.adl)) h0 h64 ?_ hrun
  rw [service_thirteen hnum]
  simp only [delay, Prog.wpx_bind, wpx_sup]
  refine liberally_keep trivial fun _ s₁ g₁ h₁ => (watched_iff rfl).mpr ?_
  intro ok s₂ hins
  obtain ⟨⟨ok', d'⟩, hdel, hs₂⟩ := Option.map_eq_some_iff.mp hins
  obtain ⟨rfl, rfl⟩ := Prod.mk.inj hs₂
  refine liberally_keep trivial fun _ s₃ g₃ h₃ => ⟨ok', ?_⟩
  rw [← h₁, h₃]
  exact hdel

/-! ## A round of the daemon -/

/-- A round at `c` that starts with the active nodes `l` takes the first `n` of them off, with a V
for each one. -/
structure Expired (a : Adl (Support.maxUserProc + 1)) (l : List (Fin (Support.maxUserProc + 1)))
    (c : Word) (n : ℕ) (a' : Adl (Support.maxUserProc + 1)) (notes : List Note) : Prop where
  /-- the others stay -/
  rest : ∃ fs, AdlShape a' (l.drop n) fs
  /-- the nodes say the same -/
  wakeTime : a'.dWakeTime = a.dWakeTime
  /-- the nodes say the same -/
  procID : a'.dProcID = a.dProcID
  /-- the time of each one taken off has come -/
  due : ∀ d ∈ l.take n, (a.dWakeTime d).toInt ≤ c.toInt
  /-- there is a V for each of them -/
  verhogens : notes.filterMap Note.verhogen? = (l.take n).map fun d => .tpSem (a.dProcID d)
  /-- the list is taken for empty only when it is, or its head says so -/
  empty : Note.headDelaydTime failed ∈ notes → ∀ d ∈ (l.drop n).head?, a.dWakeTime d = failed

variable {a : Adl (Support.maxUserProc + 1)} {l fs : List (Fin (Support.maxUserProc + 1))}

theorem AdlShape.headTime_eq (hs : AdlShape a l fs) :
    a.headTime = (l.head?.map a.dWakeTime).getD failed := by
  rw [Adl.headTime, hs.active.start]
  cases l <;> rfl

/-- The loop stops: it has only looked at the head. -/
theorem Expired.stop {notes : List Note} (hs : AdlShape a l fs)
    (hnotes : ∀ x ∈ notes, x = .headDelaydTime a.headTime) : Expired a l c 0 a notes := by
  refine ⟨⟨fs, hs⟩, rfl, rfl, by simp, ?_, fun hfailed d hd => ?_⟩
  · refine List.filterMap_eq_nil_iff.mpr fun x hx => ?_
    rw [hnotes x hx]
    rfl
  · have hhead := hs.headTime_eq
    rw [List.drop_zero, Option.mem_def] at hd
    rw [hd, Option.map_some, Option.getD_some] at hhead
    rw [← hhead]
    exact (Note.headDelaydTime.inj (hnotes _ hfailed)).symm

/-- The loop takes the head off and goes on. -/
theorem Expired.next {a₁ a' : Adl (Support.maxUserProc + 1)} {d : Fin (Support.maxUserProc + 1)}
    {n : ℕ} {notes : List Note} (h : Expired a₁ l c n a' notes)
    (hwake : a₁.dWakeTime = a.dWakeTime) (hproc : a₁.dProcID = a.dProcID)
    (hdue : (a.dWakeTime d).toInt ≤ c.toInt) (hd : a.dWakeTime d ≠ failed) :
    Expired a (d :: l) c (n + 1) a' ([.headDelaydTime (a.dWakeTime d),
      .headDelaydTime (a.dWakeTime d), .verhogen (.tpSem (a.dProcID d))] ++ notes) := by
  refine ⟨h.rest, h.wakeTime.trans hwake, h.procID.trans hproc, ?_, ?_, fun hfailed => ?_⟩
  · intro e he
    rcases List.mem_cons.mp he with rfl | he
    · exact hdue
    · exact hwake ▸ h.due e he
  · rw [List.filterMap_append, h.verhogens, hproc]
    rfl
  · rw [← hwake]
    refine h.empty ?_
    rcases List.mem_append.mp hfailed with hmem | hmem
    · simp [hd.symm] at hmem
    · exact hmem

/-- The inner loop of the daemon. -/
theorem wakeDelayed_spec {fuel : ℕ} (hs : AdlShape s.adl l fs)
    (hproc : ∀ d ∈ l, s.adl.dProcID d ≠ -1) (hfuel : l.length < fuel) :
    Prog.wpx (VState.liberally p t) (wakeDelayed c fuel)
      (fun _ x => ∃ n notes, x.2 = g ++ notes ∧ Expired s.adl l c n x.1.adl notes)
      (fun _ _ => False) (s, g) := by
  induction fuel generalizing s g l fs with
  | zero => omega
  | succ fuel ih =>
    have hhead : (VState.sem p t Word .headDelaydTime).run s = some (s.adl.headTime, s) :=
      VState.inAdl_run (headDelaydTime_run s.adl)
    simp only [wakeDelayed, Prog.wpx_bind, wpx_sup]
    refine (watched_iff hhead).mpr ?_
    rw [Prog.wpx_ite]
    split
    · rename_i hle
      simp only [Prog.wpx_bind, wpx_sup]
      refine (watched_iff hhead).mpr ?_
      rw [Prog.wpx_ite]
      split
      · rename_i hne
        cases l with
        | nil => exact absurd hs.headTime_eq hne
        | cons d l =>
          have htime : s.adl.headTime = s.adl.dWakeTime d := hs.headTime_eq
          obtain ⟨a', hrun, hs', hwake, hproc'⟩ := hs.removeDelay_run
          have hrem : (VState.sem p t ℤ .removeDelay).run s =
              some (s.adl.dProcID d, { s with adl := a' }) := VState.inAdl_run hrun
          simp only [Prog.wpx_bind, wpx_sup]
          refine (watched_iff hrem).mpr ?_
          rw [Prog.wpx_ite, if_neg (hproc d (by simp)), Prog.wpx_bind, wpx_sup]
          refine liberally_verhogen fun s' hv => ?_
          have hadl : s'.adl = a' := VState.verhogen_adl hv
          subst hadl
          refine Prog.wpx_mono Prog.watched_mono ?_ (fun _ _ h => h)
            (ih hs' (fun e he => ?_) (by simpa using hfuel))
          · rintro _ x ⟨n, notes, hnotes, hserved⟩
            refine ⟨n + 1, _, ?_, hserved.next hwake hproc' (htime ▸ hle) (htime ▸ hne)⟩
            rw [hnotes, ← htime]
            simp [Note.see]
          · rw [hproc']
            exact hproc e (List.mem_cons_of_mem _ he)
      · exact ⟨0, _, by simp [Note.see, List.append_assoc]; rfl, Expired.stop hs (by simp)⟩
    · exact ⟨0, [.headDelaydTime s.adl.headTime], rfl, Expired.stop hs (by simp)⟩

/-- A round at `c` that starts from a well-formed list. -/
theorem round_spec (hs : AdlShape s.adl l fs) (hproc : ∀ d ∈ l, s.adl.dProcID d ≠ -1)
    (hrun : (VEvent.round c).run s = some s') :
    ∃ n, Expired s.adl l c n s'.adl ((VEvent.round c).notes s) := by
  have hfuel : l.length < Support.maxUserProc + 2 := by
    have := hs.length_add_length
    omega
  refine VEvent.of_run (e := .round c)
    (R := fun x => ∃ n, Expired s.adl l c n x.1.adl x.2) ?_ hrun
  simp only [VEvent.program, delayDaemon, Prog.wpx_bind, wpx_sup]
  refine (watched_iff rfl).mpr ((watched_iff rfl).mpr ?_)
  refine Prog.wpx_mono Prog.watched_mono ?_ (fun _ _ h => h.elim)
    (wakeDelayed_spec hs hproc hfuel)
  rintro _ x ⟨n, notes, hnotes, hserved⟩
  refine ⟨n, ?_⟩
  rw [hnotes]
  exact hserved

/-! ## Every node says what its request asks for -/

/-- The list is well formed, and each active node holds the wake time and the caller of its
request. -/
def DInv (tr : List (VState × VEvent)) (s : VState) : Prop :=
  ∃ l fs, AdlShape s.adl l fs ∧ ∀ d ∈ l, ∃ r, owner tr s d = some r ∧
    s.adl.dWakeTime d = r.wake ∧ s.adl.dProcID d = r.procID ∧ IsUser r.procID

/-- The owner of a node that was there before. -/
theorem owner_old {e : VEvent} {d : Fin (Support.maxUserProc + 1)} (hd : d ∈ s.adl.active) :
    owner ((s, e) :: tr) s' d = owner tr s d := by
  rw [owner, if_neg fun h => h.2 hd]

/-- The owner of a new node. -/
theorem owner_new {e : VEvent} {d : Fin (Support.maxUserProc + 1)} (hd : d ∈ s'.adl.active)
    (hnot : d ∉ s.adl.active) : owner ((s, e) :: tr) s' d = e.delay? := by
  rw [owner, if_pos ⟨hd, hnot⟩]

namespace DInv

/-- A step that keeps some of the nodes, and what they say. -/
theorem keep {e : VEvent} {l' : List (Fin (Support.maxUserProc + 1))} (h : DInv tr s)
    (hs : ∃ fs, AdlShape s'.adl l' fs) (hsub : ∀ d ∈ l', d ∈ s.adl.active)
    (hwake : s'.adl.dWakeTime = s.adl.dWakeTime) (hproc : s'.adl.dProcID = s.adl.dProcID) :
    DInv ((s, e) :: tr) s' := by
  obtain ⟨l, fs, hs₀, hown⟩ := h
  obtain ⟨fs', hs'⟩ := hs
  refine ⟨l', fs', hs', fun d hd => ?_⟩
  obtain ⟨r, hr⟩ := hown d (hs₀.active_eq ▸ hsub d hd)
  rw [owner_old (hsub d hd), hwake, hproc]
  exact ⟨r, hr⟩

/-- A SYS13 that gets a node. -/
theorem insert {ok : Bool} (h : DInv tr s) (hp : IsUser p.procID) (hnum : (p.regs sA1).toInt = 13)
    (hins : (insertDelay (t + p.regs sA2 * timeScale) p.procID).run s.adl = some (ok, s'.adl)) :
    DInv ((s, .call p t) :: tr) s' := by
  have hkeep := h
  obtain ⟨l, fs, hs, hown⟩ := h
  have hact := hs.active_eq
  cases fs with
  | nil =>
    obtain ⟨-, hadl⟩ := Prod.mk.inj (Option.some.inj (hs.insertDelay_full.symm.trans hins))
    refine hkeep.keep ⟨[], hadl ▸ hs⟩ (fun d hd => hact ▸ hd) ?_ ?_ <;> rw [hadl]
  | cons f fs =>
    obtain ⟨a', hrun, hs', hwake, hproc⟩ :=
      hs.insertDelay_run (w := t + p.regs sA2 * timeScale) (q := p.procID)
    obtain ⟨-, rfl⟩ := Prod.mk.inj (Option.some.inj (hrun.symm.trans hins))
    have hfl : f ∉ l := hs.notMem_of_free.1
    refine ⟨_, fs, hs', fun d hd => ?_⟩
    rw [hwake, hproc]
    rcases mem_place.mp hd with rfl | hold
    · have hnew : d ∈ s'.adl.active := hs'.active_eq ▸ mem_place.mpr (.inl rfl)
      rw [owner_new hnew (hact ▸ hfl), Function.update_self, Function.update_self]
      exact ⟨⟨p.procID, p.regs sA2, t⟩, if_pos hnum, rfl, rfl, hp⟩
    · have hdf : d ≠ f := by
        rintro rfl
        exact hfl hold
      rw [owner_old (hact ▸ hold), Function.update_of_ne hdf, Function.update_of_ne hdf]
      exact hown d hold

/-- A round of the daemon. -/
theorem round (h : DInv tr s) (hrun : (VEvent.round c).run s = some s') :
    ∃ n, Expired s.adl s.adl.active c n s'.adl ((VEvent.round c).notes s) := by
  obtain ⟨l, fs, hs, hown⟩ := h
  rw [hs.active_eq]
  refine round_spec hs (fun d hd => ?_) hrun
  obtain ⟨r, -, -, hproc, huser⟩ := hown d hd
  have := huser.1
  rw [hproc]
  omega

/-- Every run keeps the invariant. -/
theorem of_run (hN : Support.maxUserProc < 64) (hrun : VRun tr s) : DInv tr s := by
  refine hrun.trace_invariant (I := DInv) (G := fun _ _ _ => True) ?_ ?_ fun _ _ _ _ => trivial
  · intro s hinit
    obtain ⟨a, ha⟩ := hinit.adl
    obtain ⟨a', fs, hrun, hs⟩ := initADL_run a
    obtain ⟨-, rfl⟩ := Prod.mk.inj (Option.some.inj (hrun.symm.trans ha))
    exact ⟨[], fs, hs, by simp⟩
  · rintro tr s e s' - hinv - ⟨hen, hstep⟩
    have hsame : s'.adl = s.adl → DInv ((s, e) :: tr) s' := by
      intro hadl
      have ⟨l, fs, hs, _⟩ := hinv
      refine hinv.keep ⟨fs, (hadl ▸ hs : AdlShape s'.adl l fs)⟩
        (fun d hd => hs.active_eq ▸ hd) ?_ ?_ <;> rw [hadl]
    cases e with
    | write a w =>
      obtain ⟨hrun, -⟩ := VEvent.run_of_wpx (e := .write a w) (s := s) (r := (s.store a w, []))
        (contract_storeWord.mpr rfl)
      obtain rfl := Option.some.inj (hrun.symm.trans hstep)
      exact hsame rfl
    | round c =>
      obtain ⟨n, hserved⟩ := hinv.round hstep
      exact hinv.keep hserved.rest (fun d hd => List.mem_of_mem_drop hd) hserved.wakeTime
        hserved.procID
    | call p t =>
      obtain ⟨hp, -, hnum⟩ := hen
      have hrange : 0 ≤ p.procID ∧ p.procID < 64 := by
        have h1 := hp.1
        have h2 := hp.2
        omega
      by_cases h13 : (p.regs sA1).toInt = 13
      · obtain ⟨ok, hins⟩ := delay_adl hrange.1 hrange.2 h13 hstep
        exact hinv.insert hp h13 hins
      · refine hsame (call_adl hrange.1 hrange.2 ?_ hstep)
        simp only [VEvent.number, List.mem_cons, List.not_mem_nil, or_false] at hnum
        rcases hnum with hnum | hnum | hnum
        · exact .inl hnum
        · exact .inr hnum
        · exact absurd hnum h13

end DInv

/-! ## When a request is served in time -/

namespace DelayRequest

variable {r : DelayRequest}

/-- The daemon does not take the node of the request off before its time, and never takes a list
with the node at its head for empty. -/
def OnTime (r : DelayRequest) : Prop := ∀ tr s c s', VRun tr s → VStep s (.round c) s' →
  ∀ d ∈ s.adl.active, owner tr s d = some r →
    (d ∉ s'.adl.active → r.wakeTime ≤ c.toInt) ∧
    (s'.adl.active.head? = some d → Note.headDelaydTime failed ∉ (VEvent.round c).notes s)

omit [Support] in
/-- A sum that fits is computed as it is. -/
theorem toInt_wake (hn : 0 ≤ r.seconds.toInt) (ht : 0 ≤ r.tod.toInt) (hfit : r.wakeTime < 2 ^ 31) :
    r.wake.toInt = r.wakeTime := by
  have hscale : timeScale.toInt = 1000000 := by decide
  rw [wakeTime] at hfit
  rw [wake, BitVec.toInt_add, BitVec.toInt_mul, hscale, Int.add_bmod_bmod, wakeTime]
  exact Int.bmod_eq_of_le (by omega) (by omega)

omit [Support] in
theorem wake_ne_failed (hn : 0 ≤ r.seconds.toInt) (ht : 0 ≤ r.tod.toInt)
    (hfit : r.wakeTime < 2 ^ 31) : r.wake ≠ failed := by
  intro hfailed
  have hwake := toInt_wake hn ht hfit
  have hneg : failed.toInt = -1 := by decide
  rw [hfailed, hneg, wakeTime] at hwake
  omega

/-- A request whose time fits is served in time. -/
theorem onTime_of_fits (hN : Support.maxUserProc < 64) (hn : 0 ≤ r.seconds.toInt)
    (ht : 0 ≤ r.tod.toInt) (hfit : r.wakeTime < 2 ^ 31) : r.OnTime := by
  intro tr s c s' hrun hstep d hd howner
  have hinv := DInv.of_run hN hrun
  obtain ⟨n, hserved⟩ := hinv.round hstep.2
  obtain ⟨fs, hrest⟩ := hserved.rest
  obtain ⟨l, fs', hs, hown⟩ := hinv
  obtain ⟨r', howner', hwake, -⟩ := hown d (hs.active_eq ▸ hd)
  obtain rfl : r = r' := Option.some.inj (howner.symm.trans howner')
  rw [hrest.active_eq]
  refine ⟨fun hgone => ?_, fun hhead hfailed => ?_⟩
  · have htaken : d ∈ s.adl.active.take n := by
      rw [← List.take_append_drop n s.adl.active] at hd
      exact (List.mem_append.mp hd).resolve_right hgone
    have hdue := hserved.due d htaken
    rw [hwake, toInt_wake hn ht hfit] at hdue
    exact hdue
  · have := hserved.empty hfailed d hhead
    exact wake_ne_failed hn ht hfit (hwake ▸ this)

/-- The step of the request. -/
def event (r : DelayRequest) : VEvent := request r.procID 13 r.seconds r.tod

/-- The first request of all: its node is the only one. -/
theorem event_boot (hpl : Placed) (hN : Support.maxUserProc ≤ maxProc + 1) (hp : IsUser r.procID) :
    ∃ s f fs, VRun [(VState.boot, r.event)] s ∧ AdlShape s.adl [f] fs ∧
      s.adl.dWakeTime f = r.wake ∧ s.adl.dProcID f = r.procID ∧
      owner [(VState.boot, r.event)] s f = some r ∧
      s.mem (Support.tpSem r.procID) = -1 ∧ s.waiting (Support.tpSem r.procID) = [r.procID] := by
  have hm := Matched.of_initial VState.boot_initial
  have hb : ¬ VState.boot.Blocked r.procID := by simp [VState.Blocked, VState.boot]
  obtain ⟨a, ha⟩ := VState.boot_initial.adl
  obtain ⟨a', fs, hinit, hs⟩ := initADL_run a
  obtain ⟨-, rfl⟩ := Prod.mk.inj (Option.some.inj (hinit.symm.trans ha))
  obtain ⟨f, fs, rfl⟩ : ∃ f fs', fs = f :: fs' := List.exists_cons_of_ne_nil fun h => by
    have := hs.length_add_length
    simp [h] at this
  obtain ⟨d', hdel, hs', hwake, hproc⟩ :=
    hs.insertDelay_run (w := r.tod + r.seconds * timeScale) (q := r.procID)
  obtain ⟨s, hrun, -, hadl, hm', hblocked, -⟩ := delay_block
    (p := ⟨r.procID, fun reg => if reg = sA1 then 13 else if reg = sA2 then r.seconds else 0⟩)
    hN hp hpl hm hb rfl hdel
  subst hadl
  obtain ⟨hmem, hwait⟩ := hm'.of_blocked hp ((hblocked _).mpr (.inr rfl))
  have hnum : (13 : Word).toInt ∈ [(11 : ℤ), 12, 13] := by decide
  refine ⟨s, f, fs, .next (.start VState.boot_initial) ⟨⟨hp, hb, hnum⟩, hrun⟩, hs', ?_, ?_, ?_,
    hmem, hwait⟩
  · rw [hwake, Function.update_self]
    rfl
  · rw [hproc, Function.update_self]
  · exact owner_new (by rw [hs'.active_eq]; exact List.mem_singleton_self f)
      (by rw [hs.active_eq]; exact List.not_mem_nil)

/-- A round that takes off the only node. -/
theorem round_one {d : Fin (Support.maxUserProc + 1)} (hs : AdlShape s.adl [d] fs)
    (hdue : (s.adl.dWakeTime d).toInt ≤ c.toInt) (hne : s.adl.dWakeTime d ≠ failed)
    (hc : failed.toInt ≤ c.toInt) (hproc : s.adl.dProcID d ≠ -1)
    (hmem : s.mem (Support.tpSem (s.adl.dProcID d)) = -1)
    (hwait : s.waiting (Support.tpSem (s.adl.dProcID d)) = [s.adl.dProcID d]) :
    ∃ s', (VEvent.round c).run s = some s' ∧ s'.adl.active = [] := by
  obtain ⟨a', hrem, hs', hwake, -⟩ := hs.removeDelay_run
  have htime : s.adl.headTime = s.adl.dWakeTime d := hs.headTime_eq
  have htime' : a'.headTime = failed := hs'.headTime_eq
  obtain ⟨s', hv⟩ : ∃ s', ({ s with adl := a' } : VState).verhogen
      (Support.tpSem (s.adl.dProcID d)) = some s' := ⟨_, VState.verhogen_one hmem hwait⟩
  have hadl : s'.adl = a' := VState.verhogen_adl hv
  have hhead : headDelaydTime.run s.adl = some (s.adl.dWakeTime d, s.adl) :=
    htime ▸ headDelaydTime_run s.adl
  have hhead' : headDelaydTime.run s'.adl = some (failed, s'.adl) :=
    htime' ▸ hadl ▸ headDelaydTime_run s'.adl
  obtain ⟨hrun, -⟩ := VEvent.run_of_wpx (e := .round c) (s := s) (r := (s', _)) (by
    simp only [VEvent.program, VEvent.tod, delayDaemon, Prog.wpx_bind, wpx_sup,
      contract_waitForClock, contract_stck]
    rw [wakeDelayed]
    simp only [Prog.wpx_bind, wpx_sup, contract_headDelaydTime hhead]
    rw [if_pos hdue]
    simp only [Prog.wpx_bind, wpx_sup, contract_headDelaydTime hhead]
    rw [if_pos hne]
    simp only [Prog.wpx_bind, wpx_sup, contract_removeDelay hrem]
    rw [if_neg hproc, Prog.wpx_bind, wpx_sup, contract_verhogen hv, wakeDelayed]
    simp only [Prog.wpx_bind, wpx_sup, contract_headDelaydTime hhead']
    rw [if_pos hc]
    simp only [Prog.wpx_bind, wpx_sup, contract_headDelaydTime hhead']
    rw [if_neg (fun h => h rfl)]
    rfl)
  exact ⟨s', hrun, hadl ▸ hs'.active_eq⟩

/-- A request whose time does not fit is woken before its time, or not seen, if it is the only one
and the daemon looks at the last moment there is. -/
theorem fits_of_onTime (hpl : Placed) (hN : Support.maxUserProc ≤ maxProc + 1)
    (hp : IsUser r.procID) (h : r.OnTime) : r.wakeTime < 2 ^ 31 := by
  obtain ⟨s, f, fs, hrun, hs, hwake, hproc, howner, hmem, hwait⟩ := event_boot hpl hN hp
  have hf : f ∈ s.adl.active := hs.active_eq ▸ List.mem_singleton_self f
  have hlast : (0x7FFFFFFF : Word).toInt = 2 ^ 31 - 1 := by decide
  by_cases hne : r.wake = failed
  · -- the daemon takes the list for empty
    have htime : s.adl.headTime = failed := hs.headTime_eq.trans (hwake.trans hne)
    obtain ⟨hround, hnotes⟩ := round_calm (t := 0x7FFFFFFF) (.inr htime)
    have hhead : s.adl.active.head? = some f := by rw [hs.active_eq]; rfl
    exact absurd (htime ▸ hnotes)
      ((h _ s 0x7FFFFFFF s hrun ⟨trivial, hround⟩ f hf howner).2 hhead)
  · have hmax := BitVec.toInt_lt (x := s.adl.dWakeTime f)
    have hq : r.procID ≠ -1 := by
      have := hp.1
      omega
    obtain ⟨s', hround, hnone⟩ := round_one (c := 0x7FFFFFFF) hs (by omega)
      (hwake ▸ hne) (by decide)
      (hproc ▸ hq) (hproc ▸ hmem) (hproc ▸ hwait)
    have hgone : f ∉ s'.adl.active := by
      rw [hnone]
      exact List.not_mem_nil
    have := (h _ s 0x7FFFFFFF s' hrun ⟨trivial, hround⟩ f hf howner).1 hgone
    omega

end DelayRequest

/-- Each V of a round is for a node that it takes off, on the `Tp_sem` of the caller of its request.
A request is never served early and never mistaken for an empty list, whatever else is pending,
exactly when its time of day fits into a word. -/
theorem no_early_wakeup (hpl : Placed) (hN : Support.maxUserProc ≤ maxProc + 1) :
    (∀ tr s c s', VRun tr s → VStep s (.round c) s' → ∃ taken,
      s.adl.active = taken ++ s'.adl.active ∧
        List.Forall₂ (fun d x => ∃ r, owner tr s d = some r ∧ x = Sem.tpSem r.procID) taken
          ((VEvent.round c).verhogens s)) ∧
    ∀ r : DelayRequest, IsUser r.procID → 0 ≤ r.seconds.toInt → 0 ≤ r.tod.toInt →
      (r.OnTime ↔ r.wakeTime < 2 ^ 31) := by
  have hN' : Support.maxUserProc < 64 := by
    simp only [maxProc] at hN
    omega
  refine ⟨fun tr s c s' hrun hstep => ?_, fun r hp hn ht =>
    ⟨DelayRequest.fits_of_onTime hpl hN hp, DelayRequest.onTime_of_fits hN' hn ht⟩⟩
  have hinv := DInv.of_run hN' hrun
  obtain ⟨n, hserved⟩ := hinv.round hstep.2
  obtain ⟨fs, hrest⟩ := hserved.rest
  obtain ⟨l, fs', hs, hown⟩ := hinv
  refine ⟨s.adl.active.take n, ?_, ?_⟩
  · rw [hrest.active_eq, List.take_append_drop]
  · rw [VEvent.verhogens, hserved.verhogens, List.forall₂_map_right_iff, List.forall₂_same]
    intro d hd
    obtain ⟨r, howner, -, hproc, -⟩ := hown d (hs.active_eq ▸ List.mem_of_mem_take hd)
    exact ⟨r, howner, by rw [hproc]⟩

omit [Support] in
/-- A delay of five seconds is served in time. -/
theorem no_early_wakeup_five : ∃ _ : Support, DelayRequest.OnTime ⟨1, 5, 0⟩ := by
  let _ := threeUsers
  exact ⟨threeUsers, ((no_early_wakeup placed_threeUsers (by decide)).2 ⟨1, 5, 0⟩ (by decide)
    (by decide) (by decide)).mpr (by decide)⟩

omit [Support] in
/-- A delay of 2148 seconds is over before it begins. -/
theorem no_early_wakeup_fails : ¬ ∀ (_ : Support) (r : DelayRequest), Placed →
    Support.maxUserProc ≤ maxProc + 1 → IsUser r.procID → 0 ≤ r.seconds.toInt → 0 ≤ r.tod.toInt →
      r.OnTime := by
  intro h
  let _ := threeUsers
  let r : DelayRequest := ⟨1, 2148, 0⟩
  have hontime : r.OnTime := h threeUsers r placed_threeUsers (by decide) (by decide) (by decide)
    (by decide)
  have hfits := DelayRequest.fits_of_onTime placed_threeUsers (by decide) (by decide) hontime
  exact absurd hfits (by decide)

end Jaeos
