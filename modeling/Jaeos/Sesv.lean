import Jaeos.Areas
import Jaeos.UserCalls

/-!
# SYS5 is once-only

The ledger of a run has for each process the SYS5 it has called (`sesvCalls`). What it says about
the traps of a type is the first call for that very type (`firstCall`). A case of
`sysFiveHandle` whose area has been populated falls through to the next one, so the nucleus
agrees with the ledger as long as no call for such a type finds a later area of the `switch` still
`NULL` (`TrapAreas.Straight`).
-/

namespace Jaeos

variable {n : ℕ}

/-! ## The ledger -/

/-- The trap type with a number. -/
def TrapType.ofNum (num : Word) : Option TrapType :=
  match num.toInt with
  | 0 => some .tlbTrap
  | 1 => some .progTrap
  | 2 => some .sysTrap
  | _ => none

/-- The SYS5 of an event. -/
def Event.sesvCall : Event → Option SesvCall
  | .write _ _ => none
  | .trap t _ _ => t.sesvCall

/-- The SYS5 that the process in each PCB has called in a run, the first one first. -/
def sesvCalls : List (Config n × Event) → Fin n → List SesvCall
  | [], _ => []
  | (c, e) :: tr, p =>
    if p ∈ c.nuc.store.freeList then []
    else if c.nuc.currentProcess = some p then sesvCalls tr p ++ e.sesvCall.toList
    else sesvCalls tr p

/-- The first of the calls for a trap type. -/
def firstCall (calls : List SesvCall) (type : TrapType) : Option SesvCall :=
  calls.find? fun k => TrapType.ofNum k.type = some type

/-- The pair for a trap type. -/
def TrapAreas.pair (areas : TrapAreas) (type : TrapType) : ℕ × ℕ := (areas.old type, areas.new type)

/-- The pair for a trap type that the calls have given. -/
def givenPair (calls : List SesvCall) (type : TrapType) : ℕ × ℕ :=
  (firstCall calls type).elim (null, null) fun k => (k.old, k.new)

/-- Each process has the pairs of the first calls, and no others. -/
def Config.HasGiven (c : Config n) (calls : Fin n → List SesvCall) : Prop :=
  ∀ p, p ∉ c.nuc.store.freeList → ∀ type, (c.nuc.store.trap p).pair type = givenPair (calls p) type

/-- If the area for the type of the call is populated, then so are those of the later cases of the
`switch`. -/
def TrapAreas.Straight (areas : TrapAreas) (k : SesvCall) : Prop :=
  ∀ type, TrapType.ofNum k.type = some type → areas.old type ≠ null →
    ∀ later ∈ sysFiveCases k.type, areas.old later ≠ null

/-- The old and the new area of the call are not `NULL`. -/
def SesvCall.NonNull (k : SesvCall) : Prop := k.old ≠ null ∧ k.new ≠ null

instance (k : SesvCall) : Decidable k.NonNull := inferInstanceAs (Decidable (_ ∧ _))

/-- So are those of a SYS5 that the event is. -/
def Event.NonNull (e : Event) : Prop := ∀ k, e.sesvCall = some k → k.NonNull

/-- A SYS5 of the current process falls through no case. -/
def Config.Straight (c : Config n) (e : Event) : Prop :=
  ∀ k p, e.sesvCall = some k → c.nuc.currentProcess = some p → (c.nuc.store.trap p).Straight k

/-! ## One call -/

section

variable {calls : List SesvCall} {k : SesvCall} {type : TrapType} {areas : TrapAreas}

theorem sysFiveCases_of_none (h : TrapType.ofNum k.type = none) : sysFiveCases k.type = [] := by
  rw [sysFiveCases]
  split
  case h_4 => rfl
  all_goals
    rename_i hnum
    rw [TrapType.ofNum, hnum] at h
    cases h

/-- The case of a type is the first one. -/
theorem sysFiveCases_of_some (h : TrapType.ofNum k.type = some type) :
    ∃ later, sysFiveCases k.type = type :: later := by
  rw [sysFiveCases]
  split
  case h_4 h₀ h₁ h₂ =>
    rw [TrapType.ofNum] at h
    split at h
    all_goals contradiction
  all_goals
    rename_i hnum
    rw [TrapType.ofNum, hnum] at h
    obtain rfl := Option.some.inj h
    exact ⟨_, rfl⟩

/-- A call for a type is not the first one, if there has been one before. -/
theorem firstCall_append_of_some {k₀ : SesvCall} (h : firstCall calls type = some k₀) :
    firstCall (calls ++ [k]) type = some k₀ := by
  rw [firstCall] at h
  rw [firstCall, List.find?_append, h, Option.some_or]

/-- Else it is. -/
theorem firstCall_append_self (h : firstCall calls type = none)
    (hk : TrapType.ofNum k.type = some type) : firstCall (calls ++ [k]) type = some k := by
  rw [firstCall] at h
  rw [firstCall, List.find?_append, h, Option.none_or, List.find?_cons_of_pos (by simpa using hk)]

/-- A call says nothing about the other types. -/
theorem firstCall_append_of_ne (hk : TrapType.ofNum k.type ≠ some type) :
    firstCall (calls ++ [k]) type = firstCall calls type := by
  rw [firstCall, List.find?_append, List.find?_cons_of_neg (by simpa using hk), List.find?_nil,
    Option.or_none, firstCall]

@[simp] theorem TrapAreas.none_pair : TrapAreas.none.pair type = (null, null) := by
  cases type <;> rfl

theorem TrapAreas.install_pair (areas : TrapAreas) (type other : TrapType) (old new : ℕ) :
    (areas.install type old new).pair other =
      if other = type then (old, new) else areas.pair other := by
  cases type <;> cases other <;> rfl

/-- An area is populated when there has been a call for its type. -/
theorem old_eq_null_iff (hpair : ∀ type, areas.pair type = givenPair calls type)
    (hcalls : ∀ k ∈ calls, k.NonNull) : areas.old type = null ↔ firstCall calls type = none := by
  have hold : areas.old type = (givenPair calls type).1 := congrArg Prod.fst (hpair type)
  rw [hold, givenPair]
  cases hfirst : firstCall calls type with
  | none => simp
  | some k =>
    have hne : k.old ≠ null := (hcalls k (List.mem_of_find?_eq_some hfirst)).1
    simpa using hne

/-- The first call for a type installs its pair. -/
theorem afterSesv_first (hk : TrapType.ofNum k.type = some type) (hnull : areas.old type = null) :
    areas.afterSesv k = areas.install type k.old k.new := by
  obtain ⟨later, hcases⟩ := sysFiveCases_of_some hk
  rw [TrapAreas.afterSesv, hcases, List.find?_cons_of_pos (by simpa using hnull)]

/-- A call that finds no area to populate installs nothing. -/
theorem afterSesv_none (h : ∀ type ∈ sysFiveCases k.type, areas.old type ≠ null) :
    areas.afterSesv k = areas := by
  rw [TrapAreas.afterSesv, List.find?_eq_none.mpr (by simpa using h)]

/-- If it falls through no case, a call keeps the areas in step with the ledger. -/
theorem afterSesv_pair (hpair : ∀ type, areas.pair type = givenPair calls type)
    (hcalls : ∀ k ∈ calls, k.NonNull) (hstraight : areas.Straight k) (type : TrapType) :
    (areas.afterSesv k).pair type = givenPair (calls ++ [k]) type := by
  cases hk : TrapType.ofNum k.type with
  | none =>
    have hcases : sysFiveCases k.type = [] := sysFiveCases_of_none hk
    rw [afterSesv_none (by simp [hcases]), hpair, givenPair, givenPair,
      firstCall_append_of_ne (by simp [hk])]
  | some first =>
    -- the types that are not named keep their pairs
    have hother : type ≠ first → givenPair (calls ++ [k]) type = givenPair calls type := by
      intro hne
      rw [givenPair, givenPair, firstCall_append_of_ne (by simpa [hk] using Ne.symm hne)]
    by_cases hnull : areas.old first = null
    · rw [afterSesv_first hk hnull, TrapAreas.install_pair]
      split
      · rename_i heq
        subst heq
        have hfirst := (old_eq_null_iff hpair hcalls).mp hnull
        rw [givenPair, firstCall_append_self hfirst hk]
        rfl
      · rename_i hne
        rw [hother hne, hpair]
    · rw [afterSesv_none (hstraight first hk hnull), hpair]
      by_cases heq : type = first
      · subst heq
        obtain ⟨k₀, hk₀⟩ := Option.ne_none_iff_exists'.mp
          (mt (old_eq_null_iff hpair hcalls).mpr hnull)
        rw [givenPair, givenPair, firstCall_append_of_some hk₀, hk₀]
      · rw [hother heq]

end

/-! ## Every run -/

section

variable {tr : List (Config n × Event)} {c : Config n}

/-- The calls of a run have areas if the events do. -/
theorem sesvCalls_nonNull (hareas : ∀ x ∈ tr, x.2.NonNull) (p : Fin n) :
    ∀ k ∈ sesvCalls tr p, k.NonNull := by
  induction tr with
  | nil => simp [sesvCalls]
  | cons x tr ih =>
    obtain ⟨hx, htr⟩ := List.forall_mem_cons.mp hareas
    have ih := ih htr
    rw [sesvCalls]
    split
    · simp
    · split
      · intro k hk
        rcases List.mem_append.mp hk with hk | hk
        · exact ih k hk
        · exact hx k (Option.mem_toList.mp hk)
      · exact ih

variable [Layout]

/-- A step keeps the ledger right, if it is no call that falls through a case. -/
theorem Config.HasGiven.step (hn : n ≤ maxProc) {c' : Config n} {e : Event}
    (h : c.HasGiven (sesvCalls tr)) (hsound : c.Sound)
    (hcalls : ∀ p, ∀ k ∈ sesvCalls tr p, k.NonNull) (hkill : c.KillSafe e)
    (hstraight : c.Straight e)
    (hstep : c.step e = some c') : c'.HasGiven (sesvCalls ((c, e) :: tr)) := by
  intro p hp type
  rw [sesvCalls]
  cases e with
  | write a v =>
    have hlive := Config.step_live hstep
    rw [Config.step, if_pos hlive] at hstep
    obtain rfl := Option.some.inj hstep
    have hp : p ∉ c.nuc.store.freeList := hp
    simp only [if_neg hp, Event.sesvCall, Option.toList_none, List.append_nil, ite_self]
    exact h p hp type
  | trap t todIn todOut =>
    have hafter : c'.nuc.store.trap p = _ := hsound.areas hn hkill hstep p hp
    rw [hafter, Trap.areasAfter, Store.areas]
    by_cases hfree : p ∈ c.nuc.store.freeList
    · -- a PCB that has been free has a new process, without areas
      have hcur : c.nuc.currentProcess ≠ some p := fun hcur => hsound.cur_not_free hcur hfree
      rw [if_neg hcur, if_pos hfree, if_pos hfree, TrapAreas.none_pair]
      rfl
    · rw [if_neg hfree, if_neg hfree]
      by_cases hcur : c.nuc.currentProcess = some p
      · rw [if_pos hcur, if_pos hcur]
        cases hk : t.sesvCall with
        | none =>
          simp only [Option.elim_none, Event.sesvCall, hk, Option.toList_none, List.append_nil]
          exact h p hfree type
        | some k =>
          simp only [Option.elim_some, Event.sesvCall, hk, Option.toList_some]
          exact afterSesv_pair (h p hfree) (hcalls p) (hstraight k p hk hcur) type
      · rw [if_neg hcur, if_neg hcur]
        exact h p hfree type

/-- In a run whose calls fall through no case, each process has the pairs of its first calls. -/
theorem hasGiven_of_run (hn : n ≤ maxProc) (hrun : Run tr c)
    (hareas : ∀ x ∈ tr, x.2.NonNull) (hsafe : ∀ x ∈ tr, x.1.KillSafe x.2)
    (hstraight : ∀ x ∈ tr, x.1.Straight x.2) (hlive : c.mode.Live) : c.HasGiven (sesvCalls tr) := by
  induction hrun with
  | @start c h =>
    obtain ⟨b, hb⟩ := h
    intro p hp type
    have hnone : c.nuc.store.trap p = .none := Boot.areas hn hb p hp
    rw [hnone, TrapAreas.none_pair]
    rfl
  | @next tr c c' e hrun hstep ih =>
    obtain ⟨hnonnull, hareas⟩ := List.forall_mem_cons.mp hareas
    obtain ⟨hkill, hsafe⟩ := List.forall_mem_cons.mp hsafe
    obtain ⟨hthrough, hstraight⟩ := List.forall_mem_cons.mp hstraight
    have hsound := Config.Sound.of_run hn hrun hsafe (Config.step_live hstep)
    have hgiven := ih hareas hsafe hstraight (Config.step_live hstep)
    exact hgiven.step hn hsound (sesvCalls_nonNull hareas) hkill hthrough hstep

end

/-! ## What a call is meant to do -/

/-- The state in which a system call of `p` is served. -/
def Nucleus.callEntered (c : Nucleus n) (p : Fin n) (old : State) (todIn todOut : ℤ) : Nucleus n :=
  { c with
    sysCallOld := old.afterCall
    clock := { c.clock with todIn := todIn, todOut := todOut }
    store := { c.store with pS := Function.update c.store.pS p old.afterCall } }

/-- Replace the areas of `p`. -/
def Nucleus.withAreas (c : Nucleus n) (p : Fin n) (areas : TrapAreas) : Nucleus n :=
  { c with store := { c.store with trap := Function.update c.store.trap p areas } }

/-- The call gives `p` a pair for a type, and nothing else happens. -/
structure Nucleus.Installs (c : Nucleus n) (p : Fin n) (type : TrapType) (k : SesvCall)
    (c' : Nucleus n) : Prop where
  /-- the pair for the type -/
  pair : (c'.store.trap p).pair type = (k.old, k.new)
  /-- the pairs for the other types -/
  others : ∀ other, other ≠ type → (c'.store.trap p).pair other = (c.store.trap p).pair other
  /-- the rest of the nucleus -/
  rest : c' = c.withAreas p (c'.store.trap p)

variable [Layout]

/-- What a call of `p` is meant to do after the calls so far. -/
structure Nucleus.SesvServed (c : Nucleus n) (p : Fin n) (calls : List SesvCall) (k : SesvCall)
    (exit : Exit) (c' : Nucleus n) : Prop where
  /-- the first call for a type installs the pair -/
  first : ∀ type, TrapType.ofNum k.type = some type → firstCall calls type = none →
    exit = .ldst ∧ c.Installs p type k c'
  /-- a second one kills the process and those below it -/
  again : ∀ type, TrapType.ofNum k.type = some type → firstCall calls type ≠ none →
    exit = .getNewJob ∧ c.Purges p c'
  /-- and so does a call with another number -/
  other : TrapType.ofNum k.type = none → exit = .getNewJob ∧ c.Purges p c'

/-- The handler of the call does it. -/
def Nucleus.MeetsSesv (c : Nucleus n) (p : Fin n) (calls : List SesvCall) (k : SesvCall)
    (old : State) (todIn todOut : ℤ) : Prop :=
  ∃ exit c', (((Trap.sysCall old).handle todIn todOut).run NucOp.sem).run c = some (exit, c') ∧
    (c.callEntered p old todIn todOut).SesvServed p calls k exit c'

section

variable {c : Nucleus n} {p : Fin n} {old : State} {todIn todOut : ℤ} {k : SesvCall}

/-- A system call in system mode is served by its number. -/
theorem run_systemCall (hcur : c.currentProcess = some p)
    (hsys : old.sReg sCpsr &&& systemMode = systemMode) :
    (((Trap.sysCall old).handle todIn todOut).run NucOp.sem).run c =
      ((serve p (SysCall.ofNum (old.sReg sA1))).run NucOp.sem).run
        (c.callEntered p old todIn todOut) := by
  have hsys' : (old.setReg sPc (old.sReg sPc + 8)).sReg sCpsr &&& systemMode = systemMode :=
    afterCall_system hsys
  simp only [Trap.handle, Trap.handler, Trap.enter, sysCallHandler, Prog.run_bind,
    StateT.run_bind, run_globals, Option.bind_eq_bind, Option.bind_some, hcur, run_modifyGlobals,
    run_setState, if_pos hsys', modifyClock, Nucleus.callEntered]
  rfl

/-- SYS5 is served by the cases of its `switch`. -/
theorem run_sesv (hcur : c.currentProcess = some p) (hk : (Trap.sysCall old).sesvCall = some k) :
    (((Trap.sysCall old).handle todIn todOut).run NucOp.sem).run c =
      ((sysFiveFrom p (sysFiveCases k.type)).run NucOp.sem).run
      (c.callEntered p old todIn todOut) := by
  rw [Trap.sesvCall] at hk
  split at hk
  case isFalse => cases hk
  case isTrue h =>
    obtain rfl := Option.some.inj hk
    have ha : (c.callEntered p old todIn todOut).sysCallOld.sReg sA2 = old.sReg sA2 :=
      old.afterCall_sReg (by decide)
    rw [run_systemCall hcur h.1, h.2, serve, Prog.run_bind, StateT.run_bind, run_globals,
      Option.bind_eq_bind, Option.bind_some, ha, sysFiveHandle]

/-- The first case whose area is `NULL` installs the pair. -/
theorem run_sysFive_installs {types : List TrapType} {type : TrapType}
    (hcur : c.currentProcess = some p)
    (h : types.find? (fun type => (c.store.trap p).old type = null) = some type) :
    ((sysFiveFrom p types).run NucOp.sem).run c = some (.ldst, c.withAreas p
      ((c.store.trap p).install type (c.sysCallOld.sReg sA3).toNat
        (c.sysCallOld.sReg sA4).toNat)) := by
  induction types with
  | nil => cases h
  | cons head types ih =>
    simp only [sysFiveFrom, Prog.run_bind, StateT.run_bind, run_data, Option.bind_eq_bind,
      Option.bind_some]
    split
    case isTrue hnull =>
      rw [List.find?_cons_of_pos (by simpa using hnull)] at h
      obtain rfl := Option.some.inj h
      simp only [Prog.run_bind, StateT.run_bind, run_globals, Option.bind_eq_bind,
        Option.bind_some, run_modifyData, headBackHome, hcur, Nucleus.withAreas]
      rfl
    case isFalse hne =>
      rw [List.find?_cons_of_neg (by simpa using hne)] at h
      exact ih h

/-- Without such a case, the process is killed. -/
theorem run_sysFive_dies {types : List TrapType}
    (h : ∀ type ∈ types, (c.store.trap p).old type ≠ null) :
    ((sysFiveFrom p types).run NucOp.sem).run c =
      (((nukeItTilItPukes (nukeFuel n) p).run NucOp.sem).run c).map fun r => (.getNewJob, r.2) := by
  induction types with
  | nil =>
    rw [sysFiveFrom, Prog.run_bind, StateT.run_bind]
    exact (Option.map_eq_bind ..).symm
  | cons head types ih =>
    obtain ⟨hne, htypes⟩ := List.forall_mem_cons.mp h
    simp only [sysFiveFrom, Prog.run_bind, StateT.run_bind, run_data, Option.bind_eq_bind,
      Option.bind_some, if_neg hne]
    exact ih htypes

variable {calls : List SesvCall}

/-- A call that installs a pair does so for its own type exactly when it falls through no case. -/
theorem sesvServed_iff_of_installs {type : TrapType} {areas : TrapAreas}
    (hareas : c.store.trap p = areas) (hpair : ∀ type, areas.pair type = givenPair calls type)
    (hcalls : ∀ k ∈ calls, k.NonNull)
    (htype : (sysFiveCases k.type).find? (fun type => areas.old type = null) = some type) :
    c.SesvServed p calls k .ldst (c.withAreas p (areas.install type k.old k.new)) ↔
      areas.Straight k := by
  have hnull : areas.old type = null := by simpa using List.find?_some htype
  have hmem : type ∈ sysFiveCases k.type := List.mem_of_find?_eq_some htype
  constructor
  · intro hserved named hnamed hne
    have hfirst : firstCall calls named ≠ none := mt (old_eq_null_iff hpair hcalls).mpr hne
    exact absurd (hserved.again named hnamed hfirst).1 (by simp)
  · intro hstraight
    refine ⟨fun named hnamed hfirst => ⟨rfl, ?_⟩, fun named hnamed hfirst => ?_, fun hnone => ?_⟩
    · have hnamednull := (old_eq_null_iff hpair hcalls).mpr hfirst
      obtain ⟨later, hcases⟩ := sysFiveCases_of_some hnamed
      rw [hcases, List.find?_cons_of_pos (by simpa using hnamednull)] at htype
      obtain rfl := Option.some.inj htype
      have htrap : (c.withAreas p (areas.install named k.old k.new)).store.trap p =
          areas.install named k.old k.new := Function.update_self ..
      refine ⟨?_, fun other hother => ?_, ?_⟩
      · rw [htrap, TrapAreas.install_pair, if_pos rfl]
      · rw [htrap, TrapAreas.install_pair, if_neg hother, hareas]
      · rw [htrap]
    · have hne := mt (old_eq_null_iff hpair hcalls).mp hfirst
      exact absurd hnull (hstraight named hnamed hne type hmem)
    · rw [sysFiveCases_of_none hnone] at hmem
      simp at hmem

/-- A call that finds no area to populate kills its caller, as it is meant to. -/
theorem sesvServed_iff_of_dies {c' : Nucleus n} {areas : TrapAreas}
    (hpair : ∀ type, areas.pair type = givenPair calls type) (hcalls : ∀ k ∈ calls, k.NonNull)
    (hall : ∀ type ∈ sysFiveCases k.type, areas.old type ≠ null) :
    c.SesvServed p calls k .getNewJob c' ↔ c.Purges p c' := by
  have hsecond : ∀ named, TrapType.ofNum k.type = some named → firstCall calls named ≠ none := by
    intro named hnamed
    obtain ⟨later, hcases⟩ := sysFiveCases_of_some hnamed
    exact mt (old_eq_null_iff hpair hcalls).mpr (hall named (by simp [hcases]))
  constructor
  · intro hserved
    cases hk : TrapType.ofNum k.type with
    | none => exact (hserved.other hk).2
    | some named => exact (hserved.again named hk (hsecond named hk)).2
  · intro hpurges
    refine ⟨fun named hnamed hfirst => ?_, fun _ _ _ => ⟨rfl, hpurges⟩, fun _ => ⟨rfl, hpurges⟩⟩
    exact absurd hfirst (hsecond named hnamed)

/-- A call is served as it is meant to be exactly when it falls through no case and, if it kills,
kills safely. -/
theorem meetsSesv_iff (hn : n ≤ maxProc) (hwf : c.WellFormed) (hcur : c.currentProcess = some p)
    (hk : (Trap.sysCall old).sesvCall = some k)
    (hpair : ∀ type, (c.store.trap p).pair type = givenPair calls type)
    (hcalls : ∀ k ∈ calls, k.NonNull) :
    c.MeetsSesv p calls k old todIn todOut ↔ (c.store.trap p).Straight k ∧
      ((∀ type ∈ sysFiveCases k.type, (c.store.trap p).old type ≠ null) →
        c.abs.core.KillSafe p) := by
  obtain ⟨-, hold, hnew⟩ := Trap.sesvCall_cases hk
  have hold₁ : old.afterCall.sReg sA3 = old.sReg sA3 := old.afterCall_sReg (by decide)
  have hnew₁ : old.afterCall.sReg sA4 = old.sReg sA4 := old.afterCall_sReg (by decide)
  have hcur₁ : (c.callEntered p old todIn todOut).currentProcess = some p := hcur
  have hwf₁ : (c.callEntered p old todIn todOut).WellFormed := hwf.withStates rfl rfl
  rw [Nucleus.MeetsSesv, run_sesv hcur hk]
  cases hfind : (sysFiveCases k.type).find? fun type => (c.store.trap p).old type = null with
  | some type =>
    have hnull : (c.store.trap p).old type = null := by simpa using List.find?_some hfind
    have hmem : type ∈ sysFiveCases k.type := List.mem_of_find?_eq_some hfind
    have hrun := run_sysFive_installs (c := c.callEntered p old todIn todOut) hcur₁ hfind
    have hserved := sesvServed_iff_of_installs (c := c.callEntered p old todIn todOut) rfl hpair
      hcalls hfind
    rw [hold, hnew, ← hold₁, ← hnew₁] at hserved
    constructor
    · rintro ⟨exit, c', hrun', hs⟩
      obtain ⟨rfl, rfl⟩ := Prod.mk.inj (Option.some.inj (hrun.symm.trans hrun'))
      exact ⟨hserved.mp hs, fun hall => absurd hnull (hall type hmem)⟩
    · rintro ⟨hstraight, -⟩
      exact ⟨_, _, hrun, hserved.mpr hstraight⟩
  | none =>
    have hall : ∀ type ∈ sysFiveCases k.type, (c.store.trap p).old type ≠ null := by
      simpa using hfind
    have hrun := run_sysFive_dies (c := c.callEntered p old todIn todOut) hall
    have hsafe := purges_iff hn hwf₁ hcur₁
    have hserved : ∀ c', (c.callEntered p old todIn todOut).SesvServed p calls k .getNewJob c' ↔
        (c.callEntered p old todIn todOut).Purges p c' :=
      fun _ => sesvServed_iff_of_dies hpair hcalls hall
    rw [hrun]
    constructor
    · rintro ⟨exit, c', hrun', hs⟩
      obtain ⟨⟨⟨⟩, c''⟩, hnuke, heq⟩ := Option.map_eq_some_iff.mp hrun'
      obtain ⟨rfl, rfl⟩ := Prod.mk.inj heq
      exact ⟨fun _ _ _ => hall, fun _ => hsafe.mp ⟨_, hnuke, (hserved _).mp hs⟩⟩
    · rintro ⟨-, hkill⟩
      obtain ⟨c', hnuke, hpurges⟩ := hsafe.mpr (hkill hall)
      exact ⟨.getNewJob, c', by rw [hnuke]; rfl, (hserved c').mpr hpurges⟩

end

/-! ## What a trap is meant to do -/

/-- The state with which the handler of a trap goes on: that of a system call is behind the call,
and a call that only the nucleus may make has the cause of a reserved instruction. -/
def Trap.stored : Trap → State
  | .sysCall old =>
    if old.sReg sCpsr &&& systemMode = systemMode then old.afterCall else userState old
  | .progTrap old | .tlbTrap old | .interrupt old _ _ => old

/-- The trap is passed up through the pair of a call: the state is stored in the old area, and the
process goes on with the state in the new one. -/
def Nucleus.Delivered (c : Nucleus n) (p : Fin n) (k : SesvCall) (st : State)
    (c' : Nucleus n) : Prop :=
  c'.mem = writeState c.mem k.old st ∧ c'.store.pS p = readState c'.mem k.new

section

variable {c : Nucleus n} {p : Fin n} {t : Trap} {type : TrapType} {todIn todOut : ℤ}

/-- The state in which a handler begins. -/
def Nucleus.entry (c : Nucleus n) (t : Trap) (todIn todOut : ℤ) : Nucleus n :=
  { c with toGlobals := { t.enter c.toGlobals with
      clock := { (t.enter c.toGlobals).clock with todIn := todIn, todOut := todOut } } }

theorem run_handle : ((t.handle todIn todOut).run NucOp.sem).run c =
    (t.handler.run NucOp.sem).run (c.entry t todIn todOut) := by
  rw [Trap.handle, Prog.run_bind, StateT.run_bind, run_modifyGlobals, Option.bind_eq_bind,
    Option.bind_some, Prog.run_bind, StateT.run_bind, modifyClock, run_modifyGlobals,
    Option.bind_eq_bind, Option.bind_some, Nucleus.entry]

/-- A trap that no service is asked for with comes to `passUpOrDie`. -/
theorem run_trap (todIn todOut : ℤ) (hcur : c.currentProcess = some p)
    (ht : t.request = .trap type) :
    ∃ c₁ : Nucleus n, ((t.handle todIn todOut).run NucOp.sem).run c =
        ((passUpOrDie (n := n) type).run NucOp.sem).run c₁ ∧
      c₁.currentProcess = some p ∧ c₁.store.trap = c.store.trap ∧ c₁.mem = c.mem ∧
        c₁.oldArea type = t.stored := by
  cases t with
  | interrupt old bitmap devReg =>
    have hint := interruptRequest_interrupt old bitmap devReg
    rw [show interruptRequest old bitmap devReg = _ from ht] at hint
    exact absurd hint id
  | progTrap old =>
    obtain rfl : TrapType.progTrap = type := by simpa [Trap.request] using ht
    exact ⟨c.entry (.progTrap old) todIn todOut, run_handle, hcur, rfl, rfl, rfl⟩
  | tlbTrap old =>
    obtain rfl : TrapType.tlbTrap = type := by simpa [Trap.request] using ht
    exact ⟨c.entry (.tlbTrap old) todIn todOut, run_handle, hcur, rfl, rfl, rfl⟩
  | sysCall old =>
    by_cases hsys : old.sReg sCpsr &&& systemMode = systemMode
    · rw [Trap.request, if_pos hsys] at ht
      cases hnum : SysCall.ofNum (old.sReg sA1) with
      | some call =>
        rw [hnum] at ht
        cases call <;> cases ht
      | none =>
        rw [hnum] at ht
        obtain rfl : TrapType.sysTrap = type := by simpa using ht
        refine ⟨c.callEntered p old todIn todOut, ?_, hcur, rfl, rfl, (if_pos hsys).symm⟩
        rw [run_systemCall hcur hsys, hnum, serve]
    · have htype : userTrap old = type := by
        simp only [Trap.request, if_neg hsys, isSome_ofNum_iff] at ht
        rw [userTrap]
        split at ht
        · rename_i hpriv
          rw [if_pos hpriv]
          simpa using ht
        · rename_i hpriv
          rw [if_neg hpriv]
          simpa using ht
      refine ⟨(c.entry (.sysCall old) todIn todOut).userCalled p, ?_, hcur, rfl, rfl, ?_⟩
      · rw [run_handle, ← htype]
        exact run_userCall (c := c.entry (.sysCall old) todIn todOut) hcur hsys
      · rw [← htype, Trap.stored, if_neg hsys]
        exact Nucleus.userCalled_oldArea (c := c.entry (.sysCall old) todIn todOut)

/-- A trap whose area is populated is passed up through its pair. -/
theorem delivered {k : SesvCall} (hcur : c.currentProcess = some p) (ht : t.request = .trap type)
    (hpair : (c.store.trap p).pair type = (k.old, k.new)) (hne : k.old ≠ null) :
    ∃ c', ((t.handle todIn todOut).run NucOp.sem).run c = some (.ldst, c') ∧
      c.Delivered p k t.stored c' := by
  obtain ⟨hold, hnew⟩ := Prod.mk.inj hpair
  obtain ⟨c₁, hrun, hcur₁, htrap, hmem, harea⟩ := run_trap todIn todOut hcur ht
  have hold₁ : (c₁.store.trap p).old type = k.old := by rw [htrap, hold]
  have hnew₁ : (c₁.store.trap p).new type = k.new := by rw [htrap, hnew]
  refine ⟨c₁.passedUp p type, hrun.trans (run_passUp hcur₁ (hold₁ ▸ hne)), ?_, ?_⟩
  · rw [Nucleus.passedUp, hold₁, harea, hmem]
  · simp only [Nucleus.passedUp, hold₁, hnew₁, Function.update_self]

/-- Else it is not passed up. -/
theorem not_delivered {exit : Exit} {c' : Nucleus n} (hcur : c.currentProcess = some p)
    (ht : t.request = .trap type) (hnull : (c.store.trap p).old type = null)
    (hrun : ((t.handle todIn todOut).run NucOp.sem).run c = some (exit, c')) :
    exit = .getNewJob := by
  obtain ⟨c₁, hrun₁, hcur₁, htrap, -⟩ := run_trap todIn todOut hcur ht
  have hnull₁ : (c₁.store.trap p).old type = null := by rw [htrap, hnull]
  rw [hrun₁, run_die hcur₁ hnull₁] at hrun
  obtain ⟨r, -, heq⟩ := Option.map_eq_some_iff.mp hrun
  exact (Prod.mk.inj heq).1.symm

end

/-! ## SYS5 is once-only -/

/-- A trap of the current process is passed up through the pair of the first call for its type, and
not at all without such a call. -/
def Config.PassesUp (c : Config n) (calls : Fin n → List SesvCall) : Prop :=
  ∀ (t : Trap) todIn todOut p type, c.nuc.currentProcess = some p → t.request = .trap type →
    match firstCall (calls p) type with
    | some k => ∃ c', ((t.handle todIn todOut).run NucOp.sem).run c.nuc = some (.ldst, c') ∧
        c.nuc.Delivered p k t.stored c'
    | none => ∀ exit c', ((t.handle todIn todOut).run NucOp.sem).run c.nuc = some (exit, c') →
        exit = .getNewJob

section

variable {tr : List (Config n × Event)} {c : Config n} {calls : Fin n → List SesvCall}

/-- If the current process has the pairs of its first calls, its traps are passed up through
them. -/
theorem Config.HasGiven.passesUp (h : c.HasGiven calls) (hsound : c.Sound)
    (hcalls : ∀ p, ∀ k ∈ calls p, k.NonNull) : c.PassesUp calls := by
  intro t todIn todOut p type hcur ht
  have hp := hsound.cur_not_free hcur
  have hpair := h p hp type
  cases hfirst : firstCall (calls p) type with
  | some k =>
    rw [givenPair, hfirst, Option.elim_some] at hpair
    exact delivered hcur ht hpair (hcalls p k (List.mem_of_find?_eq_some hfirst)).1
  | none =>
    rw [givenPair, hfirst, Option.elim_none] at hpair
    intro exit c' hrun
    exact not_delivered hcur ht (congrArg Prod.fst hpair) hrun

/-- In a run in which no SYS5 falls through a case and no kill meets a ready process with
a `p_semAdd`, each process has the pairs of its first calls, the next call does what it is meant
to exactly when it keeps to this too, and traps are passed up through the pairs of the first
calls. -/
theorem sesv_once (hn : n ≤ maxProc) (hrun : Run tr c) (hlive : c.mode.Live)
    (hareas : ∀ x ∈ tr, x.2.NonNull) (hsafe : ∀ x ∈ tr, x.1.KillSafe x.2)
    (hstraight : ∀ x ∈ tr, x.1.Straight x.2) :
    c.HasGiven (sesvCalls tr) ∧ c.PassesUp (sesvCalls tr) ∧
      ∀ old todIn todOut p k, c.nuc.currentProcess = some p →
        (Trap.sysCall old).sesvCall = some k →
          (c.nuc.MeetsSesv p (sesvCalls tr p) k old todIn todOut ↔
            c.Straight (.trap (.sysCall old) todIn todOut) ∧
              c.KillSafe (.trap (.sysCall old) todIn todOut)) := by
  have hgiven := hasGiven_of_run hn hrun hareas hsafe hstraight hlive
  have hsound := Config.Sound.of_run hn hrun hsafe hlive
  have hcalls := sesvCalls_nonNull hareas
  refine ⟨hgiven, hgiven.passesUp hsound hcalls, fun old todIn todOut p k hcur hk => ?_⟩
  have hp := hsound.cur_not_free hcur
  rw [meetsSesv_iff hn hsound.wellFormed hcur hk (hgiven p hp) (hcalls p)]
  apply and_congr
  · constructor
    · intro h k' q hk' hq
      obtain rfl := Option.some.inj (hk.symm.trans hk')
      obtain rfl := Option.some.inj (hcur.symm.trans hq)
      exact h
    · intro h
      exact h k p hk hcur
  · simp only [Config.KillSafe, (Trap.sesvCall_cases hk).1]
    constructor
    · intro h q hq hfatal
      obtain rfl := Option.some.inj (hcur.symm.trans hq)
      exact h hfatal
    · intro h hall
      exact h p hcur hall

end

omit [Layout] in
/-- A process installs its pair for program traps and goes on. -/
theorem sesv_once_prog : ∃ (_ : Layout) (tr : List (Config maxProc × Event)) (c : Config maxProc),
    Run tr c ∧ c.nuc.currentProcess = some 0 ∧ sesvCalls tr 0 = [⟨1, 0x20000, 0x20100⟩] ∧
      (c.nuc.store.trap 0).pair .progTrap = (0x20000, 0x20100) ∧ c.PassesUp (sesvCalls tr) := by
  refine ⟨sampleLayout, ?_⟩
  let _ := sampleLayout
  have hexec : (Boot.zero.config.bind fun c₀ =>
      (c₀.step (.call 5 1 0x20000 0x20100 0)).map fun c => (c.mode, c.nuc.currentProcess,
        c₀.nuc.currentProcess, decide (0 ∈ c₀.nuc.store.freeList),
          decide (0 ∈ c.nuc.store.freeList), (c₀.nuc.store.trap 0).oldPrgm)) =
            some (.running, some 0, some 0, false, false, null) := by
    decide +kernel
  obtain ⟨c₀, hc₀, hrest⟩ := Option.bind_eq_some_iff.mp hexec
  obtain ⟨c, hc, hrest⟩ := Option.map_eq_some_iff.mp hrest
  simp only [Prod.mk.injEq, decide_eq_false_iff_not] at hrest
  obtain ⟨hmode, hcur, hcur₀, hused₀, hused, hnull⟩ := hrest
  obtain ⟨e, he⟩ : ∃ e, e = Event.call 5 1 0x20000 0x20100 0 := ⟨_, rfl⟩
  have hk : e.sesvCall = some ⟨1, 0x20000, 0x20100⟩ := by
    rw [he]
    decide
  have hrun : Run [(c₀, e)] c := .next (.start ⟨_, hc₀⟩) (he ▸ hc)
  have hcalls : sesvCalls [(c₀, e)] 0 = [⟨1, 0x20000, 0x20100⟩] := by
    simp [sesvCalls, hused₀, hcur₀, hk]
  have hnonnull : e.NonNull := by
    intro k hk'
    obtain rfl := Option.some.inj (hk.symm.trans hk')
    decide
  have hsafe : c₀.KillSafe e := by
    rw [he]
    intro p hp hfatal
    obtain rfl : (0 : Fin maxProc) = p := Option.some.inj (hcur₀.symm.trans hp)
    exact absurd hnull (hfatal .progTrap (by decide))
  have hstraight : c₀.Straight e := by
    intro k p hk' hp type htype hne
    obtain rfl := Option.some.inj (hk.symm.trans hk')
    obtain rfl : (0 : Fin maxProc) = p := Option.some.inj (hcur₀.symm.trans hp)
    obtain rfl : TrapType.progTrap = type := by simpa [TrapType.ofNum] using htype
    exact absurd hnull hne
  obtain ⟨hgiven, hpasses, -⟩ := sesv_once le_rfl hrun (.inl hmode)
    (fun x hx => List.mem_singleton.mp hx ▸ hnonnull) (fun x hx => List.mem_singleton.mp hx ▸ hsafe)
    fun x hx => List.mem_singleton.mp hx ▸ hstraight
  refine ⟨_, c, hrun, hcur, hcalls, ?_, hpasses⟩
  rw [hgiven 0 hused, hcalls]
  decide

omit [Layout] in
/-- A second call for program traps installs its pair for system calls. -/
theorem sesv_once_fails : ¬ ∀ (_ : Layout) (tr : List (Config maxProc × Event))
    (c : Config maxProc), Run tr c → c.mode.Live → (∀ x ∈ tr, x.2.NonNull) →
      c.HasGiven (sesvCalls tr) := by
  intro h
  let _ := sampleLayout
  have hexec : (Boot.zero.config.bind fun c₀ =>
      (c₀.step (.call 5 1 0x20000 0x20100 0)).bind fun c₁ =>
        (c₁.step (.call 5 1 0x30000 0x30100 0)).map fun c => (c.mode,
          [c₀.nuc.currentProcess, c₁.nuc.currentProcess],
          [c₀, c₁, c].map (fun c => decide (0 ∈ c.nuc.store.freeList)),
          (c.nuc.store.trap 0).pair .sysTrap)) =
            some (.running, [some 0, some 0], [false, false, false], 0x30000, 0x30100) := by
    decide +kernel
  obtain ⟨c₀, hc₀, hrest⟩ := Option.bind_eq_some_iff.mp hexec
  obtain ⟨c₁, hc₁, hrest⟩ := Option.bind_eq_some_iff.mp hrest
  obtain ⟨c, hc, hrest⟩ := Option.map_eq_some_iff.mp hrest
  simp only [Prod.mk.injEq, List.map_cons, List.map_nil, List.cons.injEq, decide_eq_false_iff_not,
    and_true] at hrest
  obtain ⟨hmode, ⟨hcur₀, hcur₁⟩, ⟨hused₀, hused₁, hused⟩, hpair⟩ := hrest
  obtain ⟨e₁, he₁⟩ : ∃ e, e = Event.call 5 1 0x20000 0x20100 0 := ⟨_, rfl⟩
  obtain ⟨e₂, he₂⟩ : ∃ e, e = Event.call 5 1 0x30000 0x30100 0 := ⟨_, rfl⟩
  have hk₁ : e₁.sesvCall = some ⟨1, 0x20000, 0x20100⟩ := by
    rw [he₁]
    decide
  have hk₂ : e₂.sesvCall = some ⟨1, 0x30000, 0x30100⟩ := by
    rw [he₂]
    decide
  have hrun : Run [(c₁, e₂), (c₀, e₁)] c :=
    .next (.next (.start ⟨_, hc₀⟩) (he₁ ▸ hc₁)) (he₂ ▸ hc)
  have hcalls : sesvCalls [(c₁, e₂), (c₀, e₁)] 0 =
      [⟨1, 0x20000, 0x20100⟩, ⟨1, 0x30000, 0x30100⟩] := by
    simp [sesvCalls, hused₀, hused₁, hcur₀, hcur₁, hk₁, hk₂]
  have hgiven := h _ _ c hrun (.inl hmode) ?_ 0 hused .sysTrap
  · rw [hcalls, hpair] at hgiven
    revert hgiven
    decide
  · intro x hx k hk
    rcases List.mem_cons.mp hx with rfl | hx
    · obtain rfl := Option.some.inj (hk₂.symm.trans hk)
      decide
    · obtain rfl := List.mem_singleton.mp hx
      obtain rfl := Option.some.inj (hk₁.symm.trans hk)
      decide

end Jaeos
