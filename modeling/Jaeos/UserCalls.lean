import Jaeos.Presumed

/-!
# System calls in user mode

`sysCallHandler` decodes the mode and then the number, and reaches `passUpOrDie` by two ways.
`UserCall` says what a process in user mode gets from it: its state is stored
in the old area of a pair and it is resumed in the new one, or it is killed, and the nucleus is
as it was. `userCall_iff` says when it gets that.
-/

namespace Jaeos

open Forest

variable {n : ℕ}

/-! ## The handlers on the store -/

/-- The state after a trap of `p` has been passed up. -/
def Nucleus.passedUp (c : Nucleus n) (p : Fin n) (type : TrapType) : Nucleus n :=
  let areas := c.store.trap p
  let mem := writeState c.mem (areas.old type) (c.oldArea type)
  { c with
    mem := mem
    store := { c.store with
      pS := Function.update c.store.pS p (readState mem (areas.new type)) } }

/-- The trap that a system call in user mode becomes. -/
def userTrap (old : State) : TrapType :=
  if 1 ≤ (old.sReg sA1).toInt ∧ (old.sReg sA1).toInt ≤ 8 then .progTrap else .sysTrap

/-- The state that is stored for it: the process goes on behind the call, and a call that only
the nucleus may make has the cause of a reserved instruction. -/
def userState (old : State) : State :=
  let behind := old.setReg sPc (old.sReg sPc + 8)
  if 1 ≤ (old.sReg sA1).toInt ∧ (old.sReg sA1).toInt ≤ 8 then behind.setReg sCause reserved
  else behind

/-- The state in which such a trap of `p` is passed up or kills it. -/
def Nucleus.userCalled (c : Nucleus n) (p : Fin n) : Nucleus n :=
  let old := c.sysCallOld
  { c with
    sysCallOld := old.afterCall
    progTrpOld := if userTrap old = .progTrap then userState old else c.progTrpOld
    store := { c.store with pS := Function.update c.store.pS p old.afterCall } }

section

variable {c : Nucleus n} {p : Fin n}

theorem Nucleus.userCalled_oldArea :
    (c.userCalled p).oldArea (userTrap c.sysCallOld) = userState c.sysCallOld := by
  by_cases hpriv : 1 ≤ (c.sysCallOld.sReg sA1).toInt ∧ (c.sysCallOld.sReg sA1).toInt ≤ 8
  · simp [userTrap, userState, userCalled, hpriv, Globals.oldArea]
  · simp only [userTrap, userState, userCalled, hpriv, if_false, Globals.oldArea]
    rfl

theorem run_globals : ((globals (n := n)).run NucOp.sem).run c = some (c.toGlobals, c) := rfl

theorem run_data : ((store (n := n) .data).run NucOp.sem).run c = some (c.store.toPcbData, c) := rfl

theorem run_modifyGlobals (f : Globals n → Globals n) :
    ((modifyGlobals f).run NucOp.sem).run c = some ((), { c with toGlobals := f c.toGlobals }) :=
        rfl

theorem run_modifyData (f : PcbData n → PcbData n) :
    ((store (.modifyData f)).run NucOp.sem).run c = some ((),
      { c with store := { c.store with toPcbData := f c.store.toPcbData } }) := rfl

theorem run_setState (st : State) : ((setState p st).run NucOp.sem).run c =
    some ((), { c with store := { c.store with pS := Function.update c.store.pS p st } }) := rfl

variable [Layout]

/-- A trap is passed up to the pair of its type. -/
theorem run_passUp {type : TrapType} (hcur : c.currentProcess = some p)
    (h : (c.store.trap p).old type ≠ null) :
    ((passUpOrDie (n := n) type).run NucOp.sem).run c = some (.ldst, c.passedUp p type) := by
  simp only [passUpOrDie, Prog.run_bind, StateT.run_bind, run_globals, Option.bind_eq_bind,
    Option.bind_some, hcur, run_data, if_pos h, run_modifyGlobals, run_setState, headBackHome,
    Nucleus.passedUp]
  rfl

/-- Without that pair, the process is killed. -/
theorem run_die {type : TrapType} (hcur : c.currentProcess = some p)
    (h : (c.store.trap p).old type = null) :
    ((passUpOrDie (n := n) type).run NucOp.sem).run c =
      (((nukeItTilItPukes (nukeFuel n) p).run NucOp.sem).run c).map fun r => (.getNewJob, r.2) := by
  have hnot : ¬ (c.store.trap p).old type ≠ null := not_not.mpr h
  simp only [passUpOrDie, Prog.run_bind, StateT.run_bind, run_globals, Option.bind_eq_bind,
    Option.bind_some, hcur, run_data, if_neg hnot]
  exact (Option.map_eq_bind ..).symm

omit [Layout] in
/-- The calls that only the nucleus may make. -/
theorem isSome_ofNum_iff (num : Word) :
    (SysCall.ofNum num).isSome ↔ 1 ≤ num.toInt ∧ num.toInt ≤ 8 := by
  rw [SysCall.ofNum]
  generalize num.toInt = k
  constructor
  · intro h
    split at h
    all_goals first | omega | cases h
  · rintro ⟨hlo, hhi⟩
    have hcases : k = 1 ∨ k = 2 ∨ k = 3 ∨ k = 4 ∨ k = 5 ∨ k = 6 ∨ k = 7 ∨ k = 8 := by omega
    rcases hcases with rfl | rfl | rfl | rfl | rfl | rfl | rfl | rfl
    all_goals rfl

/-- A call in user mode is a trap. -/
theorem run_userCall (hcur : c.currentProcess = some p)
    (huser : c.sysCallOld.sReg sCpsr &&& systemMode ≠ systemMode) :
    ((sysCallHandler (n := n)).run NucOp.sem).run c =
      ((passUpOrDie (n := n) (userTrap c.sysCallOld)).run NucOp.sem).run (c.userCalled p) := by
  have huser' : ¬ (c.sysCallOld.setReg sPc (c.sysCallOld.sReg sPc + 8)).sReg sCpsr &&& systemMode =
      systemMode := by
    rwa [State.setReg_ne _ _ (by decide)]
  simp only [sysCallHandler, Prog.run_bind, StateT.run_bind, run_globals, Option.bind_eq_bind,
    Option.bind_some, hcur, run_modifyGlobals, run_setState, if_neg huser', isSome_ofNum_iff]
  by_cases hpriv : 1 ≤ (c.sysCallOld.sReg sA1).toInt ∧ (c.sysCallOld.sReg sA1).toInt ≤ 8
  · simp only [if_pos hpriv, Prog.run_bind, StateT.run_bind, Option.bind_eq_bind, Option.bind_some,
      run_modifyGlobals, Nucleus.userCalled, userTrap, userState, progTrpHandler, hcur, if_true]
    rfl
  · simp only [if_neg hpriv, Nucleus.userCalled, userTrap, userState, hcur, reduceCtorEq, if_false]
    rfl

end

/-! ## What a process in user mode gets -/

variable [Layout]

/-- A semaphore: one of `semaphoreArray`, or a word that processes are blocked on. -/
def Nucleus.Semaphore (c : Nucleus n) (a : ℕ) : Prop :=
  (∃ i < maxSema, a = semArr i) ∨ c.store.blockedOn a ≠ []

/-- The nucleus is as it was: only the state of `p`, the old areas of the traps and words that are
no semaphores have changed. -/
structure Nucleus.Untouched (c : Nucleus n) (p : Fin n) (c' : Nucleus n) : Prop where
  /-- the ready queue, the ASL, the process tree and the PCBs -/
  store : c'.store = { c.store with pS := Function.update c.store.pS p (c'.store.pS p) }
  /-- the counters, `devStatus` and the clock variables with `timeLeft` -/
  globals : c'.toGlobals = { c.toGlobals with
    mem := c'.mem, sysCallOld := c'.sysCallOld, progTrpOld := c'.progTrpOld }
  /-- the semaphores -/
  semaphore : ∀ a, c.Semaphore a → c'.mem a = c.mem a

/-- The process is resumed by its own handler of traps of a type. -/
structure Nucleus.Resumed (c : Nucleus n) (p : Fin n) (type : TrapType) (st : State)
    (c' : Nucleus n) : Prop where
  /-- the nucleus is as it was -/
  untouched : c.Untouched p c'
  /-- the state is stored in the old area -/
  stored : readState c'.mem ((c.store.trap p).old type) = st
  /-- and nowhere else -/
  others : ∀ a, ¬ InArea ((c.store.trap p).old type) a → c'.mem a = c.mem a
  /-- the process goes on with the state in the new area -/
  resumed : c'.store.pS p = readState c'.mem ((c.store.trap p).new type)

/-- The process and those below it are killed, and another job is dispatched. -/
def Nucleus.Dies (c : Nucleus n) (p : Fin n) (c' : Nucleus n) : Prop :=
  (∃ c₁, c.Untouched p c₁ ∧ c₁.mem = c.mem ∧ c₁.Purges p c') ∧
    ∃ v c₂, ((getNewJob (n := n)).run NucOp.sem).run c' = some (v, c₂) ∧
      Sched c'.abs.core.leave v c₂.abs.core

/-- What a system call of `p` in user mode is meant to do. -/
def Nucleus.UserCall (c : Nucleus n) (p : Fin n) : Prop :=
  let old := c.sysCallOld
  ∃ exit c', ((sysCallHandler (n := n)).run NucOp.sem).run c = some (exit, c') ∧
    if (c.store.trap p).old (userTrap old) ≠ null then
      exit = .ldst ∧ c.Resumed p (userTrap old) (userState old) c'
    else exit = .getNewJob ∧ c.Dies p c'

variable {c : Nucleus n} {p : Fin n}

namespace Nucleus

variable {c c' : Nucleus n} {p : Fin n}

/-- A reader of the store sees the same lists. -/
theorem Untouched.lists (h : c.Untouched p c') : c'.store.lists = c.store.lists :=
  (congrArg Store.lists h.store).trans rfl

theorem Untouched.wellFormed (h : c.Untouched p c') (hwf : c.WellFormed) : c'.WellFormed :=
  hwf.withStates h.store ((congrArg Globals.currentProcess h.globals).trans rfl)

/-- The state of the caller is saved. -/
theorem userCalled_untouched : c.Untouched p (c.userCalled p) := by
  refine ⟨?_, rfl, fun _ _ => rfl⟩
  simp [userCalled]

/-- A process whose trap is passed up is resumed by its own handler. -/
theorem userCalled_resumed
    (harea : ∀ a, c.Semaphore a → ¬ InArea ((c.store.trap p).old (userTrap c.sysCallOld)) a) :
    c.Resumed p (userTrap c.sysCallOld) (userState c.sysCallOld)
      ((c.userCalled p).passedUp p (userTrap c.sysCallOld)) := by
  have hothers : ∀ a, ¬ InArea ((c.store.trap p).old (userTrap c.sysCallOld)) a →
      ((c.userCalled p).passedUp p (userTrap c.sysCallOld)).mem a = c.mem a :=
    fun a ha => writeState_of_not_inArea ha
  refine ⟨⟨?_, rfl, fun a ha => hothers a (harea a ha)⟩, ?_, hothers, ?_⟩
  · simp [passedUp, userCalled]
  · rw [← userCalled_oldArea (p := p)]
    exact readState_writeState ..
  · simp [passedUp, userCalled]

omit [Layout] in
/-- The scheduler dispatches another job. -/
theorem Rep.dispatches (hn : n ≤ maxProc) {s : Abs n} (hrep : c.Rep s) :
    ∃ v c₂, ((getNewJob (n := n)).run NucOp.sem).run c = some (v, c₂) ∧
      Sched c.abs.core.leave v c₂.abs.core := by
  obtain rfl := hrep.abs_eq
  obtain ⟨v, c₂, s₂, hrun, hrep₂, hsched⟩ := nucleus_sound hn hrep wp_getNewJob
  obtain rfl := hrep₂.abs_eq
  exact ⟨v, c₂, hrun, hsched⟩

/-- A process whose trap cannot be passed up is killed as it should be exactly when the kill is
safe. -/
theorem userCalled_dies_iff (hn : n ≤ maxProc) (hwf : c.WellFormed)
    (hcur : c.currentProcess = some p) :
    (∃ c', ((nukeItTilItPukes (nukeFuel n) p).run NucOp.sem).run (c.userCalled p) = some ((), c') ∧
      c.Dies p c') ↔ c.abs.core.KillSafe p := by
  have huntouched : c.Untouched p (c.userCalled p) := userCalled_untouched
  have hwf₁ : (c.userCalled p).WellFormed := huntouched.wellFormed hwf
  have hcur₁ : (c.userCalled p).currentProcess = some p := hcur
  constructor
  · rintro ⟨c', hrun, ⟨c₁, h₁, hmem, fs, hnd, hfs, hrep⟩, -⟩
    have hprnt : c₁.store.pPrnt = c.store.pPrnt := congrArg Lists.parent h₁.lists
    rw [hprnt] at hfs
    have hwords : c'.mem = fun a => if IsDevSem a then c₁.mem a
        else c₁.mem a + BitVec.ofNat 32 (c₁.store.lists.waiting fs a) :=
      congrArg Globals.mem hrep.globals
    have hsoft : c'.softBlockCount = c₁.softBlockCount - c₁.store.lists.devWaiting fs :=
      congrArg Globals.softBlockCount hrep.globals
    have hsoft₁ : c₁.softBlockCount = c.softBlockCount :=
      (congrArg Globals.softBlockCount h₁.globals).trans rfl
    rw [hmem, h₁.lists] at hwords
    rw [hsoft₁, h₁.lists] at hsoft
    have hsafe : (c.userCalled p).abs.core.KillSafe p :=
      killSafe_of_purge hn hwf₁ hcur₁ hrun hnd hfs hwords hsoft
    exact hsafe
  · intro hsafe
    obtain ⟨c', hrun, hpurges⟩ := (purges_iff hn hwf₁ hcur₁).mpr hsafe
    obtain ⟨fs, hnd, hfs, hrep⟩ := id hpurges
    exact ⟨c', hrun, ⟨_, huntouched, rfl, hpurges⟩, hrep.dispatches hn⟩

end Nucleus

variable {c : Nucleus n} {p : Fin n}

/-- A system call of a process in user mode does not touch the nucleus: the process is resumed by
its own handler or killed. It does so exactly when the pair of the trap has been installed, or no
process below the caller is ready with a `p_semAdd`. -/
theorem userCall_iff (hn : n ≤ maxProc) (hwf : c.WellFormed) (hcur : c.currentProcess = some p)
    (huser : c.sysCallOld.sReg sCpsr &&& systemMode ≠ systemMode)
    (hareas : ∀ type a, (c.store.trap p).old type ≠ null → c.Semaphore a →
      ¬ InArea ((c.store.trap p).old type) a) :
    c.UserCall p ↔
      (c.store.trap p).old (userTrap c.sysCallOld) ≠ null ∨ c.abs.core.KillSafe p := by
  have hcur₁ : (c.userCalled p).currentProcess = some p := hcur
  simp only [Nucleus.UserCall, run_userCall hcur huser]
  by_cases h : (c.store.trap p).old (userTrap c.sysCallOld) = null
  · have hnot : ¬ (c.store.trap p).old (userTrap c.sysCallOld) ≠ null := not_not.mpr h
    simp only [hnot, false_or]
    rw [← Nucleus.userCalled_dies_iff hn hwf hcur, run_die hcur₁ h]
    constructor
    · rintro ⟨exit, c', hrun, -, hdies⟩
      obtain ⟨⟨⟨⟩, c''⟩, hnuke, heq⟩ := Option.map_eq_some_iff.mp hrun
      obtain ⟨-, rfl⟩ := Prod.mk.inj heq
      exact ⟨_, hnuke, hdies⟩
    · rintro ⟨c', hnuke, hdies⟩
      exact ⟨.getNewJob, c', by rw [hnuke]; rfl, rfl, hdies⟩
  · simp only [h, ne_eq, not_false_eq_true, true_or, iff_true]
    exact ⟨.ldst, _, run_passUp hcur₁ h, rfl, Nucleus.userCalled_resumed (hareas _ · h)⟩

omit [Layout] in
/-- A process with a handler of program traps makes a call of the nucleus in user mode. -/
theorem userCall_iff_installed : ∃ (_ : Layout) (c : Nucleus maxProc) (p : Fin maxProc),
    c.WellFormed ∧ (c.store.trap p).oldPrgm = 0x20000 ∧ userTrap c.sysCallOld = .progTrap ∧
      c.UserCall p := by
  refine ⟨sampleLayout, ?_⟩
  let _ := sampleLayout
  obtain ⟨old, hold⟩ : ∃ old, old = State.zero.setReg sA1 1 := ⟨_, rfl⟩
  have huser : old.sReg sCpsr &&& systemMode ≠ systemMode := by rw [hold]; decide
  have htrap : userTrap old = .progTrap := by rw [hold]; decide
  have hexec : (Boot.zero.config.bind (·.execIf
      (fun c _ => ∀ q ∈ c.nuc.store.readyList, c.nuc.store.pSemAdd q = null)
        [.call 5 1 0x20000 0x20100 0])).map (fun c =>
      (c.mode, c.nuc.currentProcess, (c.nuc.store.trap 0).oldTlb, (c.nuc.store.trap 0).oldPrgm,
        (c.nuc.store.trap 0).oldSys,
        decide (∀ i : Fin stateRegNum, c.nuc.store.blockedOn (0x20000 + wordLen * i.val) = []))) =
          some (.running, some 0, null, 0x20000, null, true) := by
    decide +kernel
  obtain ⟨c, hc, hrest⟩ := Option.map_eq_some_iff.mp hexec
  simp only [Prod.mk.injEq, decide_eq_true_eq] at hrest
  obtain ⟨hmode, hcur, htlb, hprgm, hsys, hblocked⟩ := hrest
  obtain ⟨tr, hrun, hready⟩ := Boot.execIf_run hc
  have hsafe : ∀ x ∈ tr, x.1.KillSafe x.2 := by
    rintro ⟨c₀, e⟩ hx
    cases e with
    | write a v => trivial
    | trap t todIn todOut => exact fun _ _ _ q _ hq => hready _ hx q hq
  have hwf : (c.nuc.atCall old).WellFormed :=
    (Config.Sound.of_run le_rfl hrun.run hsafe (.inl hmode)).wellFormed.congr rfl rfl
  have hareas : ∀ type a, ((c.nuc.atCall old).store.trap 0).old type ≠ null →
      (c.nuc.atCall old).Semaphore a → ¬ InArea (((c.nuc.atCall old).store.trap 0).old type) a := by
    intro type a hne hsem
    cases type with
    | tlbTrap => exact absurd htlb hne
    | sysTrap => exact absurd hsys hne
    | progTrap =>
      rintro ⟨i, rfl⟩
      change (c.nuc.atCall old).Semaphore ((c.nuc.store.trap 0).oldPrgm + _) at hsem
      rw [hprgm] at hsem
      rcases hsem with ⟨j, hj, heq⟩ | hblockedOn
      · have hi := i.isLt
        have hbase : semArr j = 0x8000 + wordLen * j := rfl
        rw [hbase] at heq
        simp only [wordLen, maxSema, stateRegNum] at heq hj hi
        omega
      · exact hblockedOn (hblocked i)
  have hne : ((c.nuc.atCall old).store.trap 0).old (userTrap (c.nuc.atCall old).sysCallOld) ≠
    null := by
    change (c.nuc.store.trap 0).old (userTrap old) ≠ null
    rw [htrap]
    change (c.nuc.store.trap 0).oldPrgm ≠ null
    rw [hprgm]
    decide
  exact ⟨c.nuc.atCall old, 0, hwf, hprgm, htrap,
    (userCall_iff le_rfl hwf hcur huser hareas).mpr (.inl hne)⟩

omit [Layout] in
/-- The parent of the process in the PCB used again makes a call in user mode. -/
theorem userCall_fails : ¬ ∀ (_ : Layout) (tr : List (Config maxProc × Event))
    (c : Config maxProc) (p : Fin maxProc) (old : State), Run tr c → c.mode = .running →
      c.nuc.currentProcess = some p → old.sReg sCpsr &&& systemMode ≠ systemMode →
        (∀ type, (c.nuc.store.trap p).old type = null) → (c.nuc.atCall old).UserCall p := by
  intro h
  let _ := sampleLayout
  have huser : State.zero.sReg sCpsr &&& systemMode ≠ systemMode := by decide
  have hexec : (Boot.zero.config.bind (·.exec reuse)).bind (fun c =>
      ((sysCallHandler.run NucOp.sem).run (c.nuc.atCall .zero)).map fun r =>
        (c.mode, c.nuc.currentProcess, c.nuc.store.pPrnt 2, decide (2 ∈ r.2.store.readyList),
          [TrapType.tlbTrap, .progTrap, .sysTrap].map (c.nuc.store.trap 0).old)) =
            some (.running, some 0, some 0, true, [null, null, null]) := by
    decide +kernel
  obtain ⟨c, hc, hrest⟩ := Option.bind_eq_some_iff.mp hexec
  obtain ⟨⟨exit, c'⟩, hhandler, hrest⟩ := Option.map_eq_some_iff.mp hrest
  simp only [Prod.mk.injEq, decide_eq_true_eq, List.map_cons, List.cons.injEq] at hrest
  obtain ⟨hmode, hcur, hparent, hready, htlb, hprgm, hsys, -⟩ := hrest
  obtain ⟨tr, hrun, -⟩ := Boot.exec_run hc
  have hnone : ∀ type, (c.nuc.store.trap 0).old type = null := by
    rintro (_ | _ | _)
    · exact htlb
    · exact hprgm
    · exact hsys
  obtain ⟨exit', c'', hhandler', hcall⟩ := h _ tr c 0 .zero hrun.run hmode hcur huser hnone
  obtain ⟨-, rfl⟩ := Prod.mk.inj (Option.some.inj (hhandler.symm.trans hhandler'))
  have hnull : ¬ ((c.nuc.atCall .zero).store.trap 0).old
    (userTrap (c.nuc.atCall .zero).sysCallOld) ≠
      null := not_not.mpr (hnone _)
  rw [if_neg hnull] at hcall
  obtain ⟨-, ⟨c₁, h₁, -, fs, -, hfs, hrep⟩, -⟩ := hcall
  have hparent₁ : c₁.store.pPrnt 2 = some 0 :=
    (congrFun (congrArg Lists.parent h₁.lists) 2).trans hparent
  have hmem : 2 ∈ fs := (hfs 2).mpr (.inr (.single hparent₁))
  have hlists : c'.store.lists = c₁.store.lists.purge fs := congrArg Abs.lists hrep.abs_eq
  have hq : c'.store.lists.q .ready = (c₁.store.lists.purge fs).q .ready := by rw [hlists]
  have hready' : 2 ∈ (c₁.store.lists.purge fs).q .ready := hq ▸ hready
  exact ((Lists.mem_purge_q (by simp)).mp hready').2 hmem

end Jaeos
