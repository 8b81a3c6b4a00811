import Jaeos.CpuTime

/-!
# Creating a process

`sysCallHandler` moves the state of the caller out of the old area before it serves
SYS1, and SYS1 writes its result into the old area. So the caller is resumed with the
number of the system call in `a1`, whether a process has been created or not. The
child is created as it should be, but for the `p_semAdd` of the former owner of its PCB.
-/

namespace Jaeos

open Forest

variable {n : ℕ}

/-! ## What SYS1 should do -/

/-- The state a system call that returns `v` should leave its caller in. -/
def State.returning (old : State) (v : Word) : State := old.afterCall.setReg sA1 v

/-- `q` is a new process, a child of `p`. -/
structure Nucleus.Created (c : Nucleus n) (p q : Fin n) (c' : Nucleus n) : Prop where
  /-- it has the PCB at the head of the free list -/
  free : c.store.freeList = q :: c'.store.freeList
  /-- it is the last one of the ready queue -/
  ready : c'.store.readyList = c.store.readyList ++ [q]
  /-- `p` is its parent -/
  parent : c'.store.pPrnt = Function.update c.store.pPrnt q (some p)
  /-- and it is the youngest child of `p` -/
  children : c'.store.children = pushKid c.store.children p q
  /-- it starts with the state at `s_a2` -/
  state : c'.store.pS q = readState c.mem (c.sysCallOld.sReg sA2).toNat
  /-- it has used no time -/
  time : c'.store.pTime = Function.update c.store.pTime q 0
  /-- it has specified no areas -/
  trap : c'.store.trap = Function.update c.store.trap q TrapAreas.none
  /-- it is counted -/
  count : c'.processCount = c.processCount + 1
  /-- the states of the others, except the caller, are as they were -/
  others : ∀ x, x ≠ p → x ≠ q → c'.store.pS x = c.store.pS x
  /-- nobody is blocked or woken -/
  blocked : ∀ a, c'.store.blockedOn a = c.store.blockedOn a
  /-- the words and the devices are as they were -/
  mem : c'.mem = c.mem ∧ c'.devStatus = c.devStatus ∧ c'.softBlockCount = c.softBlockCount

/-- Nothing but the old area of system calls and the state of `p` has changed. -/
structure Nucleus.Refused (c : Nucleus n) (p : Fin n) (c' : Nucleus n) : Prop where
  /-- the globals -/
  globals : { c'.toGlobals with sysCallOld := c.sysCallOld } = c.toGlobals
  /-- the queues and the tree -/
  lists : c'.store.lists = c.store.lists
  /-- the fields of the PCBs -/
  data : c'.store.toPcbData =
    { c.store.toPcbData with pS := Function.update c.store.pS p (c'.store.pS p) }

/-- SYS1 is all or nothing, and reports its result. -/
structure Nucleus.CreateSpec (c : Nucleus n) (p : Fin n) (exit : Exit) (c' : Nucleus n) :
    Prop where
  /-- the caller is resumed -/
  resumed : exit = .ldst ∧ c'.currentProcess = some p
  /-- if a PCB is free, it becomes that of a new process, and the caller gets `SUCCESS` -/
  success : ∀ q, c.store.nextFree = some q → q ≠ p ∧ c.Created p q c' ∧
    c'.store.pSemAdd q = null ∧ c'.store.pS p = c.sysCallOld.returning success
  /-- if none is free, nothing happens, and the caller gets `FAILURE` -/
  failure : c.store.nextFree = none → c.Refused p c' ∧
    c'.store.pS p = c.sysCallOld.returning failed

variable [Layout]

/-! ## What it does -/

section

variable {c : Nucleus n} {p : Fin n}

omit [Layout] in
/-- `headBackHome` changes nothing. -/
theorem does_headBackHome_any {Q : Exit → Nucleus n → Prop} (hQ : ∀ exit, Q exit c) :
    (headBackHome (n := n)).wp NucOp.does Q c := by
  simp only [headBackHome, Prog.wp_bind, does_globals]
  split
  · exact hQ .undefined
  · exact hQ .ldst

omit [Layout] in
/-- Whatever SYS1 does, the caller keeps the state it was called with, unless its own PCB is
handed out. -/
theorem does_createProcess {Q : Exit → Nucleus n → Prop}
    (hQ : ∀ exit c', (c.store.nextFree ≠ some p → c'.store.pS p = c.store.pS p) → Q exit c') :
    (createProcess p).wp NucOp.does Q c := by
  rw [createProcess, Prog.wp_bind, does_store]
  intro b st hrun
  obtain ⟨hnext, hdata⟩ := allocPcb_result hrun
  cases b with
  | none =>
    have hpS : st.pS p = c.store.pS p := congrFun (congrArg PcbData.pS hdata) p
    simp only [Prog.wp_bind, does_modifyGlobals]
    exact does_headBackHome_any fun exit => hQ exit _ fun _ => hpS
  | some q =>
    have hpS : st.pS p = c.store.pS p := congrFun (congrArg PcbData.pS hdata) p
    simp only [Prog.wp_bind, does_modifyGlobals, does_globals, does_setState, does_store]
    intro _ st₁ hrun₁ _ st₂ hrun₂
    have hdata₁ := StoreOp.keeps_data (.insertChild p q) id _ _ _ hrun₁
    have hdata₂ := StoreOp.keeps_data (.insertReady q) id _ _ _ hrun₂
    refine does_headBackHome_any fun exit => hQ exit _ fun hne => ?_
    have hpq : p ≠ q := by
      rintro rfl
      exact hne hnext.symm
    have hpS₂ : st₂.pS p = _ := congrFun (congrArg PcbData.pS (hdata₂.trans hdata₁)) p
    exact hpS₂.trans ((Function.update_of_ne hpq ..).trans hpS)

/-- In system mode with a 1 in `a1`, `sysCallHandler` serves SYS1. -/
theorem does_sysCallHandler_create (hcur : c.currentProcess = some p)
    (hmode : c.sysCallOld.sReg sCpsr &&& systemMode = systemMode)
    (hnum : c.sysCallOld.sReg sA1 = 1) {Q : Exit → Nucleus n → Prop}
    (hQ : (createProcess p).wp NucOp.does Q { c with
      sysCallOld := c.sysCallOld.afterCall
      currentProcess := some p
      store := { c.store with pS := Function.update c.store.pS p c.sysCallOld.afterCall } }) :
    (sysCallHandler (n := n)).wp NucOp.does Q c := by
  have hcpsr : c.sysCallOld.afterCall.sReg sCpsr = c.sysCallOld.sReg sCpsr :=
    c.sysCallOld.afterCall_sReg (by decide)
  have hcall : SysCall.ofNum (1 : Word) = some .createProcess := rfl
  simp only [sysCallHandler, Prog.wp_bind, does_globals, does_modifyGlobals]
  rw [hcur]
  simp only [Prog.wp_bind, does_setState]
  rw [State.afterCall] at hcpsr
  rw [hcpsr, if_pos hmode, hnum, hcall]
  exact hQ

end

omit [Layout] in
/-- The next PCB that `allocPcb` hands out is the oldest free one. -/
theorem Rep.nextFree_eq {st : Store n} {d : PcbData n} {l : Lists n} (h : Rep st d l) :
    st.nextFree = (l.q .free).head? := by
  have hhead := headProcQ_run h.isQueue_free
  rw [Store.nextFree]
  cases hp : st.pcbListH with
  | none =>
    rw [hp] at hhead
    exact (Prod.mk.inj (Option.some.inj hhead)).1
  | some t =>
    rw [hp] at hhead
    exact (Prod.mk.inj (Option.some.inj hhead)).1

omit [Layout] in
/-- What SYS1 does on the lists, when a PCB is free. -/
theorem wp_createProcess_some {s : Abs n} {p q : Fin n} {qs : List (Fin n)}
    {Q : Exit → Abs n → Prop}
    (hok : s.lists.Ok (some p)) (hcur : s.currentProcess = some p) (hq : s.lists.q .free = q :: qs)
    (hQ : ∀ s' : Abs n, s'.lists = ((s.lists.setQ .free qs).adopt p q).append .ready q →
      s'.data = { s.data.wash q with
        pS := Function.update s.data.pS q (readState s.mem (s.sysCallOld.sReg sA2).toNat) } →
      s'.toGlobals = { s.toGlobals with
        sysCallOld := s.sysCallOld.setReg sA1 success, processCount := s.processCount + 1 } →
      Q .ldst s') : (createProcess p).wp NucOp.spec Q s := by
  rw [createProcess, Prog.wp_bind, wp_allocPcb]
  refine ⟨fun hnil => absurd (hnil.symm.trans hq) (by simp), fun x xs hcons => ?_⟩
  obtain ⟨rfl, rfl⟩ := List.cons.inj (hcons.symm.trans hq)
  have hiso : s.lists.Isolated x := hok.free x (by simp [hcons])
  have hloose : (s.lists.setQ .free xs).Loose x := (hok.placed.pop hcons).loose x (by simp)
  have ha2 : (s.sysCallOld.setReg sA1 success).sReg sA2 = s.sysCallOld.sReg sA2 :=
    State.setReg_ne _ _ (by decide)
  refine ⟨hiso, ?_⟩
  simp only [Prog.wp_bind, wp_modifyGlobals, wp_globals, wp_setState, wp_insertChild,
    wp_insertReady]
  refine ⟨hiso.1, hloose, wp_headBackHome hcur (hQ _ rfl ?_ rfl)⟩
  rw [← ha2]
  rfl

omit [Layout] in
/-- What SYS1 does on the lists, when no PCB is free. -/
theorem wp_createProcess_none {s : Abs n} {p : Fin n} {Q : Exit → Abs n → Prop}
    (hcur : s.currentProcess = some p) (hq : s.lists.q .free = [])
    (hQ : Q .ldst
    (s.setGlobals { s.toGlobals with sysCallOld := s.sysCallOld.setReg sA1 failed })) :
    (createProcess p).wp NucOp.spec Q s := by
  rw [createProcess, Prog.wp_bind, wp_allocPcb]
  refine ⟨fun _ => ?_, fun x xs hcons => absurd (hcons.symm.trans hq) (by simp)⟩
  simp only [Prog.wp_bind, wp_modifyGlobals]
  exact wp_headBackHome hcur hQ

/-- The child is created as it should be, but for its `p_semAdd`, and without a free PCB nothing
happens; the caller keeps the state it was called with. -/
theorem create_spawns (hn : n ≤ maxProc) {c : Nucleus n} {p : Fin n} (hwf : c.WellFormed)
    (hcur : c.currentProcess = some p)
    (hmode : c.sysCallOld.sReg sCpsr &&& systemMode = systemMode)
    (hnum : c.sysCallOld.sReg sA1 = 1) :
    ∃ c', (sysCallHandler.run NucOp.sem).run c = some (.ldst, c') ∧ c'.currentProcess = some p ∧
      c'.store.pS p = c.sysCallOld.afterCall ∧ c'.store.pSemAdd = c.store.pSemAdd ∧
        (∀ q, c.store.nextFree = some q → q ≠ p ∧ c.Created p q c') ∧
          (c.store.nextFree = none → c.Refused p c') := by
  have hok : c.store.lists.Ok (some p) := hcur ▸ hwf.ok
  have hnext : c.store.nextFree = c.store.freeList.head? := hwf.rep.store.nextFree_eq
  have hserve : ∀ {Q : Exit → Abs n → Prop},
      (createProcess p).wp NucOp.spec Q (c.abs.called p c.sysCallOld) →
        (sysCallHandler (n := n)).wp NucOp.spec Q c.abs := by
    intro Q hQ
    have hold : c.abs.sysCallOld = c.sysCallOld := rfl
    refine wp_sysCallHandler_cases hcur hold (fun _ => ?_) (fun h => absurd hmode h)
      fun h => absurd hmode h
    rw [hnum]
    exact hQ
  cases hfree : c.store.freeList with
  | nil =>
    rw [hfree, List.head?_nil] at hnext
    obtain ⟨exit, c', s', hrun, hrep, rfl, rfl⟩ := nucleus_sound hn
      (Q := fun exit s' => exit = .ldst ∧ s' = (c.abs.called p c.sysCallOld).setGlobals
        { (c.abs.called p c.sysCallOld).toGlobals with
          sysCallOld := c.sysCallOld.afterCall.setReg sA1 failed }) hwf.rep
      (hserve (wp_createProcess_none hcur hfree ⟨rfl, rfl⟩))
    have hglobals := hrep.globals
    have hdata : c'.store.toPcbData = _ := hrep.store.data
    have hlists : c'.store.lists = c.store.lists := hrep.store.lists_eq
    have hpS : c'.store.pS = Function.update c.store.pS p c.sysCallOld.afterCall :=
      congrArg PcbData.pS hdata
    have hself : c'.store.pS p = c.sysCallOld.afterCall := by rw [hpS, Function.update_self]
    refine ⟨c', hrun, (congrArg Globals.currentProcess hglobals).trans hcur, hself,
      congrArg Lists.semAdd hlists, fun q hq => absurd (hnext.symm.trans hq) (by simp),
      fun _ => ⟨?_, hlists, ?_⟩⟩
    · rw [hglobals]
      rfl
    · rw [hself]
      exact hdata
  | cons q qs =>
    rw [hfree, List.head?_cons] at hnext
    have hq : (c.abs.called p c.sysCallOld).lists.q .free = q :: qs := hfree
    obtain ⟨exit, c', s', hrun, hrep, rfl, hlists, hdata, hglobals⟩ := nucleus_sound hn
      (Q := fun exit s' => exit = .ldst ∧
        s'.lists = ((c.store.lists.setQ .free qs).adopt p q).append .ready q ∧
        s'.data = { (c.abs.called p c.sysCallOld).data.wash q with
          pS := Function.update (c.abs.called p c.sysCallOld).data.pS q
            (readState c.mem (c.sysCallOld.afterCall.sReg sA2).toNat) } ∧
        s'.toGlobals = { (c.abs.called p c.sysCallOld).toGlobals with
          sysCallOld := c.sysCallOld.afterCall.setReg sA1 success
          processCount := c.processCount + 1 }) hwf.rep
      (hserve (wp_createProcess_some hok hcur hq fun s' hlists hdata hglobals =>
        ⟨rfl, hlists, hdata, hglobals⟩))
    obtain rfl := hrep.abs_eq
    have hqp : q ≠ p := by
      rintro rfl
      exact hok.cur_loose .free (hq ▸ List.mem_cons_self)
    have hglobals : c'.toGlobals = _ := hglobals
    have hdata : c'.store.toPcbData = _ := hdata
    have hq' : ∀ i, c'.store.lists.q i =
        (((c.store.lists.setQ .free qs).adopt p q).append .ready q).q i :=
      fun i => congrFun (congrArg Lists.q hlists) i
    have hpS : c'.store.pS = Function.update (Function.update c.store.pS p c.sysCallOld.afterCall) q
        (readState c.mem (c.sysCallOld.afterCall.sReg sA2).toNat) := congrArg PcbData.pS hdata
    refine ⟨c', hrun, (congrArg Globals.currentProcess hglobals).trans hcur, ?_,
      congrArg Lists.semAdd hlists, fun x hx => ?_, fun hnone =>
        absurd (hnext.symm.trans hnone) (by simp)⟩
    · rw [hpS, Function.update_of_ne hqp.symm, Function.update_self]
    · obtain rfl : x = q := Option.some.inj (hx.symm.trans hnext)
      refine ⟨hqp, ⟨?_, ?_, ?_, ?_, ?_, ?_, ?_, ?_, fun y hyp hyx => ?_, fun a => ?_, ?_⟩⟩
      · have hfree' : c'.store.freeList = qs := (hq' .free).trans (by simp)
        rw [hfree, hfree']
      · exact (hq' .ready).trans (by simp; rfl)
      · exact congrArg Lists.parent hlists
      · exact congrArg Lists.kids hlists
      · rw [hpS, Function.update_self, c.sysCallOld.afterCall_sReg (by decide)]
      · exact congrArg PcbData.pTime hdata
      · exact congrArg PcbData.trap hdata
      · exact congrArg Globals.processCount hglobals
      · rw [hpS, Function.update_of_ne hyx, Function.update_of_ne hyp]
      · exact (hq' (.blocked a)).trans (by simp; rfl)
      · exact ⟨(congrArg Globals.mem hglobals).trans rfl,
          (congrArg Globals.devStatus hglobals).trans rfl,
          (congrArg Globals.softBlockCount hglobals).trans rfl⟩

/-- SYS1 never meets its specification: the caller is resumed with the number of the system call
in `a1`. -/
theorem create_never_reports {c : Nucleus n} {p : Fin n} (hcur : c.currentProcess = some p)
    (hmode : c.sysCallOld.sReg sCpsr &&& systemMode = systemMode)
    (hnum : c.sysCallOld.sReg sA1 = 1) {exit : Exit} {c' : Nucleus n}
    (hrun : (sysCallHandler.run NucOp.sem).run c = some (exit, c')) :
    ¬ c.CreateSpec p exit c' := by
  have hkept : c.store.nextFree ≠ some p → (c'.store.pS p).sReg sA1 = 1 := by
    refine Prog.of_liberal (Q := fun _ c' => c.store.nextFree ≠ some p →
      (c'.store.pS p).sReg sA1 = 1) (does_sysCallHandler_create hcur hmode hnum
        (does_createProcess fun _ c' hpS hne => ?_)) hrun
    have hpS' : c'.store.pS p = c.sysCallOld.afterCall := (hpS hne).trans (Function.update_self ..)
    rw [hpS', c.sysCallOld.afterCall_sReg (by decide), hnum]
  intro hspec
  have hresult : ∀ v : Word, v ≠ 1 → c'.store.pS p = c.sysCallOld.returning v →
      c.store.nextFree = some p := by
    intro v hv hpS
    by_contra hne
    have ha1 := hkept hne
    rw [hpS, State.returning, State.setReg_self] at ha1
    exact hv ha1
  cases hnext : c.store.nextFree with
  | none =>
    have hfree := hresult failed (by decide) (hspec.failure hnext).2
    rw [hnext] at hfree
    cases hfree
  | some q =>
    obtain ⟨hqp, -, -, hpS⟩ := hspec.success q hnext
    have hfree := hresult success (by decide) hpS
    exact hqp (Option.some.inj (hnext.symm.trans hfree))

omit [Layout] in
/-- The first process calls SYS1. -/
theorem create_never_reports_first : ∃ (_ : Layout) (c : Nucleus maxProc) (exit : Exit)
    (c' : Nucleus maxProc), c.currentProcess = some 0 ∧ c.store.nextFree = some 1 ∧
      (sysCallHandler.run NucOp.sem).run c = some (exit, c') ∧ ¬ c.CreateSpec 0 exit c' := by
  refine ⟨sampleLayout, ?_⟩
  let _ := sampleLayout
  obtain ⟨old, hold⟩ : ∃ old, old = (State.zero.setReg sA1 1).setReg sCpsr systemMode := ⟨_, rfl⟩
  have hmode : old.sReg sCpsr &&& systemMode = systemMode := by rw [hold]; decide
  have hnum : old.sReg sA1 = 1 := by rw [hold]; decide
  have hexec : Boot.zero.config.bind (fun c =>
      ((sysCallHandler.run NucOp.sem).run (c.nuc.atCall old)).map fun _ =>
        (c.nuc.currentProcess, c.nuc.store.nextFree)) = some (some 0, some 1) := by
    rw [hold]
    decide +kernel
  obtain ⟨c, hc, hrest⟩ := Option.bind_eq_some_iff.mp hexec
  obtain ⟨⟨exit, c'⟩, hhandler, hrest⟩ := Option.map_eq_some_iff.mp hrest
  simp only [Prod.mk.injEq] at hrest
  obtain ⟨hcur, hnext⟩ := hrest
  have hcur' : (c.nuc.atCall old).currentProcess = some 0 := hcur
  exact ⟨c.nuc.atCall old, exit, c', hcur', hnext, hhandler,
    create_never_reports hcur' hmode hnum hhandler⟩

omit [Layout] in
/-- The first process calls SYS1 and is resumed with a 1 in `a1`. -/
theorem create_reports_fails : ¬ ∀ (_ : Layout) (tr : List (Config maxProc × Event))
    (c : Config maxProc) (p : Fin maxProc) (old : State), Run tr c → c.mode = .running →
      c.nuc.currentProcess = some p → old.sReg sCpsr &&& systemMode = systemMode →
        old.sReg sA1 = 1 → ∃ exit c',
          (sysCallHandler.run NucOp.sem).run (c.nuc.atCall old) = some (exit, c') ∧
            (c.nuc.atCall old).CreateSpec p exit c' := by
  intro h
  let _ := sampleLayout
  obtain ⟨old, hold⟩ : ∃ old, old = (State.zero.setReg sA1 1).setReg sCpsr systemMode := ⟨_, rfl⟩
  have hsystem : old.sReg sCpsr &&& systemMode = systemMode := by rw [hold]; decide
  have hnum : old.sReg sA1 = 1 := by rw [hold]; decide
  have hexec : Boot.zero.config.bind (fun c =>
      ((sysCallHandler.run NucOp.sem).run (c.nuc.atCall old)).map fun r =>
        (c.mode, c.nuc.currentProcess, c.nuc.store.nextFree, (r.2.store.pS 0).sReg sA1)) =
          some (.running, some 0, some 1, 1) := by
    rw [hold]
    decide +kernel
  obtain ⟨c, hc, hrest⟩ := Option.bind_eq_some_iff.mp hexec
  obtain ⟨⟨exit, c'⟩, hhandler, hrest⟩ := Option.map_eq_some_iff.mp hrest
  simp only [Prod.mk.injEq] at hrest
  obtain ⟨hmode, hcur, hnext, ha1⟩ := hrest
  obtain ⟨exit', c'', hhandler', hspec⟩ := h _ [] c 0 old (.start ⟨_, hc⟩) hmode hcur hsystem hnum
  obtain ⟨-, rfl⟩ := Prod.mk.inj (Option.some.inj (hhandler.symm.trans hhandler'))
  obtain ⟨-, -, -, hpS⟩ := hspec.success 1 hnext
  rw [hpS, State.returning, State.setReg_self] at ha1
  exact absurd ha1 (by decide)

end Jaeos
