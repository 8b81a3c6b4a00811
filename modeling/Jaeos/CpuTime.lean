import Jaeos.Ticks

/-!
# CPU time

The ledger of a run is kept by an observer of the nucleus: it has an account for
each living process, with the time for which it has been the current process. The
observer sees time pass between the events, and which PCBs `allocPcb` and
`freePcb` hand out and take back; it does not look at `startTOD` and `p_time`.
The nucleus agrees with it exactly as long as no process is created in the PCB of
its creator after that has run for a while (`cpu_time_conserved`).
-/

namespace Jaeos

variable {n : ℕ}

/-! ## The ledger -/

/-- The account of a living process. -/
structure Account where
  /-- the number of the event that created it -/
  born : ℕ
  /-- the time for which it has been the current process -/
  used : ℤ

/-- The accounts of the living processes. -/
abbrev Ledger (n : ℕ) : Type := Fin n → Option Account

/-- Time passes while `cur` is the current process. -/
def Ledger.spend (g : Ledger n) (cur : Option (Fin n)) (d : ℤ) : Ledger n := fun p =>
  if cur = some p then (g p).map fun a => { a with used := a.used + d } else g p

/-- What the observer notes during event `m`: a PCB that is handed out gets an account, and one
that is taken back loses it. -/
def NucOp.note (m : ℕ) : ∀ β, NucOp n β → β → Ledger n → Ledger n
  | _, .store .allocPcb, some p, g => Function.update g p (some ⟨m, 0⟩)
  | _, .store (.freePcb p), _, g => Function.update g p none
  | _, _, _, g => g

section

variable [Layout]

/-- The ledger after an event, the one with number `m`. -/
def Config.ledgerAfter (c : Config n) (m : ℕ) (g : Ledger n) : Event → Ledger n
  | .write _ _ => g
  | .trap t todIn todOut => (t.react todIn todOut).observe NucOp.sem (NucOp.note m) c.nuc
      (g.spend c.nuc.currentProcess (todIn - c.nuc.clock.todOut))

/-- The ledger when `main` has called the scheduler. -/
def Boot.ledger (b : Boot n) : Ledger n :=
  match initStore.run b.tables with
  | none => fun _ => none
  | some (_, st) =>
    b.main.observe NucOp.sem (NucOp.note 0) { b.vars with store := st } fun _ => none

/-- The ledger of a run. -/
def ledgerOf (b : Boot n) : List (Config n × Event) → Ledger n
  | [] => b.ledger
  | (c, e) :: tr => c.ledgerAfter (tr.length + 1) (ledgerOf b tr) e

/-- `p->p_time`, and the time since `startTOD` if `p` is the current process. -/
def Nucleus.cpuTime (c : Nucleus n) (now : ℤ) (p : Fin n) : ℤ :=
  c.store.pTime p + if c.currentProcess = some p then now - c.clock.startTOD else 0

/-- At any time of day, the nucleus has charged each living process what the ledger says. -/
def Config.Conserves (c : Config n) (g : Ledger n) : Prop :=
  ∀ now p a, g.spend c.nuc.currentProcess (now - c.nuc.clock.todOut) p = some a →
    c.nuc.cpuTime now p = a.used

end

/-- The PCB that `allocPcb` takes: the head of the PCB free list. -/
def Store.nextFree (st : Store n) : Option (Fin n) := st.pcbListH.bind st.pNext

/-- The request is SYS1. -/
def Request.IsCreate : Request → Prop
  | .create _ => True
  | _ => False

instance (r : Request) : Decidable r.IsCreate :=
  match r with
  | .create _ => isTrue trivial
  | .terminate | .verhogen _ | .passeren _ | .sesv _ | .getCpuTime | .waitForClock
  | .waitForIo _ | .trap _ | .timer | .device _ _ _ | .spurious => isFalse id

/-- SYS1 does not take the PCB of the process that calls it, unless no time has passed since
`startTOD`. -/
def Config.Fresh (c : Config n) : Event → Prop
  | .write _ _ => True
  | .trap t todIn _ => t.request.IsCreate → c.nuc.store.nextFree = c.nuc.currentProcess →
      todIn = c.nuc.clock.startTOD

instance (c : Config n) (e : Event) : Decidable (c.Fresh e) :=
  match e with
  | .write _ _ => isTrue trivial
  | .trap _ _ _ => inferInstanceAs (Decidable (_ → _ → _))

/-- SYS1 comes from a system call in system mode. -/
theorem Trap.isCreate_cases {t : Trap} (h : t.request.IsCreate) : ∃ old, t = .sysCall old ∧
    old.sReg sCpsr &&& systemMode = systemMode ∧
      SysCall.ofNum (old.sReg sA1) = some .createProcess := by
  obtain ⟨old, call, rfl, hsys, hcall, hr⟩ := t.call_cases (fun type he => by rw [he] at h; exact h)
    (fun hint => by cases hr : t.request <;> simp_all [Request.IsCreate, Request.Interrupt])
  rw [hr] at h
  cases call with
  | createProcess => exact ⟨old, rfl, hsys, hcall⟩
  | terminateProcess | verhogen | passeren | sesv | getCpuTime | waitForClock | waitForIo => cases h

/-- SYS6 comes from a system call in system mode. -/
theorem Trap.getCpuTime_cases {t : Trap} (h : t.request = .getCpuTime) : ∃ old, t = .sysCall old ∧
    old.sReg sCpsr &&& systemMode = systemMode ∧
      SysCall.ofNum (old.sReg sA1) = some .getCpuTime := by
  obtain ⟨old, call, rfl, hsys, hcall, hr⟩ := t.call_cases (fun type he => by rw [he] at h; cases h)
    (fun hint => by rw [h] at hint; exact hint)
  rw [h] at hr
  cases call with
  | getCpuTime => exact ⟨old, rfl, hsys, hcall⟩
  | terminateProcess | verhogen | passeren | sesv | createProcess | waitForClock | waitForIo =>
    cases hr

/-! ## The operations and the ledger -/

/-- What the operations do to the nucleus, and what the observer notes. -/
abbrev NucOp.noted (m : ℕ) : Prog.Contract (NucOp n) (Nucleus n × Ledger n) :=
  Prog.watched NucOp.sem (NucOp.note m)

/-- The call writes the data of the PCBs. -/
def StoreOp.WritesData {β : Type} : StoreOp n β → Prop
  | .modifyData _ | .allocPcb | .freePcb _ => True
  | _ => False

/-- The other calls do not. -/
theorem StoreOp.keeps_data {β : Type} (o : StoreOp n β) (ho : ¬ o.WritesData) :
    Keeps (·.toPcbData) (StoreOp.sem _ o) := by
  have hready : ∀ tail : Option (Fin n),
      Keeps (·.toPcbData) (modify fun st : Store n => { st with readyQueue := tail }) := fun _ =>
    Keeps.of_modify fun _ => rfl
  have h := Blind.data (n := n)
  cases o with
  | modifyData f | allocPcb | freePcb p => exact absurd trivial ho
  | data | semAdd p => exact .of_get_bind fun _ => .of_pure _
  | clearSemAdd p => exact h.setSemAdd _ _
  | emptyChild p => exact Blind.emptyChild _
  | insertChild prnt p => exact h.insertChild _ _
  | removeChild prnt => exact h.removeChild _
  | outChild p => exact h.outChild _
  | insertReady p =>
    exact .of_get_bind fun _ => .of_bind (h.queue.insertProcQ _ _) fun _ => hready _
  | removeReady =>
    refine .of_get_bind fun _ => .of_bind (h.queue.removeProcQ _) fun _ => ?_
    exact .of_bind (hready _) fun _ => .of_pure _
  | outReady p =>
    refine .of_get_bind fun _ => .of_bind (h.queue.outProcQ _ _) fun _ => ?_
    exact .of_bind (hready _) fun _ => .of_pure _
  | insertBlocked a p => exact h.insertBlocked _ _
  | removeBlocked a => exact h.queue.removeBlocked _
  | outBlocked p => exact h.queue.outBlocked _

section

variable {m : ℕ} {c : Nucleus n} {g : Ledger n} {p : Fin n}

theorem notes_globals (Q : Globals n → Nucleus n × Ledger n → Prop) :
    (globals (n := n)).wp (NucOp.noted m) Q (c, g) ↔ Q c.toGlobals (c, g) :=
  does_globals fun b c' => Q b (c', g)

theorem notes_modifyGlobals (f : Globals n → Globals n) (Q : Unit → Nucleus n × Ledger n → Prop) :
    (modifyGlobals f).wp (NucOp.noted m) Q (c, g) ↔
        Q () ({ c with toGlobals := f c.toGlobals }, g) :=
  does_modifyGlobals f fun b c' => Q b (c', g)

theorem notes_modifyClock (f : Clock → Clock) (Q : Unit → Nucleus n × Ledger n → Prop) :
    (modifyClock f).wp (NucOp.noted m) Q (c, g) ↔
      Q () ({ c with toGlobals := { c.toGlobals with clock := f c.clock } }, g) :=
  notes_modifyGlobals ..

theorem notes_setTIMER (v tod : ℤ) (Q : Unit → Nucleus n × Ledger n → Prop) :
    (setTIMER v tod).wp (NucOp.noted m) Q (c, g) ↔ Q () ({ c with toGlobals := { c.toGlobals with
      clock := { c.clock with timer := v, timerAt := tod } } }, g) :=
  notes_modifyGlobals ..

theorem notes_addMem (a : ℕ) (d : Word) (Q : Unit → Nucleus n × Ledger n → Prop) :
    (addMem a d).wp (NucOp.noted m) Q (c, g) ↔
      Q () ({ c with toGlobals := c.toGlobals.setMem a (c.mem a + d) }, g) :=
  notes_modifyGlobals ..

theorem notes_data (Q : PcbData n → Nucleus n × Ledger n → Prop) :
    (store .data).wp (NucOp.noted m) Q (c, g) ↔ Q c.store.toPcbData (c, g) :=
  does_data fun b c' => Q b (c', g)

theorem notes_modifyData (f : PcbData n → PcbData n) (Q : Unit → Nucleus n × Ledger n → Prop) :
    (store (.modifyData f)).wp (NucOp.noted m) Q (c, g) ↔
      Q () ({ c with store := { c.store with toPcbData := f c.store.toPcbData } }, g) :=
  does_modifyData f fun b c' => Q b (c', g)

theorem notes_setState (st : State) (Q : Unit → Nucleus n × Ledger n → Prop) :
    (setState p st).wp (NucOp.noted m) Q (c, g) ↔ Q () ({ c with store := { c.store with
      pS := Function.update c.store.pS p st } }, g) :=
  notes_modifyData ..

theorem notes_setReturn (v : Word) (Q : Unit → Nucleus n × Ledger n → Prop) :
    (setReturn p v).wp (NucOp.noted m) Q (c, g) ↔ Q () ({ c with store := { c.store with
      pS := Function.update c.store.pS p ((c.store.pS p).setReg sA1 v) } }, g) :=
  notes_modifyData ..

/-- The calls that write links only. -/
theorem notes_links {β : Type} {o : StoreOp n β} {Q : β → Nucleus n × Ledger n → Prop}
    (ho : ¬ o.WritesData)
    (h : ∀ b st, st.pTime = c.store.pTime → Q b ({ c with store := st }, g)) :
    (store o).wp (NucOp.noted m) Q (c, g) := by
  refine (does_store o fun b c' => Q b (c', NucOp.note m _ (.store o) b g)).mpr fun b st hrun => ?_
  have hnote : NucOp.note m _ (.store o) b g = g := by
    cases o <;> first | rfl | exact absurd trivial ho
  rw [hnote]
  exact h b st (congrArg PcbData.pTime (o.keeps_data ho _ _ _ hrun))

/-- `freePcb` clears the time of the PCB, and the account is closed. -/
theorem notes_freePcb {Q : Unit → Nucleus n × Ledger n → Prop}
    (h : ∀ st, st.pTime = Function.update c.store.pTime p 0 →
      Q () ({ c with store := st }, Function.update g p none)) :
    (store (.freePcb p)).wp (NucOp.noted m) Q (c, g) := by
  refine (does_store _ fun b c' => Q b (c', NucOp.note m _ (.store (.freePcb p)) b g)).mpr
    fun _ st hrun => h st ?_
  have hrun : (freePcb p).run c.store = some ((), st) := hrun
  rw [freePcb, StateT.run_bind, washPcb_clean] at hrun
  -- the PCB has been washed, and the rest writes links
  have hkeeps : Keeps (·.toPcbData) (do
      let tail ← insertProcQ (← get).pcbListH p
      modify fun st => { st with pcbListH := tail } : StoreM n Unit) :=
    .of_get_bind fun _ => .of_bind (Blind.data.queue.insertProcQ _ _) fun _ =>
      .of_modify fun _ => rfl
  exact congrArg PcbData.pTime (hkeeps _ _ _ hrun)

/-- `allocPcb` hands out the head of the free list, washed. -/
theorem allocPcb_result {st st' : Store n} {b : Option (Fin n)}
    (hrun : allocPcb.run st = some (b, st')) : b = st.nextFree ∧
      st'.toPcbData = b.elim st.toPcbData fun p => st.toPcbData.wash p := by
  rw [allocPcb] at hrun
  obtain ⟨⟨⟨b', tail⟩, st₁⟩, hremove, hrest⟩ := Option.bind_eq_some_iff.mp hrun
  have hhead := (removeProcQ_head hremove).1
  have hdata : st₁.toPcbData = st.toPcbData := Blind.data.queue.removeProcQ _ _ _ _ hremove
  cases b' with
  | none =>
    obtain ⟨rfl, rfl⟩ := Prod.mk.inj (Option.some.inj hrest)
    exact ⟨hhead, hdata⟩
  | some p =>
    have hwash : ((washPcb p >>= fun _ => pure (some p) : StoreM n _)).run
        { st₁ with pcbListH := tail } = some (b, st') := hrest
    rw [StateT.run_bind, washPcb_clean] at hwash
    obtain ⟨rfl, rfl⟩ := Prod.mk.inj (Option.some.inj hwash)
    refine ⟨hhead, ?_⟩
    change st₁.toPcbData.wash p = st.toPcbData.wash p
    rw [hdata]

/-- `allocPcb` clears the time of the PCB it hands out, and an account is opened. -/
theorem notes_allocPcb {Q : Option (Fin n) → Nucleus n × Ledger n → Prop}
    (hnone : ∀ st, c.store.nextFree = none → st.pTime = c.store.pTime →
      Q none ({ c with store := st }, g))
    (hsome : ∀ p st, c.store.nextFree = some p → st.pTime = Function.update c.store.pTime p 0 →
      Q (some p) ({ c with store := st }, Function.update g p (some ⟨m, 0⟩))) :
    (store .allocPcb).wp (NucOp.noted m) Q (c, g) := by
  refine (does_store _ fun b c' => Q b (c', NucOp.note m _ (.store .allocPcb) b g)).mpr
    fun b st hrun => ?_
  obtain ⟨hnext, hdata⟩ := allocPcb_result hrun
  cases b with
  | none => exact hnone st hnext.symm (congrArg PcbData.pTime hdata)
  | some p => exact hsome p st hnext.symm (congrArg PcbData.pTime hdata)

end

/-! ## The books inside a handler -/

/-- At the time of day `now`, the ledger is right about what has been charged and what is still to
be charged to the current process. -/
structure Even (now : ℤ) (c : Nucleus n) (g : Ledger n) : Prop where
  /-- the handler was entered at `now` -/
  todIn : c.clock.todIn = now
  /-- the handler takes no time -/
  todOut : c.clock.todOut = now
  /-- the accounts -/
  account : ∀ p a, g p = some a → c.cpuTime now p = a.used

/-- At the time of day `now`, the ledger is right and nothing is still to be charged. -/
structure Settled (now : ℤ) (c : Nucleus n) (g : Ledger n) : Prop where
  /-- the handler was entered at `now` -/
  todIn : c.clock.todIn = now
  /-- the handler takes no time -/
  todOut : c.clock.todOut = now
  /-- the accounts -/
  account : ∀ p a, g p = some a → c.store.pTime p = a.used

/-- How the end of a handler leaves the books. -/
def Booked (now : ℤ) (exit : Exit) (s : Nucleus n × Ledger n) : Prop :=
  (exit = .ldst → Even now s.1 s.2) ∧ (exit = .getNewJob → Settled now s.1 s.2)

section

variable {now : ℤ} {m : ℕ} {c c' : Nucleus n} {g g' : Ledger n} {p : Fin n}

/-- Only the clock, the current process and the times matter. -/
theorem Even.congr (h : Even now c g) (hclock : c'.clock = c.clock)
    (hcur : c'.currentProcess = c.currentProcess) (htime : c'.store.pTime = c.store.pTime) :
    Even now c' g := by
  refine ⟨hclock ▸ h.todIn, hclock ▸ h.todOut, fun p a hp => ?_⟩
  rw [Nucleus.cpuTime, hclock, hcur, htime]
  exact h.account p a hp

theorem Settled.congr (h : Settled now c g) (hin : c'.clock.todIn = c.clock.todIn)
    (hout : c'.clock.todOut = c.clock.todOut) (htime : c'.store.pTime = c.store.pTime) :
    Settled now c' g := by
  refine ⟨hin.trans h.todIn, hout.trans h.todOut, fun p a hp => ?_⟩
  rw [htime]
  exact h.account p a hp

/-- Nothing is to be charged when `startTOD` has just been read. -/
theorem Settled.even (h : Settled now c g)
    (hstart : c.currentProcess.isSome → c.clock.startTOD = now) : Even now c g := by
  refine ⟨h.todIn, h.todOut, fun p a hp => ?_⟩
  have hzero : (if c.currentProcess = some p then now - c.clock.startTOD else 0) = 0 := by
    split
    · rename_i hcur
      rw [hstart (by simp [hcur]), sub_self]
    · rfl
  rw [Nucleus.cpuTime, hzero, add_zero]
  exact h.account p a hp

/-- Nothing is to be charged when nobody runs. -/
theorem Even.settled (h : Even now c g) (hcur : ∀ p, c.currentProcess = some p → g p = none) :
    Settled now c g := by
  refine ⟨h.todIn, h.todOut, fun p a hp => ?_⟩
  have hp' := h.account p a hp
  have hother : c.currentProcess ≠ some p := fun he => by
    rw [hcur p he] at hp
    cases hp
  rwa [Nucleus.cpuTime, if_neg hother, add_zero] at hp'

/-- A PCB is handed out. -/
theorem Even.create (h : Even now c g) (hfresh : c.currentProcess = some p → now = c.clock.startTOD)
    (hclock : c'.clock = c.clock) (hcur : c'.currentProcess = c.currentProcess)
    (htime : c'.store.pTime = Function.update c.store.pTime p 0) :
    Even now c' (Function.update g p (some ⟨m, 0⟩)) := by
  refine ⟨hclock ▸ h.todIn, hclock ▸ h.todOut, fun q a hq => ?_⟩
  rw [Nucleus.cpuTime, hclock, hcur, htime]
  by_cases hqp : q = p
  · subst hqp
    rw [Function.update_self] at hq
    obtain rfl := Option.some.inj hq
    rw [Function.update_self, zero_add]
    split
    · rename_i he
      rw [hfresh he, sub_self]
    · rfl
  · rw [Function.update_of_ne hqp] at hq
    rw [Function.update_of_ne hqp]
    exact h.account q a hq

/-- A PCB is taken back. -/
theorem Even.free (h : Even now c g) (hclock : c'.clock = c.clock)
    (hcur : c'.currentProcess = c.currentProcess)
    (htime : c'.store.pTime = Function.update c.store.pTime p 0) :
    Even now c' (Function.update g p none) := by
  refine ⟨hclock ▸ h.todIn, hclock ▸ h.todOut, fun q a hq => ?_⟩
  have hqp : q ≠ p := fun e => by
    rw [e, Function.update_self] at hq
    cases hq
  rw [Function.update_of_ne hqp] at hq
  rw [Nucleus.cpuTime, hclock, hcur, htime, Function.update_of_ne hqp]
  exact h.account q a hq

theorem Booked.other {exit : Exit} {s : Nucleus n × Ledger n}
    (h : exit ≠ .ldst ∧ exit ≠ .getNewJob) :
    Booked now exit s := ⟨fun he => absurd he h.1, fun he => absurd he h.2⟩

theorem Booked.job {s : Nucleus n × Ledger n} (h : Settled now s.1 s.2) :
    Booked now .getNewJob s := ⟨fun he => absurd he (by decide), fun _ => h⟩

theorem notes_headBackHome_of {Q : Exit → Nucleus n × Ledger n → Prop}
    (hp : c.currentProcess = some p) (hQ : Q .ldst (c, g)) :
    (headBackHome (n := n)).wp (NucOp.noted m) Q (c, g) := by
  rw [headBackHome, Prog.wp_bind, notes_globals]
  split
  · rename_i hnone
    cases hnone.symm.trans hp
  · exact hQ

theorem notes_headBackHome (h : Even now c g) :
    (headBackHome (n := n)).wp (NucOp.noted m) (Booked now) (c, g) := by
  rw [headBackHome, Prog.wp_bind, notes_globals]
  split
  · exact .other (by decide)
  · exact ⟨fun _ => h, fun he => absurd he (by decide)⟩

/-- What is still to be charged to the current process is charged. -/
theorem notes_chargeTime {Q : Unit → Nucleus n × Ledger n → Prop} (h : Even now c g)
    (hp : c.currentProcess = some p)
    (hQ : ∀ c' : Nucleus n, c'.currentProcess = some p → Settled now c' g → Q () (c', g)) :
    (chargeTime p).wp (NucOp.noted m) Q (c, g) := by
  simp only [chargeTime, Prog.wp_bind, notes_globals, notes_modifyData, notes_modifyClock]
  refine hQ _ hp ⟨h.todIn, h.todOut, fun q a hq => ?_⟩
  have hq' := h.account q a hq
  rw [Nucleus.cpuTime, hp] at hq'
  simp only [h.todIn]
  by_cases hqp : q = p
  · subst hqp
    rwa [Function.update_self, ← if_pos (c := some q = some q)
      (t := now - c.clock.startTOD) (e := 0) rfl]
  · rw [if_neg fun e => hqp (Option.some.inj e).symm, add_zero] at hq'
    rwa [Function.update_of_ne hqp]

/-- The time is charged, and then nobody runs. -/
theorem notes_blockCurrent (a : ℕ) {Q : Unit → Nucleus n × Ledger n → Prop} (h : Even now c g)
    (hp : c.currentProcess = some p) (hQ : ∀ c' : Nucleus n, Settled now c' g → Q () (c', g)) :
    (blockCurrent p a).wp (NucOp.noted m) Q (c, g) := by
  rw [blockCurrent, Prog.wp_bind]
  refine notes_chargeTime h hp fun c₁ _ h₁ => ?_
  rw [Prog.wp_bind]
  refine notes_links id fun _ st hst => ?_
  rw [notes_modifyGlobals]
  exact hQ _ (h₁.congr rfl rfl hst)

variable [Layout]

/-- The end of the kill closes the account of the process. -/
theorem notes_nukeLeaf {Q : Unit → Nucleus n × Ledger n → Prop} (h : Even now c g)
    (hQ : ∀ (c' : Nucleus n) (g' : Ledger n), Even now c' g' →
      c'.currentProcess = c.currentProcess →
      g' p = none → Q () (c', g')) : (nukeLeaf p).wp (NucOp.noted m) Q (c, g) := by
  -- out of the tree, the ready queue or the ASL, and then free
  have hfree : ∀ c₁ : Nucleus n, Even now c₁ g → c₁.currentProcess = c.currentProcess →
      (do
        store (.freePcb p)
        modifyGlobals fun g => { g with processCount := g.processCount - 1 } : NucM n Unit).wp
          (NucOp.noted m) Q (c₁, g) := by
    intro c₁ h₁ hcur
    rw [Prog.wp_bind]
    refine notes_freePcb fun st hst => ?_
    rw [notes_modifyGlobals]
    exact hQ _ _ (h₁.free rfl rfl hst) hcur (Function.update_self ..)
  rw [nukeLeaf, Prog.wp_bind, nukeDetach, Prog.wp_bind, notes_globals, Prog.wp_ite]
  split
  · rw [Prog.wp_bind]
    refine notes_links id fun _ st hst => ?_
    exact hfree _ (h.congr rfl rfl hst) rfl
  · rw [Prog.wp_bind]
    refine notes_links id fun a st hst => ?_
    have h₁ : Even now { c with store := st } g := h.congr rfl rfl hst
    rw [Prog.wp_ite]
    split
    · rw [Prog.wp_bind]
      refine notes_links id fun _ st hst => ?_
      exact hfree _ (h₁.congr rfl rfl hst) rfl
    · rw [Prog.wp_bind]
      refine notes_links id fun _ st hst => ?_
      have h₂ : Even now { c with store := st } g := h₁.congr rfl rfl hst
      rw [Prog.wp_bind]
      refine notes_links id fun semAdd st hst => ?_
      have h₃ : Even now { c with store := st } g := h₂.congr rfl rfl hst
      rw [Prog.wp_ite]
      split
      · rw [notes_modifyGlobals]
        exact hfree _ (h₃.congr rfl rfl rfl) rfl
      · rw [notes_addMem]
        exact hfree _ (h₃.congr rfl rfl rfl) rfl

/-- The kill closes the account of its root. -/
theorem notes_nuke {fuel : ℕ} {Q : Unit → Nucleus n × Ledger n → Prop} (h : Even now c g)
    (hQ : ∀ (c' : Nucleus n) (g' : Ledger n), Even now c' g' →
      c'.currentProcess = c.currentProcess →
      g' p = none → Q () (c', g')) :
    (nukeItTilItPukes fuel p).wp (NucOp.noted m) Q (c, g) := by
  induction fuel generalizing c g p Q with
  | zero =>
    intro b s' hrun
    cases hrun
  | succ fuel ih =>
    rw [nukeItTilItPukes, Prog.wp_bind]
    refine notes_links id fun b st hst => ?_
    have h₁ : Even now { c with store := st } g := h.congr rfl rfl hst
    rw [Prog.wp_ite]
    split
    · exact notes_nukeLeaf h₁ hQ
    · rw [Prog.wp_bind]
      refine notes_links id fun b st hst => ?_
      have h₂ : Even now { c with store := st } g := h₁.congr rfl rfl hst
      split
      · intro b s' hrun
        cases hrun
      · rw [Prog.wp_bind]
        refine ih h₂ fun c₃ g₃ h₃ hcur₃ _ => ih h₃ fun c₄ g₄ h₄ hcur₄ hnone => ?_
        exact hQ c₄ g₄ h₄ (hcur₄.trans hcur₃) hnone

/-- A kill of the current process leaves nothing to be charged. -/
theorem notes_nuke_current {fuel : ℕ} {Q : Unit → Nucleus n × Ledger n → Prop} (h : Even now c g)
    (hp : c.currentProcess = some p)
    (hQ : ∀ (c' : Nucleus n) (g' : Ledger n), Settled now c' g' → Q () (c', g')) :
    (nukeItTilItPukes fuel p).wp (NucOp.noted m) Q (c, g) := by
  refine notes_nuke h fun c' g' h' hcur hnone => hQ c' g' (h'.settled fun q hq => ?_)
  obtain rfl : p = q := Option.some.inj (hp.symm.trans (hcur.symm.trans hq))
  exact hnone

/-! ### System calls and traps -/

theorem notes_passUpOrDie (type : TrapType) (h : Even now c g) :
    (passUpOrDie (n := n) type).wp (NucOp.noted m) (Booked now) (c, g) := by
  rw [passUpOrDie, Prog.wp_bind, notes_globals]
  split
  · exact .other (by decide)
  · rename_i p hp
    rw [Prog.wp_bind, notes_data, Prog.wp_ite]
    split
    · simp only [Prog.wp_bind, notes_modifyGlobals, notes_globals, notes_setState]
      exact notes_headBackHome (h.congr rfl rfl rfl)
    · rw [Prog.wp_bind]
      exact notes_nuke_current h hp fun c' g' h' => .job h'

theorem notes_sysFiveFrom (types : List TrapType) (h : Even now c g)
    (hp : c.currentProcess = some p) :
    (sysFiveFrom p types).wp (NucOp.noted m) (Booked now) (c, g) := by
  induction types with
  | nil =>
    rw [sysFiveFrom, Prog.wp_bind]
    exact notes_nuke_current h hp fun c' g' h' => .job h'
  | cons type types ih =>
    rw [sysFiveFrom, Prog.wp_bind, notes_data, Prog.wp_ite]
    split
    · simp only [Prog.wp_bind, notes_globals, notes_modifyData]
      exact notes_headBackHome (h.congr rfl rfl rfl)
    · exact ih

omit [Layout] in
theorem notes_createProcess (h : Even now c g)
    (hfresh : c.store.nextFree = c.currentProcess → now = c.clock.startTOD) :
    (createProcess p).wp (NucOp.noted m) (Booked now) (c, g) := by
  rw [createProcess, Prog.wp_bind]
  refine notes_allocPcb (fun st _ hst => ?_) fun q st hq hst => ?_
  · simp only [Prog.wp_bind, notes_modifyGlobals]
    exact notes_headBackHome (h.congr rfl rfl hst)
  · simp only [Prog.wp_bind, notes_modifyGlobals, notes_globals, notes_setState]
    refine notes_links id fun _ st₁ hst₁ => ?_
    refine notes_links id fun _ st₂ hst₂ => ?_
    refine notes_headBackHome (h.create (fun hcur => hfresh (hq.trans hcur.symm)) rfl rfl ?_)
    exact hst₂.trans (hst₁.trans hst)

/-- The system calls keep the books. -/
theorem notes_serve (call : Option SysCall) (h : Even now c g)
    (hp : c.currentProcess = some p)
    (hfresh : call = some .createProcess → c.store.nextFree = c.currentProcess →
      now = c.clock.startTOD) :
    (serve p call).wp (NucOp.noted m) (Booked now) (c, g) := by
  rcases call with _ | call
  · exact notes_passUpOrDie .sysTrap h
  cases call with
  | createProcess => exact notes_createProcess h (hfresh rfl)
  | terminateProcess =>
    rw [serve, terminateProcess, Prog.wp_bind]
    refine notes_nuke_current h hp fun c' g' h' => ?_
    rw [Prog.wp_bind, notes_modifyGlobals]
    exact .job (h'.congr rfl rfl rfl)
  | verhogen =>
    simp only [serve, verhogen, Prog.wp_bind, notes_globals, Prog.wp_ite, notes_addMem]
    split
    · exact .other (by decide)
    · have h₁ : ∀ a v, Even now { c with toGlobals := c.toGlobals.setMem a v } g := fun a v =>
        h.congr rfl rfl rfl
      split
      · refine notes_links id fun b st hst => ?_
        split
        · exact .other (by decide)
        · rw [Prog.wp_bind]
          refine notes_links id fun _ st₁ hst₁ => ?_
          rw [Prog.wp_bind]
          refine notes_links id fun _ st₂ hst₂ => ?_
          exact notes_headBackHome
            ((h₁ _ _).congr rfl rfl (hst₂.trans (hst₁.trans hst)))
      · exact notes_headBackHome (h₁ _ _)
  | passeren =>
    simp only [serve, passeren, Prog.wp_bind, notes_globals, Prog.wp_ite, notes_addMem]
    split
    · exact .other (by decide)
    · split
      · exact notes_blockCurrent _ (h.congr rfl rfl rfl) hp fun c' h' => .job h'
      · exact notes_headBackHome (h.congr rfl rfl rfl)
  | sesv =>
    rw [serve, Prog.wp_bind, notes_globals]
    exact notes_sysFiveFrom _ h hp
  | getCpuTime =>
    rw [serve, getCpuTime, Prog.wp_bind]
    refine notes_chargeTime h hp fun c₁ _ h₁ => ?_
    simp only [Prog.wp_bind, notes_data, notes_setReturn, notes_modifyClock]
    refine notes_headBackHome (Settled.even ?_ fun _ => ?_)
    · exact h₁.congr rfl rfl rfl
    · exact h₁.todOut
  | waitForClock =>
    simp only [serve, waitForClock, Prog.wp_bind, notes_globals, Prog.wp_ite, notes_addMem]
    split
    · refine notes_blockCurrent _ (h.congr rfl rfl rfl) hp fun c' h' => ?_
      rw [Prog.wp_bind, notes_modifyGlobals]
      exact .job (h'.congr rfl rfl rfl)
    · exact .other (by decide)
  | waitForIo =>
    simp only [serve, waitForIo, Prog.wp_bind, notes_globals, Prog.wp_ite, notes_addMem]
    split
    · exact .other (by decide)
    · split
      · refine notes_blockCurrent _ (h.congr rfl rfl rfl) hp fun c' h' => ?_
        rw [Prog.wp_bind, notes_modifyGlobals]
        exact .job (h'.congr rfl rfl rfl)
      · rw [notes_setReturn]
        exact notes_headBackHome (h.congr rfl rfl rfl)

/-- `sysCallHandler` keeps the books. -/
theorem notes_sysCallHandler {old : State} (h : Even now c g) (hold : c.sysCallOld = old)
    (hfresh : (Trap.sysCall old).request.IsCreate → c.store.nextFree = c.currentProcess →
      now = c.clock.startTOD) :
    (sysCallHandler (n := n)).wp (NucOp.noted m) (Booked now) (c, g) := by
  simp only [sysCallHandler, Prog.wp_bind, notes_globals, notes_modifyGlobals, hold]
  split
  · exact .other (by decide)
  · rename_i p hp
    have hcpsr : (old.setReg sPc (old.sReg sPc + 8)).sReg sCpsr = old.sReg sCpsr :=
      old.afterCall_sReg (by decide)
    simp only [Prog.wp_bind, notes_setState, hcpsr]
    by_cases hsys : old.sReg sCpsr &&& systemMode = systemMode
    · rw [if_pos hsys]
      refine notes_serve _ (h.congr rfl rfl rfl) hp fun hcall hnext => hfresh ?_ hnext
      simp only [Trap.request, if_pos hsys, hcall]
      trivial
    · rw [if_neg hsys, Prog.wp_ite]
      split
      · rw [Prog.wp_bind, notes_modifyGlobals]
        exact notes_passUpOrDie .progTrap (h.congr rfl rfl rfl)
      · exact notes_passUpOrDie .sysTrap (h.congr rfl rfl rfl)

/-! ### Interrupts -/

omit [Layout] in
theorem notes_returnFromInterrupt (h : Settled now c g) :
    (returnFromInterrupt (n := n)).wp (NucOp.noted m) (Booked now) (c, g) := by
  rw [returnFromInterrupt, Prog.wp_bind, notes_globals]
  split
  · rw [Prog.wp_bind, notes_modifyClock]
    refine ⟨fun _ => Settled.even ?_ fun _ => ?_, fun he => absurd he (by decide)⟩
    · exact h.congr rfl rfl rfl
    · exact h.todOut
  · exact .job h

theorem notes_tickLoop {fuel : ℕ} {Q : Unit → Nucleus n × Ledger n → Prop} (h : Settled now c g)
    (hQ : ∀ c' : Nucleus n, Settled now c' g → Q () (c', g)) :
    (tickLoop (n := n) fuel).wp (NucOp.noted m) Q (c, g) := by
  induction fuel generalizing c with
  | zero =>
    intro b s' hrun
    cases hrun
  | succ fuel ih =>
    rw [tickLoop, Prog.wp_bind]
    refine notes_links id fun b st hst => ?_
    have h₁ : Settled now { c with store := st } g := h.congr rfl rfl hst
    split
    · exact hQ _ h₁
    · rw [Prog.wp_bind]
      refine notes_links id fun _ st hst => ?_
      rw [Prog.wp_bind, notes_modifyGlobals, Prog.wp_bind]
      have h₂ : Settled now { c with store := st } g := h₁.congr rfl rfl hst
      refine notes_links id fun _ st hst => ih ?_
      exact h₂.congr rfl rfl hst

theorem notes_timerInterrupt (h : Settled now c g) :
    (timerInterrupt (n := n)).wp (NucOp.noted m) (Booked now) (c, g) := by
  rw [timerInterrupt, Prog.wp_bind, notes_globals, Prog.wp_ite]
  split
  · rw [Prog.wp_bind]
    refine notes_tickLoop h fun c' h' => ?_
    simp only [Prog.wp_bind, notes_modifyGlobals, notes_setTIMER, notes_modifyClock]
    exact notes_returnFromInterrupt (h'.congr rfl rfl rfl)
  · rw [Prog.wp_bind, notes_globals]
    split
    · simp only [Prog.wp_bind]
      refine notes_links id fun _ st hst => ?_
      simp only [Prog.wp_bind, notes_modifyGlobals, notes_setTIMER, Prog.wp_pure]
      exact .job (h.congr rfl rfl hst)
    · simp only [Prog.wp_bind, Prog.wp_pure, notes_setTIMER]
      exact .job (h.congr rfl rfl rfl)

omit [Layout] in
/-- A process that waited for a device is woken. -/
theorem notes_wakeIo (status : Word) {Q : Unit → Nucleus n × Ledger n → Prop} (h : Settled now c g)
    (hQ : ∀ c' : Nucleus n, Settled now c' g → Q () (c', g)) :
    (wakeIo p status).wp (NucOp.noted m) Q (c, g) := by
  rw [wakeIo, Prog.wp_bind]
  refine notes_links id fun _ st hst => ?_
  simp only [Prog.wp_bind, notes_setReturn, notes_modifyGlobals]
  have h₁ : Settled now { c with store := st } g := h.congr rfl rfl hst
  refine notes_links id fun _ st hst => hQ _ ?_
  exact h₁.congr rfl rfl hst

theorem notes_handleTerminal (devNumber : ℕ) (h : Settled now c g) :
    (handleTerminal (n := n) devNumber).wp (NucOp.noted m) (Booked now) (c, g) := by
  simp only [handleTerminal, Prog.wp_bind, notes_globals, Prog.wp_ite, notes_addMem]
  generalize decide ((c.devReg (4 * devPerInt + devNumber)).dData0 &&& 0x0F = ready) = receive
  generalize (if receive then 4 * devPerInt + devNumber
    else 4 * devPerInt + devNumber + devPerInt) = semAdd
  split
  · exact .other (by decide)
  · split
    · refine notes_links id fun b st hst => ?_
      have h₁ : ∀ mem, Settled now { c with mem := mem, store := st } g := fun _ =>
        h.congr rfl rfl hst
      split
      · rw [Prog.wp_bind]
        refine notes_wakeIo _ (h₁ _) fun c' h' => ?_
        simp only [modifyDev, Prog.wp_bind, notes_modifyGlobals]
        exact notes_returnFromInterrupt (h'.congr rfl rfl rfl)
      · exact notes_returnFromInterrupt (h₁ _)
    · exact notes_returnFromInterrupt (h.congr rfl rfl rfl)

theorem notes_deviceInterrupt (lineNum devNum : ℕ) (h : Settled now c g) :
    (deviceInterrupt (n := n) lineNum devNum).wp (NucOp.noted m) (Booked now) (c, g) := by
  simp only [deviceInterrupt, Prog.wp_bind, notes_globals, Prog.wp_ite, notes_addMem]
  split
  · exact .other (by decide)
  · split
    · refine notes_links id fun b st hst => ?_
      have h₁ : ∀ mem, Settled now { c with mem := mem, store := st } g := fun _ =>
        h.congr rfl rfl hst
      split
      · rw [Prog.wp_bind]
        refine notes_wakeIo _ (h₁ _) fun c' h' => ?_
        simp only [modifyDev, Prog.wp_bind, notes_modifyGlobals]
        exact notes_returnFromInterrupt (h'.congr rfl rfl rfl)
      · simp only [modifyDev, Prog.wp_bind, notes_modifyGlobals]
        exact notes_returnFromInterrupt (h.congr rfl rfl hst)
    · simp only [modifyDev, notes_modifyGlobals]
      exact notes_returnFromInterrupt (h.congr rfl rfl rfl)

/-- The branches of `interruptHandler` keep the books. -/
theorem notes_interruptBranch (old : State) (bitmap : ℕ → Word) (h : Settled now c g) :
    (interruptBranch (n := n) old bitmap).wp (NucOp.noted m) (Booked now)
      (c, g) := by
  rw [interruptBranch]
  split
  · exact notes_timerInterrupt h
  · split
    · exact .other (by decide)
    · rw [Prog.wp_ite]
      split
      · exact notes_handleTerminal _ h
      · exact notes_deviceInterrupt _ _ h

/-- `interruptHandler` keeps the books. -/
theorem notes_interruptHandler (h : Even now c g) :
    (interruptHandler (n := n)).wp (NucOp.noted m) (Booked now) (c, g) := by
  simp only [interruptHandler, Prog.wp_bind, notes_globals, notes_modifyGlobals]
  split
  · rename_i p hp
    rw [Prog.wp_bind]
    refine notes_chargeTime (h.congr rfl rfl rfl) hp fun c₁ _ h₁ => ?_
    simp only [Prog.wp_bind, notes_setState]
    exact notes_interruptBranch _ _ (h₁.congr rfl rfl rfl)
  · rename_i hnone
    refine notes_interruptBranch _ _ (Settled.congr (h.settled fun p hp => ?_) rfl rfl rfl)
    cases hnone.symm.trans hp

/-! ### The scheduler -/

omit [Layout] in
/-- `processJob` starts a process with nothing to be charged. -/
theorem notes_processJob (h : Settled now c g) :
    (processJob p).wp (NucOp.noted m) (fun _ s => Even now s.1 s.2) (c, g) := by
  rw [processJob, Prog.wp_bind, notes_modifyGlobals, Prog.wp_bind, notes_modifyClock, Prog.wp_bind,
    notes_modifyClock, Prog.wp_bind, notes_globals]
  -- the clock before the timer is loaded
  generalize hc₁ : ({ c with toGlobals := _ } : Nucleus n) = c₁
  have hclock : c₁.clock = { c.clock.restart with timeLeft := c₁.clock.timeLeft } := by
    rw [← hc₁]
    change (if c.clock.timeLeft < 0 then { c.clock.restart with timeLeft := 0 }
      else c.clock.restart) =
      { c.clock.restart with timeLeft := (if c.clock.timeLeft < 0 then
        { c.clock.restart with timeLeft := 0 } else c.clock.restart).timeLeft }
    split <;> rfl
  have h₁ : Settled now c₁ g := by
    refine h.congr ?_ ?_ (by rw [← hc₁])
    · rw [hclock]
      rfl
    · rw [hclock]
      rfl
  have hstart : c₁.clock.startTOD = now := by
    rw [hclock]
    exact h.todOut
  simp only [Prog.wp_ite, Prog.wp_bind, notes_setTIMER, notes_modifyClock, Prog.wp_pure]
  split
  · exact Settled.even ⟨h₁.todIn, h₁.todOut, h₁.account⟩ fun _ => hstart
  · exact Settled.even ⟨h₁.todIn, h₁.todOut, h₁.account⟩ fun _ => hstart

omit [Layout] in
/-- `getNewJob` starts a process with nothing to be charged. -/
theorem notes_getNewJob (h : Settled now c g) :
    (Jaeos.getNewJob (n := n)).wp (NucOp.noted m) (fun _ s => Even now s.1 s.2) (c, g) := by
  rw [getNewJob, Prog.wp_bind]
  refine notes_links id fun b st hst => ?_
  have h₁ : Settled now { c with store := st } g := h.congr rfl rfl hst
  split
  · have hidle : ∀ c' : Nucleus n, c'.currentProcess = none → c'.clock.todIn = c.clock.todIn →
        c'.clock.todOut = c.clock.todOut → c'.store = st → Even now c' g :=
      fun c' hcur hin hout hst' => (h₁.congr hin hout (by rw [hst'])).even fun hsome => by
        rw [hcur] at hsome
        cases hsome
    simp only [Prog.wp_bind, notes_modifyGlobals, notes_globals, Prog.wp_ite, notes_setTIMER,
      notes_modifyClock, Prog.wp_pure]
    split
    · exact hidle _ rfl rfl rfl rfl
    · split
      · split
        · exact hidle _ rfl rfl rfl rfl
        · split
          · exact hidle _ rfl rfl rfl rfl
          · exact hidle _ rfl rfl rfl rfl
      · exact hidle _ rfl rfl rfl rfl
  · exact notes_processJob h₁

omit [Layout] in
/-- What follows a handler keeps the books. -/
theorem notes_finish {exit : Exit} (h : Booked now exit (c, g)) :
    exit.finish.wp (NucOp.noted m) (fun mode s => mode.Live → Even now s.1 s.2) (c, g) := by
  cases exit with
  | ldst => exact fun _ => h.1 rfl
  | getNewJob =>
    rw [Exit.finish, Prog.wp_map]
    refine Prog.wp_mono (fun o Q Q' s hQ ho b s' hrun => hQ b _ (ho b s' hrun)) ?_
      (notes_getNewJob (h.2 rfl))
    exact fun _ _ heven _ => heven
  | panic | undefined => exact fun hlive => by simp [Mode.Live] at hlive

/-- A handler and what follows it keep the books. -/
theorem notes_react (t : Trap)
    (h : Even now { c with toGlobals := { c.toGlobals with clock := c.clock.enter now now } } g)
    (hfresh : t.request.IsCreate → c.store.nextFree = c.currentProcess → now = c.clock.startTOD) :
    (t.react now now).wp (NucOp.noted m) (fun r s => r.2.Live → Even now s.1 s.2) (c, g) := by
  rw [Trap.react, Prog.wp_bind]
  refine Prog.wp_mono (fun o Q Q' s hQ ho b s' hrun => hQ b _ (ho b s' hrun)) (Q := Booked now)
    (fun exit s hs => ?_) ?_
  · rw [Prog.wp_bind]
    exact notes_finish hs
  · simp only [Trap.handle, Prog.wp_bind, notes_modifyGlobals, notes_modifyClock]
    cases t with
    | sysCall old =>
      exact notes_sysCallHandler (h.congr rfl rfl rfl) rfl hfresh
    | progTrap old => exact notes_passUpOrDie .progTrap (h.congr rfl rfl rfl)
    | tlbTrap old => exact notes_passUpOrDie .tlbTrap (h.congr rfl rfl rfl)
    | interrupt old bitmap devReg => exact notes_interruptHandler (h.congr rfl rfl rfl)

/-- SYS1 takes the PCB of its caller: the account is new, and the time since `startTOD` is not. -/
theorem notes_react_own {t : Trap} {todIn todOut : ℤ} (ht : t.request.IsCreate)
    (hp : c.currentProcess = some p) (hnext : c.store.nextFree = some p) :
    (t.react todIn todOut).wp (NucOp.noted m) (fun _ s => s.1.cpuTime todOut p =
      todOut - c.clock.startTOD ∧ s.1.clock.todOut = todOut ∧ s.1.currentProcess = some p ∧
        s.2 p = some ⟨m, 0⟩) (c, g) := by
  obtain ⟨old, rfl, hsys, hcall⟩ := Trap.isCreate_cases ht
  have hcpsr := afterCall_system hsys
  simp only [Trap.react, Trap.handle, Trap.handler, Trap.enter, sysCallHandler, Prog.wp_bind,
    notes_modifyGlobals, notes_modifyClock, notes_globals, hp, notes_setState, if_pos hcpsr, hcall,
    serve, createProcess]
  refine notes_allocPcb (fun st hnone _ => ?_) fun q st hq hst => ?_
  · cases hnone.symm.trans hnext
  · obtain rfl : q = p := Option.some.inj (hq.symm.trans hnext)
    simp only [Prog.wp_bind, notes_modifyGlobals, notes_globals, notes_setState]
    refine notes_links id fun _ st₁ hst₁ => ?_
    refine notes_links id fun _ st₂ hst₂ => ?_
    have htime : st₂.pTime q = 0 := by
      rw [hst₂, hst₁]
      change st.pTime q = 0
      rw [hst]
      exact Function.update_self ..
    refine notes_headBackHome_of rfl ⟨?_, rfl, rfl, Function.update_self ..⟩
    rw [Nucleus.cpuTime, htime, if_pos rfl, zero_add]

end

/-! ## Every run -/

theorem Ledger.spend_eq_some {g : Ledger n} {cur : Option (Fin n)} {d : ℤ} {p : Fin n}
    {a : Account} :
    g.spend cur d p = some a ↔
      ∃ a₀, g p = some a₀ ∧ a = ⟨a₀.born, a₀.used + if cur = some p then d else 0⟩ := by
  rw [Ledger.spend]
  split
  · rw [Option.map_eq_some_iff]
    exact ⟨fun ⟨a₀, hp, he⟩ => ⟨a₀, hp, he.symm⟩, fun ⟨a₀, hp, he⟩ => ⟨a₀, hp, he.symm⟩⟩
  · simp

section

variable [Layout] {c c' : Config n} {g : Ledger n} {e : Event} {m : ℕ}

omit [Layout] in
/-- Time passes for the nucleus and the ledger alike. -/
theorem Config.conserves_iff : c.Conserves g ↔
    ∀ p a, g p = some a → c.nuc.cpuTime c.nuc.clock.todOut p = a.used := by
  constructor
  · intro h p a hp
    refine h _ p a (Ledger.spend_eq_some.mpr ⟨a, hp, ?_⟩)
    simp
  · intro h now p a hp
    obtain ⟨a₀, hp₀, rfl⟩ := Ledger.spend_eq_some.mp hp
    have hused := h p a₀ hp₀
    rw [Nucleus.cpuTime] at hused
    change c.nuc.store.pTime p + _ = a₀.used + _
    split at hused
    · rename_i hcur
      rw [if_pos hcur, if_pos hcur]
      omega
    · rename_i hcur
      rw [if_neg hcur, if_neg hcur]
      omega

/-- An event keeps the ledger right, if no process takes its own PCB. -/
theorem Config.Conserves.step (h : c.Conserves g) (hinstant : e.Instant) (hfresh : c.Fresh e)
    (hstep : c.step e = some c') (hlive : c'.mode.Live) : c'.Conserves (c.ledgerAfter m g e) := by
  cases e with
  | write a v =>
    obtain rfl := Config.step_write hstep
    exact h
  | trap t todIn todOut =>
    obtain rfl : todIn = todOut := hinstant
    obtain ⟨exit, hreact⟩ := Config.step_react hstep
    have hentry : Even todIn { c.nuc with toGlobals :=
        { c.nuc.toGlobals with clock := c.nuc.clock.enter todIn todIn } }
        (g.spend c.nuc.currentProcess (todIn - c.nuc.clock.todOut)) := ⟨rfl, rfl, h todIn⟩
    have heven := Prog.of_watched (notes_react (m := m) t hentry hfresh) hreact hlive
    rw [Config.conserves_iff, heven.todOut]
    exact heven.account

/-- The ledger is wrong after a process has been created in the PCB of its creator. -/
theorem Config.Poised.not_conserves_step (hpoised : c.Poised) (hinstant : e.Instant)
    (hfresh : ¬ c.Fresh e) (hstep : c.step e = some c') : ¬ c'.Conserves (c.ledgerAfter m g e) := by
  cases e with
  | write a v => exact absurd trivial hfresh
  | trap t todIn todOut =>
    obtain rfl : todIn = todOut := hinstant
    simp only [Config.Fresh, Classical.not_imp] at hfresh
    obtain ⟨hcreate, hnext, hstart⟩ := hfresh
    have hrunning : c.mode = .running := by
      obtain ⟨old, rfl, -⟩ := Trap.isCreate_cases hcreate
      rw [Config.step] at hstep
      split at hstep
      · assumption
      · cases hstep
    obtain ⟨p, hp⟩ := Option.isSome_iff_exists.mp (hpoised.running hrunning).1
    obtain ⟨exit, hreact⟩ := Config.step_react hstep
    obtain ⟨htime, hout, hcur, hnew⟩ := Prog.of_watched
      (notes_react_own (m := m)
        (g := g.spend c.nuc.currentProcess (todIn - c.nuc.clock.todOut)) hcreate
        hp (hnext.trans hp)) hreact
    intro h
    have hused := Config.conserves_iff.mp h p ⟨m, 0⟩ hnew
    rw [hout, htime] at hused
    exact hstart (by simpa [sub_eq_zero] using hused)

end

section

variable [Layout] {b : Boot n}

/-- `main` opens the account of the first process. -/
theorem notes_main {c : Nucleus n} (htod : c.clock.todIn = c.clock.todOut) :
    b.main.wp (NucOp.noted 0) (fun mode s => mode.Live → Even c.clock.todOut s.1 s.2)
      (c, fun _ => none) := by
  rw [Boot.main, Prog.wp_bind]
  refine Prog.wp_mono (fun o Q Q' s hQ ho b s' hrun => hQ b _ (ho b s' hrun))
    (Q := Booked c.clock.todOut) (fun exit s hs => notes_finish hs) ?_
  simp only [Boot.prepare, Prog.wp_bind, notes_modifyGlobals, notes_modifyClock]
  refine notes_allocPcb (fun st _ _ => .other (by decide)) fun p st _ hst => ?_
  simp only [Prog.wp_bind, notes_setState, notes_modifyClock, notes_globals, notes_setTIMER,
    notes_modifyGlobals]
  refine notes_links id fun _ st₁ hst₁ => .job ⟨htod, rfl, fun q a hq => ?_⟩
  -- there is only one account
  have hq : Function.update (fun _ => none) p (some (⟨0, 0⟩ : Account)) q = some a := hq
  have hqp : q = p := by
    by_contra hne
    rw [Function.update_of_ne hne] at hq
    cases hq
  subst hqp
  rw [Function.update_self] at hq
  obtain rfl := Option.some.inj hq
  change st₁.pTime q = 0
  rw [hst₁]
  change st.pTime q = 0
  rw [hst]
  exact Function.update_self ..

/-- The ledger is right when `main` has called the scheduler. -/
theorem Boot.conserves {c : Config n} (hb : b.config = some c)
    (htod : b.vars.clock.todIn = b.vars.clock.todOut) (hlive : c.mode.Live) :
    c.Conserves (ledgerOf b []) := by
  obtain ⟨⟨u, st⟩, hinit, hrest⟩ := Option.bind_eq_some_iff.mp hb
  obtain ⟨⟨mode, nuc'⟩, hmain, hc⟩ := Option.bind_eq_some_iff.mp hrest
  obtain rfl := Option.some.inj hc
  have heven := Prog.of_watched (notes_main htod) hmain hlive
  rw [ledgerOf, Boot.ledger, hinit, Config.conserves_iff]
  change ∀ p (a : Account), _ → nuc'.cpuTime nuc'.clock.todOut p = a.used
  rw [heven.todOut]
  exact heven.account

end

section

variable [Layout] {b : Boot n} {tr : List (Config n × Event)} {c c' : Config n} {e : Event}

/-- The ledger is right after a run in which no process takes its own PCB. -/
theorem Config.conserves_of_run (hboot : b.vars.clock.todIn = b.vars.clock.todOut)
    (hrun : b.RunsTo tr c) (hinstant : ∀ x ∈ tr, x.2.Instant) (hfresh : ∀ x ∈ tr, x.1.Fresh x.2)
    (hlive : c.mode.Live) : c.Conserves (ledgerOf b tr) := by
  induction hrun with
  | start hb => exact Boot.conserves hb hboot hlive
  | @next tr c c' e hrun hstep ih =>
    obtain ⟨hinstant, hinstant'⟩ := List.forall_mem_cons.mp hinstant
    obtain ⟨hfresh, hfresh'⟩ := List.forall_mem_cons.mp hfresh
    exact (ih hinstant' hfresh' (Config.step_live hstep)).step hinstant hfresh hstep hlive

/-- The machine is poised after each run. -/
theorem Config.poised_of_run (hboot : b.vars.clock.todIn ≤ b.vars.clock.todOut)
    (hrun : b.RunsTo tr c) (honward : ∀ x ∈ tr, x.1.Onward x.2)
    (hlive : c.mode.Live) : c.Poised := by
  refine hrun.invariant (I := fun c => c.mode.Live → c.Poised) (G := Config.Onward) ?_ ?_
    honward hlive
  · intro c hb hlive
    obtain ⟨-, -, -, hpoised⟩ := Boot.poised hb hboot hlive
    exact hpoised
  · intro c e c' hc honward hstep hlive
    exact (hc (Config.step_live hstep)).step honward hstep hlive

/-! ### Two calls of SYS6 -/

/-- `p` calls SYS6 at the time of day `tod`, and gets the result `r`. -/
def Config.ReadsTime (c : Config n) (e : Event) (p : Fin n) (tod r : ℤ) : Prop :=
  ∃ t, e = .trap t tod tod ∧ t.request = .getCpuTime ∧ c.nuc.currentProcess = some p ∧
    ∃ c', c.step e = some c' ∧ r = ((c'.nuc.store.pS p).sReg sA1).toInt

/-- The total is an `int`. -/
def InInt (u : ℤ) : Prop := -2 ^ 31 ≤ u ∧ u < 2 ^ 31

instance (u : ℤ) : Decidable (InInt u) := inferInstanceAs (Decidable (_ ∧ _))

/-- What SYS6 does. -/
theorem does_handle_getCpuTime {c : Nucleus n} {p : Fin n} {t : Trap} {todIn todOut : ℤ}
    (ht : t.request = .getCpuTime) (hp : c.currentProcess = some p) :
    (t.handle todIn todOut).wp NucOp.does
    (fun exit c' => exit = .ldst ∧ c'.currentProcess = some p ∧
      (c'.store.pS p).sReg sA1 = BitVec.ofInt 32 (c'.store.pTime p) ∧
        c'.clock.startTOD = todOut ∧ c'.clock.todOut = todOut) c := by
  obtain ⟨old, rfl, hsys, hcall⟩ := Trap.getCpuTime_cases ht
  have hcpsr := afterCall_system hsys
  simp only [Trap.handle, Trap.handler, Trap.enter, sysCallHandler, Prog.wp_bind,
    does_modifyGlobals,
    does_modifyClock, does_globals, hp, does_setState, if_pos hcpsr, hcall, serve, getCpuTime,
    chargeTime, does_modifyData, does_data, does_setReturn]
  rw [headBackHome, Prog.wp_bind, does_globals]
  exact ⟨rfl, rfl, by simp, rfl, rfl⟩

/-- The result of SYS6 is the total of the ledger. -/
theorem Config.ReadsTime.result {g : Ledger n} {p : Fin n} {tod r : ℤ} {a : Account}
    (h : c.ReadsTime e p tod r) (hstep : c.step e = some c') (hc' : c'.mode.Live → c'.Conserves g)
    (hp : g p = some a) (hint : InInt a.used) :
    r = a.used ∧ c'.mode.Live ∧ c'.nuc.clock.todOut = tod := by
  obtain ⟨t, rfl, ht, hcur, c₁, hstep₁, rfl⟩ := h
  obtain rfl : c' = c₁ := Option.some.inj (hstep.symm.trans hstep₁)
  obtain ⟨exit, hreact⟩ := Config.step_react hstep
  obtain ⟨nuc, hhandle, hended⟩ := Config.react_ended hreact
  obtain ⟨rfl, hcur', hreg, hstart, hout⟩ :=
    Prog.of_liberal (does_handle_getCpuTime ht hcur) hhandle
  obtain ⟨hmode, rfl⟩ := hended
  have hlive : c'.mode.Live := .inl hmode
  have hused := Config.conserves_iff.mp (hc' hlive) p a hp
  rw [Nucleus.cpuTime, if_pos hcur', hstart, hout, sub_self, add_zero] at hused
  refine ⟨?_, hlive, hout⟩
  rw [hreg, hused]
  exact BitVec.toInt_ofInt_eq_self (by decide) hint.1 hint.2

omit [Layout] in
/-- The observer only opens accounts that are born now. -/
theorem NucOp.note_old {m : ℕ} {β : Type} {o : NucOp n β} {r : β} {g : Ledger n} {p : Fin n}
    {a : Account} (h : NucOp.note m β o r g p = some a) (hborn : a.born ≠ m) : g p = some a := by
  have hupdate : ∀ {q : Fin n} {v : Option Account}, Function.update g q v p = some a → v ≠ some a →
      g p = some a := by
    intro q v hq hv
    by_cases hpq : p = q
    · subst hpq
      rw [Function.update_self] at hq
      exact absurd hq hv
    · rwa [Function.update_of_ne hpq] at hq
  have hnew : (some ⟨m, 0⟩ : Option Account) ≠ some a := fun he =>
    hborn (by rw [← Option.some.inj he])
  cases o with
  | globals | modify f | stuck => exact h
  | store o =>
    cases o with
    | allocPcb =>
      cases r with
      | none => exact h
      | some q => exact hupdate h hnew
    | freePcb q => exact hupdate h (by simp)
    | data | modifyData f | semAdd q | clearSemAdd q | emptyChild q | insertChild q q'
      | removeChild q
    | outChild q | insertReady q | removeReady | outReady q | insertBlocked a q | removeBlocked a
    | outBlocked q => exact h

/-- The time of day at which a handler has left the nucleus. -/
theorem Config.step_todOut {t : Trap} {todIn todOut : ℤ}
    (hstep : c.step (.trap t todIn todOut) = some c')
    (hlive : c'.mode.Live) : c'.nuc.clock.todOut = todOut := by
  obtain ⟨exit, nuc, -, hended, hexit, htally, -⟩ := Config.step_tally hstep hlive
  have hout : nuc.clock.todOut = todOut := (htally.tod hexit).2
  rcases hexit with rfl | rfl
  · rw [hended.2]
    exact hout
  · rcases hended.load hlive with ⟨-, hclock, -⟩ | ⟨-, hclock, -⟩
    · rw [hclock, (Clock.dispatch_startTOD _).2]
      exact hout
    · rw [hclock]
      exact hout

/-- An account grows by no more than the time that passes. -/
theorem Config.ledgerAfter_old {g : Ledger n} {m : ℕ} {p : Fin n} {a : Account}
    (hstep : c.step e = some c') (hlive : c'.mode.Live) (honward : c.Onward e)
    (hinstant : e.Instant)
    (h : c.ledgerAfter m g e p = some a) (hborn : a.born ≠ m) :
    ∃ a₀, g p = some a₀ ∧ a₀.born = a.born ∧
      a.used ≤ a₀.used + (c'.nuc.clock.todOut - c.nuc.clock.todOut) := by
  cases e with
  | write b v =>
    obtain rfl := Config.step_write hstep
    exact ⟨a, h, rfl, by simp [Globals.setMem]⟩
  | trap t todIn todOut =>
    obtain rfl : todIn = todOut := hinstant
    have hspend := Prog.observe_cases (J := fun g : Ledger n => g p = some a)
      (fun o r g hr => NucOp.note_old hr hborn) h
    obtain ⟨a₀, hp, rfl⟩ := Ledger.spend_eq_some.mp hspend
    refine ⟨a₀, hp, rfl, ?_⟩
    rw [Config.step_todOut hstep hlive]
    have hpass : 0 ≤ todIn - c.nuc.clock.todOut := by
      have := honward.1
      omega
    change a₀.used + _ ≤ _
    split
    · rfl
    · omega

/-- No account is opened before its event. -/
theorem born_le {p : Fin n} {a : Account} (hrun : b.RunsTo tr c) (h : ledgerOf b tr p = some a) :
    a.born ≤ tr.length := by
  induction hrun generalizing a with
  | start hb =>
    by_contra hborn
    have hborn : a.born ≠ 0 := fun h0 => hborn (by rw [h0]; exact Nat.zero_le _)
    obtain ⟨⟨u, st⟩, hinit, -⟩ := Option.bind_eq_some_iff.mp hb
    rw [ledgerOf, Boot.ledger, hinit] at h
    have hnone := Prog.observe_cases (J := fun g : Ledger n => g p = some a)
      (fun o r g hr => NucOp.note_old hr hborn) h
    cases hnone
  | @next tr c c' e hrun hstep ih =>
    by_cases hborn : a.born = tr.length + 1
    · simp [hborn]
    · have hold : ∃ a₀, ledgerOf b tr p = some a₀ ∧ a₀.born = a.born := by
        cases e with
        | write d v => exact ⟨a, h, rfl⟩
        | trap t todIn todOut =>
          have hspend := Prog.observe_cases (J := fun g : Ledger n => g p = some a)
            (fun o r g hr => NucOp.note_old hr hborn) h
          obtain ⟨a₀, hp, rfl⟩ := Ledger.spend_eq_some.mp hspend
          exact ⟨a₀, hp, rfl⟩
      obtain ⟨a₀, hp, heq⟩ := hold
      have := ih hp
      simp only [List.length_cons]
      omega

/-- An account that is older than a part of a run grows in it by no more than the time that
passes. -/
theorem used_le_of_run {tr₀ mid : List (Config n × Event)} {p : Fin n} {a : Account}
    (hrun : b.RunsTo (mid ++ tr₀) c) (honward : ∀ x ∈ mid, x.1.Onward x.2)
    (hinstant : ∀ x ∈ mid, x.2.Instant) (hlive : c.mode.Live)
    (h : ledgerOf b (mid ++ tr₀) p = some a) (hborn : a.born ≤ tr₀.length) :
    ∃ c₀ a₀, b.RunsTo tr₀ c₀ ∧ ledgerOf b tr₀ p = some a₀ ∧
      a.used ≤ a₀.used + (c.nuc.clock.todOut - c₀.nuc.clock.todOut) := by
  induction mid generalizing c a with
  | nil => exact ⟨c, a, hrun, h, by omega⟩
  | cons x mid ih =>
    obtain ⟨c₁, e⟩ := x
    obtain ⟨honward, honward'⟩ := List.forall_mem_cons.mp honward
    obtain ⟨hinstant, hinstant'⟩ := List.forall_mem_cons.mp hinstant
    cases hrun with
    | next hrun hstep =>
      have hnew : a.born ≠ (mid ++ tr₀).length + 1 := by
        rw [List.length_append]
        omega
      obtain ⟨a₁, hp, hborn₁, hused⟩ := Config.ledgerAfter_old hstep hlive honward hinstant h hnew
      obtain ⟨c₀, a₀, hrun₀, hp₀, hused₀⟩ := ih hrun honward' hinstant' (Config.step_live hstep) hp
        (hborn₁ ▸ hborn)
      exact ⟨c₀, a₀, hrun₀, hp₀, by omega⟩

/-- In every run, each living process has been charged the time for which it has been the current
process, in all states, exactly if no process is created in the PCB of its creator after that has
run for a while. And then the results of two calls of SYS6 by one process are no further apart
than the calls. -/
theorem cpu_time_conserved (hboot : b.vars.clock.todIn = b.vars.clock.todOut) (hrun : b.RunsTo tr c)
    (honward : ∀ x ∈ tr, x.1.Onward x.2) (hinstant : ∀ x ∈ tr, x.2.Instant) (hlive : c.mode.Live) :
    (((∀ x pre, x :: pre <:+ tr → x.1.Conserves (ledgerOf b pre)) ∧ c.Conserves (ledgerOf b tr)) ↔
      ∀ x ∈ tr, x.1.Fresh x.2) ∧
    ((∀ x ∈ tr, x.1.Fresh x.2) → ∀ x₁ x₂ mid pre p tod₁ tod₂ r₁ r₂ a₁ a₂,
      x₂ :: (mid ++ x₁ :: pre) <:+ tr → x₁.1.ReadsTime x₁.2 p tod₁ r₁ →
      x₂.1.ReadsTime x₂.2 p tod₂ r₂ → ledgerOf b (x₁ :: pre) p = some a₁ →
      ledgerOf b (x₂ :: (mid ++ x₁ :: pre)) p = some a₂ → a₁.born = a₂.born → InInt a₁.used →
      InInt a₂.used → r₂ - r₁ ≤ tod₂ - tod₁) := by
  have hconserves : ∀ {tr' c'}, b.RunsTo tr' c' → tr' <:+ tr → c'.mode.Live →
      (∀ x ∈ tr, x.1.Fresh x.2) → c'.Conserves (ledgerOf b tr') := fun hrun' htr' hlive' hfresh =>
    Config.conserves_of_run hboot hrun' (fun x hx => hinstant x (htr'.subset hx))
      (fun x hx => hfresh x (htr'.subset hx)) hlive'
  refine ⟨⟨?_, fun hfresh => ⟨fun x pre hpre => ?_, ?_⟩⟩, ?_⟩
  · -- the first state in which the ledger is wrong follows a step that is not fresh
    clear hconserves
    induction hrun with
    | start hb => exact fun _ => by simp
    | @next tr c c' e hrun hstep ih =>
      rintro ⟨hbefore, hafter⟩
      obtain ⟨honward, honward'⟩ := List.forall_mem_cons.mp honward
      obtain ⟨hinstant, hinstant'⟩ := List.forall_mem_cons.mp hinstant
      have hlive₀ := Config.step_live hstep
      refine List.forall_mem_cons.mpr ⟨?_, ih honward' hinstant' hlive₀ ⟨fun x pre hpre => ?_, ?_⟩⟩
      · by_contra hfresh
        have hpoised := Config.poised_of_run hboot.le hrun honward' hlive₀
        exact hpoised.not_conserves_step hinstant hfresh hstep hafter
      · exact hbefore x pre (hpre.trans (List.suffix_cons _ _))
      · exact hbefore (c, e) tr (List.suffix_refl _)
  · obtain ⟨c₁, hrun₁⟩ := hrun.suffix hpre
    cases hrun₁ with
    | next hrun₀ hstep =>
      exact hconserves hrun₀ ((List.suffix_cons _ _).trans hpre) (Config.step_live hstep) hfresh
  · exact hconserves hrun (List.suffix_refl _) hlive hfresh
  · intro hfresh x₁ x₂ mid pre p tod₁ tod₂ r₁ r₂ a₁ a₂ hsuffix h₁ h₂ hp₁ hp₂ hborn hint₁ hint₂
    -- the state after the second call
    obtain ⟨c₂, hrun₂⟩ := hrun.suffix hsuffix
    have hfirst : x₁ :: pre <:+ tr :=
      (List.suffix_append mid _).trans ((List.suffix_cons _ _).trans hsuffix)
    obtain ⟨_, hrun₁⟩ := hrun.suffix hfirst
    have hold := born_le hrun₁ hp₁
    cases hrun₂ with
    | @next _ c₀ _ e₂ hrun₀ hstep₂ =>
      have hrun₂ : b.RunsTo ((c₀, e₂) :: mid ++ x₁ :: pre) c₂ := .next hrun₀ hstep₂
      obtain ⟨rfl, hlive₂, hout₂⟩ := h₂.result hstep₂
        (fun hlive₂ => hconserves hrun₂ hsuffix hlive₂ hfresh) hp₂ hint₂
      have hmem : ∀ x ∈ (c₀, e₂) :: mid, x ∈ tr := fun x hx =>
        hsuffix.subset (List.mem_append_left (x₁ :: pre) hx)
      -- what has passed since the state after the first call
      obtain ⟨c₁, a₀, hrun₁, hp₀, hused⟩ := used_le_of_run hrun₂ (fun x hx => honward x (hmem x hx))
        (fun x hx => hinstant x (hmem x hx)) hlive₂ hp₂ (hborn ▸ hold)
      obtain rfl : a₀ = a₁ := Option.some.inj (hp₀.symm.trans hp₁)
      cases hrun₁ with
      | next hrun' hstep₁ =>
        obtain ⟨rfl, -, hout₁⟩ := h₁.result hstep₁
          (fun hlive₁ => hconserves (.next hrun' hstep₁) hfirst hlive₁ hfresh) hp₁ hint₁
        omega

end

/-- A process calls SYS6 twice, and in between its quantum ends. -/
theorem cpu_time_conserved_twice : ∃ (_ : Layout) (tr : List (Config maxProc × Event))
    (c : Config maxProc), Boot.zero.RunsTo tr c ∧ c.nuc.clock.todOut = 7000 ∧
      c.Conserves (ledgerOf Boot.zero tr) := by
  let _ := sampleLayout
  refine ⟨sampleLayout, ?_⟩
  have hexec : ((Boot.zero.config.bind (·.execIf (fun c e => c.Onward e ∧ e.Instant ∧ c.Fresh e)
      [.call 6 0 0 0 3000, .timer 5000, .call 6 0 0 0 7000])).map
        fun c => (c.mode, c.nuc.clock.todOut)) = some (.running, 7000) := by
    decide +kernel
  obtain ⟨c, hc, hrest⟩ := Option.map_eq_some_iff.mp hexec
  obtain ⟨hmode, hout⟩ := Prod.mk.inj hrest
  obtain ⟨tr, hrun, htr⟩ := Boot.execIf_run hc
  have hconserved := cpu_time_conserved (by decide) hrun (fun x hx => (htr x hx).1)
    (fun x hx => (htr x hx).2.1) (.inl hmode)
  exact ⟨tr, c, hrun, hout, (hconserved.1.mpr fun x hx => (htr x hx).2.2).2⟩

/-- Other processes wait, so that four PCBs are free. One of the four is killed while it is
blocked, is used again, and is killed while it is ready, but not taken out of the ready queue. It is
dispatched although it is free, and takes its own PCB. -/
def ownPcb : List Event :=
  List.replicate 15 (.call 1 0 0 0 0) ++ List.replicate 15 (.call 4 0x10000 0 0 0) ++
    [.call 1 0 0 0 0, .timer 5000, .call 1 0 0 0 5000, .timer 10000,
      .call 1 0 0 0 10000, .timer 15000,
      .call 4 0x20000 0 0 15000, .call 2 0 0 0 15000, .call 1 0 0 0 15000, .call 1 0 0 0 15000,
      .timer 20000, .call 2 0 0 0 20000, .call 1 0 0 0 20000]

/-- A process that is dispatched although its PCB is free creates a process in this PCB. -/
theorem cpu_time_conserved_fails : ¬ ∀ (_ : Layout) (b : Boot maxProc)
    (tr : List (Config maxProc × Event)) (c : Config maxProc),
    b.vars.clock.todIn = b.vars.clock.todOut → b.RunsTo tr c → (∀ x ∈ tr, x.1.Onward x.2) →
      (∀ x ∈ tr, x.2.Instant) → c.mode.Live → c.Conserves (ledgerOf b tr) := by
  intro h
  let _ := sampleLayout
  let e : Event := .call 1 0 0 0 20001
  have hexec : ((Boot.zero.config.bind (·.execIf (fun c e => c.Onward e ∧ e.Instant) ownPcb)).map
      fun c => (decide (c.Onward e ∧ ¬ c.Fresh e), (c.step e).map (·.mode))) =
        some (true, some .running) := by
    decide +kernel
  obtain ⟨c, hc, hrest⟩ := Option.map_eq_some_iff.mp hexec
  simp only [Prod.mk.injEq, decide_eq_true_eq] at hrest
  obtain ⟨⟨honward, hfresh⟩, hstep⟩ := hrest
  obtain ⟨c', hstep, hmode⟩ := Option.map_eq_some_iff.mp hstep
  obtain ⟨tr, hrun, htr⟩ := Boot.execIf_run hc
  have hpoised := Config.poised_of_run (by decide) hrun (fun x hx => (htr x hx).1)
    (Config.step_live hstep)
  refine hpoised.not_conserves_step (e := e) rfl hfresh hstep
    (h _ Boot.zero ((c, e) :: tr) c' (by decide)
    (.next hrun hstep) ?_ ?_ (.inl hmode))
  · exact List.forall_mem_cons.mpr ⟨honward, fun x hx => (htr x hx).1⟩
  · exact List.forall_mem_cons.mpr ⟨rfl, fun x hx => (htr x hx).2⟩

end Jaeos
