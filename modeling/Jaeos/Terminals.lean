import Jaeos.Reach

/-!
# Terminal interrupts

A terminal has two sub-devices on one interrupt line. `handleTerminal` decides by the
status of the transmitter alone: unless that is `READY`, the interrupt is the
transmitter's. So the receiver is not served while the transmitter is busy. It
acknowledges, and keeps the status, only when it wakes a process.
-/

namespace Jaeos

variable {n : ℕ}

/-! ## The two sub-devices -/

/-- The sub-devices of a terminal. -/
inductive SubDevice where
  /-- the receiver -/
  | receiver
  /-- the transmitter -/
  | transmitter
  deriving DecidableEq

namespace SubDevice

/-- The other one. -/
def other : SubDevice → SubDevice
  | receiver => transmitter
  | transmitter => receiver

/-- `t_recv_status` and `t_transm_status` -/
def status (sub : SubDevice) (dev : Device) : Word :=
  match sub with
  | receiver => dev.dStatus
  | transmitter => dev.dData0

/-- `t_recv_command` and `t_transm_command` -/
def command (sub : SubDevice) (dev : Device) : Word :=
  match sub with
  | receiver => dev.dCommand
  | transmitter => dev.dData1

/-- Acknowledge the operation. -/
def acknowledge (sub : SubDevice) (dev : Device) : Device :=
  match sub with
  | receiver => { dev with dCommand := ack }
  | transmitter => { dev with dData1 := ack }

/-- The index of the semaphore, by the number of the terminal. -/
def semaphore (sub : SubDevice) (devNumber : ℕ) : ℕ :=
  match sub with
  | receiver => 4 * devPerInt + devNumber
  | transmitter => 4 * devPerInt + devNumber + devPerInt

/-- There is no operation. -/
def Idle (sub : SubDevice) (dev : Device) : Prop := sub.status dev &&& 0xFF = ready

/-- The operation goes on. -/
def Busy (sub : SubDevice) (dev : Device) : Prop := sub.status dev &&& 0xFF = 3

/-- The operation has finished, with success or with an error, and has not been acknowledged. -/
def Finished (sub : SubDevice) (dev : Device) : Prop :=
  (sub.status dev &&& 0xFF = 2 ∨ sub.status dev &&& 0xFF = 4 ∨ sub.status dev &&& 0xFF = 5) ∧
    sub.command dev ≠ ack

instance (sub : SubDevice) (dev : Device) : Decidable (sub.Idle dev) :=
  inferInstanceAs (Decidable (_ = _))

instance (sub : SubDevice) (dev : Device) : Decidable (sub.Busy dev) :=
  inferInstanceAs (Decidable (_ = _))

instance (sub : SubDevice) (dev : Device) : Decidable (sub.Finished dev) :=
  inferInstanceAs (Decidable (_ ∧ _))

/-- The sub-device to which `handleTerminal` attributes the interrupt. -/
def attributed (dev : Device) : SubDevice :=
  if dev.dData0 &&& 0x0F = ready then receiver else transmitter

variable {sub : SubDevice} {dev : Device}

theorem low_nibble (x : Word) : x &&& 0x0F = (x &&& 0xFF) &&& 0x0F := by
  rw [BitVec.and_assoc]
  rfl

/-- An idle transmitter leaves the interrupt to the receiver. -/
theorem attributed_of_idle (h : transmitter.Idle dev) : attributed dev = receiver := by
  have h : dev.dData0 &&& 0xFF = ready := h
  rw [attributed, low_nibble, h]
  rfl

theorem attributed_of_busy (h : transmitter.Busy dev) : attributed dev = transmitter := by
  have h : dev.dData0 &&& 0xFF = 3 := h
  rw [attributed, low_nibble, h]
  rfl

theorem attributed_of_finished (h : transmitter.Finished dev) :
    attributed dev = transmitter := by
  obtain ⟨h, -⟩ := h
  have h : dev.dData0 &&& 0xFF = 2 ∨ dev.dData0 &&& 0xFF = 4 ∨ dev.dData0 &&& 0xFF = 5 := h
  rw [attributed, low_nibble]
  rcases h with h | h | h <;> rw [h] <;> rfl

/-- A busy sub-device has not finished. -/
theorem Busy.not_finished (h : sub.Busy dev) : ¬ sub.Finished dev := by
  rintro ⟨hfin, -⟩
  rw [h] at hfin
  revert hfin
  decide

theorem Idle.not_finished (h : sub.Idle dev) : ¬ sub.Finished dev := by
  rintro ⟨hfin, -⟩
  rw [h] at hfin
  revert hfin
  decide

theorem semaphore_other_ne (sub : SubDevice) (devNumber : ℕ) :
    sub.other.semaphore devNumber ≠ sub.semaphore devNumber := by
  cases sub with
  | receiver =>
    simp only [other, semaphore, devPerInt]
    omega
  | transmitter =>
    simp only [other, semaphore, devPerInt]
    omega

@[simp] theorem acknowledge_command : sub.command (sub.acknowledge dev) = ack := by
  cases sub <;> rfl

@[simp] theorem acknowledge_other_command :
    sub.other.command (sub.acknowledge dev) = sub.other.command dev := by
  cases sub <;> rfl

@[simp] theorem acknowledge_status (sub' : SubDevice) :
    sub'.status (sub.acknowledge dev) = sub'.status dev := by
  cases sub <;> cases sub' <;> rfl

end SubDevice

variable [Layout]

/-! ## What the handler does -/

section

variable {s : Abs n} {sub : SubDevice} {devNumber : ℕ} {p : Fin n} {ps : List (Fin n)}

omit [Layout] in
theorem wp_returnFromInterrupt_clock {Q : Exit → Abs n → Prop}
    (hQ : ∀ exit k, Q exit (s.setGlobals { s.toGlobals with clock := k })) :
    (returnFromInterrupt (n := n)).wp NucOp.spec Q s := by
  simp only [returnFromInterrupt, Prog.wp_bind, wp_globals]
  split
  · exact hQ _ _
  · exact hQ _ s.clock

/-- The handler, once it has chosen a sub-device. -/
def signalTerminal (sub : SubDevice) (devNumber : ℕ) (dev : Device) : NucM n Exit := do
  addMem (semArr (sub.semaphore devNumber)) 1
  if ((← globals).mem (semArr (sub.semaphore devNumber))).toInt ≤ 0 then
    match ← store (.removeBlocked (semArr (sub.semaphore devNumber))) with
    | some process =>
      wakeIo process (sub.status dev)
      modifyDev (4 * devPerInt + devNumber) sub.acknowledge
    | none => pure ()
  returnFromInterrupt

/-- What the handler does is decided by the status of the transmitter. -/
theorem handleTerminal_eq (hd : devNumber < devPerInt) {Q : Exit → Abs n → Prop}
    (hQ : (signalTerminal (SubDevice.attributed (s.devReg (4 * devPerInt + devNumber))) devNumber
      (s.devReg (4 * devPerInt + devNumber))).wp NucOp.spec Q s) :
    (handleTerminal (n := n) devNumber).wp NucOp.spec Q s := by
  simp only [devPerInt] at hd
  simp only [handleTerminal, Prog.wp_bind, wp_globals]
  by_cases h : (s.devReg (4 * devPerInt + devNumber)).dData0 &&& 0x0F = ready
  · rw [SubDevice.attributed, if_pos h] at hQ
    have hlt : ¬ maxSema ≤ 4 * devPerInt + devNumber := by
      simp only [maxSema, devPerInt]
      omega
    simp only [h, decide_true, if_true, if_neg hlt]
    exact hQ
  · rw [SubDevice.attributed, if_neg h] at hQ
    have hlt : ¬ maxSema ≤ 4 * devPerInt + devNumber + devPerInt := by
      simp only [maxSema, devPerInt]
      omega
    simp only [h, decide_false, Bool.false_eq_true, if_false, if_neg hlt]
    exact hQ

/-- What the handler leaves behind when it wakes a process. -/
structure Abs.Woken (s : Abs n) (devNumber : ℕ) (sub : SubDevice) (p : Fin n) (ps : List (Fin n))
    (s' : Abs n) : Prop where
  /-- the semaphore has been incremented -/
  mem : s'.mem = Function.update s.mem (semArr (sub.semaphore devNumber))
    (s.mem (semArr (sub.semaphore devNumber)) + 1)
  /-- the operation has been acknowledged -/
  devReg : s'.devReg = Function.update s.devReg (4 * devPerInt + devNumber)
    (sub.acknowledge (s.devReg (4 * devPerInt + devNumber)))
  /-- one process less waits for a device -/
  softBlockCount : s'.softBlockCount = s.softBlockCount - 1
  /-- it has got the status -/
  pS : s'.data.pS = Function.update s.data.pS p
    ((s.data.pS p).setReg sA1 (sub.status (s.devReg (4 * devPerInt + devNumber))))
  /-- and is ready -/
  lists : s'.lists = ((s.lists.setQ (.blocked (semArr (sub.semaphore devNumber))) ps).setSemAdd p
    null).append .ready p

/-- The interrupt wakes a process. -/
theorem wp_handleTerminal_wakes {Q : Exit → Abs n → Prop} (hok : s.lists.Ok s.currentProcess)
    (hd : devNumber < devPerInt)
    (hsub : SubDevice.attributed (s.devReg (4 * devPerInt + devNumber)) = sub)
    (hneg : (s.mem (semArr (sub.semaphore devNumber)) + 1).toInt ≤ 0)
    (hq : s.lists.q (.blocked (semArr (sub.semaphore devNumber))) = p :: ps)
    (hQ : ∀ exit s', s.Woken devNumber sub p ps s' → Q exit s') :
    (handleTerminal (n := n) devNumber).wp NucOp.spec Q s := by
  have hloose : (s.lists.setQ (.blocked (semArr (sub.semaphore devNumber))) ps).Loose p :=
    (hok.placed.pop hq).loose p (by simp)
  refine handleTerminal_eq hd ?_
  rw [hsub]
  simp only [signalTerminal, Prog.wp_bind, wp_addMem, wp_globals, Prog.wp_ite]
  split
  case isFalse hpos => exact absurd (by simpa [Globals.setMem] using hneg) hpos
  rw [wp_removeBlocked]
  refine ⟨fun hnil => absurd (hnil.symm.trans hq) (by simp), fun q qs hcons => ?_⟩
  obtain ⟨rfl, rfl⟩ := List.cons.inj (hcons.symm.trans hq)
  simp only [wakeIo, modifyDev, Prog.wp_bind, wp_clearSemAdd, wp_setReturn, wp_modifyGlobals,
    wp_insertReady]
  exact ⟨hloose, wp_returnFromInterrupt_clock fun exit k => hQ _ _ ⟨rfl, rfl, rfl, rfl, rfl⟩⟩

/-- The interrupt wakes nobody. -/
theorem wp_handleTerminal_drops {Q : Exit → Abs n → Prop} (hd : devNumber < devPerInt)
    (hsub : SubDevice.attributed (s.devReg (4 * devPerInt + devNumber)) = sub)
    (hnone : (s.mem (semArr (sub.semaphore devNumber)) + 1).toInt ≤ 0 →
      s.lists.q (.blocked (semArr (sub.semaphore devNumber))) = [])
    (hQ : ∀ exit s', s'.devReg = s.devReg → Q exit s') :
    (handleTerminal (n := n) devNumber).wp NucOp.spec Q s := by
  refine handleTerminal_eq hd ?_
  rw [hsub]
  simp only [signalTerminal, Prog.wp_bind, wp_addMem, wp_globals, Prog.wp_ite]
  split
  case isTrue hnonpos =>
    have hneg : (s.mem (semArr (sub.semaphore devNumber)) + 1).toInt ≤ 0 := by
      simpa [Globals.setMem] using hnonpos
    rw [wp_removeBlocked]
    refine ⟨fun _ => ?_, fun q qs hcons => ?_⟩
    · exact wp_returnFromInterrupt_clock fun exit k => hQ exit _ rfl
    · have hnil := hnone hneg
      exact absurd (hnil.symm.trans hcons) (by simp)
  case isFalse =>
    exact wp_returnFromInterrupt_clock fun exit k => hQ exit _ rfl

end

/-! ## Attribution -/

section

variable {c c' : Nucleus n} {devNumber : ℕ} {sub : SubDevice}

/-- The registers of a terminal. -/
def Nucleus.terminal (c : Nucleus n) (devNumber : ℕ) : Device :=
  c.devReg (4 * devPerInt + devNumber)

/-- The same nucleus with these registers on each terminal. -/
def Nucleus.withTerminals (c : Nucleus n) (dev : Device) : Nucleus n :=
    { c with devReg := fun _ => dev }

/-- An interrupt of a terminal has been served for one of its sub-devices. -/
structure Nucleus.Attributed (c : Nucleus n) (devNumber : ℕ) (sub : SubDevice) (c' : Nucleus n) :
    Prop where
  /-- the sub-device has really finished -/
  finished : sub.Finished (c.terminal devNumber)
  /-- V on its semaphore, and on no other -/
  mem : c'.mem = Function.update c.mem (semArr (sub.semaphore devNumber))
    (c.mem (semArr (sub.semaphore devNumber)) + 1)
  /-- the oldest process that waits for it is ready, with the status in `a1` -/
  delivered : ∀ p ps, c.store.blockedOn (semArr (sub.semaphore devNumber)) = p :: ps →
    c'.store.blockedOn (semArr (sub.semaphore devNumber)) = ps ∧
      c'.store.readyList = c.store.readyList ++ [p] ∧ c'.store.pSemAdd p = null ∧
        c'.store.pS p = (c.store.pS p).setReg sA1 (sub.status (c.terminal devNumber)) ∧
          c'.softBlockCount = c.softBlockCount - 1
  /-- if there is none, then the status is kept for the SYS8 that is still to come -/
  kept : c.store.blockedOn (semArr (sub.semaphore devNumber)) = [] →
    c'.devStatus = Function.update c.devStatus (sub.semaphore devNumber)
      (sub.status (c.terminal devNumber))
  /-- the operation is acknowledged -/
  acknowledged : sub.command (c'.terminal devNumber) = ack
  /-- the semaphore of the other sub-device is as it was -/
  otherSemaphore : c'.mem (semArr (sub.other.semaphore devNumber)) =
    c.mem (semArr (sub.other.semaphore devNumber))
  /-- so are those who wait for it -/
  otherWaiters : c'.store.blockedOn (semArr (sub.other.semaphore devNumber)) =
    c.store.blockedOn (semArr (sub.other.semaphore devNumber))
  /-- and its registers -/
  otherRegisters : sub.other.status (c'.terminal devNumber) = sub.other.status
    (c.terminal devNumber) ∧
    sub.other.command (c'.terminal devNumber) = sub.other.command (c.terminal devNumber)

/-- The transmitter is not busy, and a process waits for the sub-device that the handler chooses,
with the semaphore below 0. -/
def Nucleus.Attributable (c : Nucleus n) (devNumber : ℕ) : Prop :=
  ¬ SubDevice.transmitter.Busy (c.terminal devNumber) ∧
    (c.mem (semArr ((SubDevice.attributed (c.terminal devNumber)).semaphore devNumber)) + 1).toInt
      ≤ 0 ∧
    c.store.blockedOn (semArr ((SubDevice.attributed (c.terminal devNumber)).semaphore devNumber)) ≠
      []

omit [Layout] in
/-- Unless the transmitter is busy, the handler chooses a sub-device that has finished. -/
theorem SubDevice.attributed_finished {dev : Device}
    (hstates : ∀ sub : SubDevice, sub.Idle dev ∨ sub.Busy dev ∨ sub.Finished dev)
    (hfinished : ∃ sub : SubDevice, sub.Finished dev) (hbusy : ¬ SubDevice.transmitter.Busy dev) :
    (SubDevice.attributed dev).Finished dev := by
  rcases hstates .transmitter with h | h | h
  · rw [attributed_of_idle h]
    obtain ⟨sub, hsub⟩ := hfinished
    cases sub with
    | receiver => exact hsub
    | transmitter => exact absurd hsub h.not_finished
  · exact absurd h hbusy
  · rw [attributed_of_finished h]
    exact h

/-- The registers after a wakeup. -/
theorem Abs.Woken.terminal {p : Fin n} {ps : List (Fin n)}
    (h : c.abs.Woken devNumber sub p ps c'.abs) :
    c'.terminal devNumber = sub.acknowledge (c.terminal devNumber) := by
  have hdev : c'.devReg = _ := h.devReg
  rw [Nucleus.terminal, hdev, Function.update_self]
  rfl

/-- A wakeup serves a sub-device that has finished. -/
theorem Abs.Woken.attributed {p : Fin n} {ps : List (Fin n)}
    (h : c.abs.Woken devNumber sub p ps c'.abs)
    (hq : c.store.blockedOn (semArr (sub.semaphore devNumber)) = p :: ps)
    (hfinished : sub.Finished (c.terminal devNumber)) : c.Attributed devNumber sub c' := by
  have hq' : ∀ i, c'.store.lists.q i = (((c.store.lists.setQ
      (.blocked (semArr (sub.semaphore devNumber))) ps).setSemAdd p null).append .ready p).q i :=
    fun i => congrFun (congrArg Lists.q h.lists) i
  have hother : semArr (sub.other.semaphore devNumber) ≠ semArr (sub.semaphore devNumber) :=
    fun e => sub.semaphore_other_ne devNumber (semArr_inj.mp e)
  have hmem : c'.mem = _ := h.mem
  refine ⟨hfinished, h.mem, fun q qs hqs => ?_, fun hnil => ?_, ?_, ?_, ?_, ?_, ?_⟩
  · obtain ⟨rfl, rfl⟩ := List.cons.inj (hqs.symm.trans hq)
    refine ⟨?_, ?_, ?_, ?_, h.softBlockCount⟩
    · exact (hq' (.blocked _)).trans (by simp)
    · exact (hq' .ready).trans (by simp; rfl)
    · exact (congrFun (congrArg Lists.semAdd h.lists) q).trans (by simp [Lists.append])
    · exact (congrFun h.pS q).trans (Function.update_self ..)
  · exact absurd (hnil.symm.trans hq) (by simp)
  · rw [h.terminal, SubDevice.acknowledge_command]
  · rw [hmem, Function.update_of_ne hother]
    rfl
  · exact (hq' (.blocked _)).trans (by simp [hother]; rfl)
  · rw [h.terminal, SubDevice.acknowledge_status]
  · rw [h.terminal, SubDevice.acknowledge_other_command]

/-- If only the registers of a sub-device that has not finished may have changed, then nothing has
been acknowledged. -/
theorem Nucleus.Attributed.not_of_command
    (h : ∀ sub : SubDevice, sub.Finished (c.terminal devNumber) →
      sub.command (c'.terminal devNumber) = sub.command (c.terminal devNumber)) :
    ¬ ∃ sub, c.Attributed devNumber sub c' := by
  rintro ⟨sub, hsub⟩
  exact hsub.finished.2 ((h sub hsub.finished).symm.trans hsub.acknowledged)

end

/-- `handleTerminal` serves a sub-device that has finished exactly when the transmitter is not busy
and a process waits for the sub-device that it chooses. -/
theorem terminal_attributed_iff (hn : n ≤ maxProc) {c : Nucleus n} (hwf : c.WellFormed)
    {devNumber : ℕ} (hd : devNumber < devPerInt)
    (hstates : ∀ sub : SubDevice, sub.Idle (c.terminal devNumber) ∨
      sub.Busy (c.terminal devNumber) ∨ sub.Finished (c.terminal devNumber))
    (hfinished : ∃ sub : SubDevice, sub.Finished (c.terminal devNumber)) :
    ∃ exit c', ((handleTerminal devNumber).run NucOp.sem).run c = some (exit, c') ∧
      ((∃ sub, c.Attributed devNumber sub c') ↔ c.Attributable devNumber) := by
  obtain ⟨sub, hsub⟩ : ∃ sub, SubDevice.attributed (c.terminal devNumber) = sub := ⟨_, rfl⟩
  by_cases hwakes : (c.mem (semArr (sub.semaphore devNumber)) + 1).toInt ≤ 0 ∧
      c.store.blockedOn (semArr (sub.semaphore devNumber)) ≠ []
  · obtain ⟨hneg, hne⟩ := hwakes
    obtain ⟨p, ps, hq⟩ := List.exists_cons_of_ne_nil hne
    obtain ⟨exit, c', s', hrun, hrep, hwoken⟩ := nucleus_sound hn hwf.rep
      (wp_handleTerminal_wakes (s := c.abs) (Q := fun _ s' => c.abs.Woken devNumber sub p ps s')
        hwf.ok hd hsub hneg hq fun _ _ h => h)
    obtain rfl := hrep.abs_eq
    refine ⟨exit, c', hrun, ⟨?_, fun ⟨hbusy, _⟩ => ⟨sub, ?_⟩⟩⟩
    · -- if the transmitter is busy, then it is acknowledged, and the receiver is not
      intro hattr
      refine ⟨fun hbusy => ?_, by rw [hsub]; exact hneg, by rw [hsub]; exact hne⟩
      obtain rfl : SubDevice.transmitter = sub :=
        (SubDevice.attributed_of_busy hbusy).symm.trans hsub
      refine Nucleus.Attributed.not_of_command (fun sub' hfin => ?_) hattr
      cases sub' with
      | receiver =>
        rw [hwoken.terminal]
        rfl
      | transmitter => exact absurd hfin hbusy.not_finished
    · exact hwoken.attributed hq (hsub ▸ SubDevice.attributed_finished hstates hfinished hbusy)
  · obtain ⟨exit, c', s', hrun, hrep, hdev⟩ := nucleus_sound hn
      (Q := fun _ s' => s'.devReg = c.devReg) hwf.rep
      (wp_handleTerminal_drops (s := c.abs) hd hsub
        (fun hneg => not_not.mp fun hne => hwakes ⟨hneg, hne⟩) fun _ _ h => h)
    have hdev' : c'.devReg = c.devReg := (congrArg Globals.devReg hrep.globals).trans hdev
    refine ⟨exit, c', hrun, iff_of_false ?_ ?_⟩
    · refine Nucleus.Attributed.not_of_command fun sub' _ => ?_
      rw [Nucleus.terminal, hdev']
      rfl
    · rintro ⟨-, hneg, hne⟩
      rw [hsub] at hneg hne
      exact hwakes ⟨hneg, hne⟩

omit [Layout] in
/-- A process waits for the transmitter, which finishes while the receiver is idle. -/
theorem terminal_attributed_iff_transmitted : ∃ (_ : Layout) (c : Nucleus maxProc) (exit : Exit)
    (c' : Nucleus maxProc), c.store.blockedOn (semArr 40) = [0] ∧
      c.terminal 0 = ⟨1, 1, 5, 0x4102⟩ ∧
        ((handleTerminal 0).run NucOp.sem).run c = some (exit, c') ∧
          ∃ sub, c.Attributed 0 sub c' := by
  refine ⟨sampleLayout, ?_⟩
  let _ := sampleLayout
  have hexec : (Boot.zero.config.bind (·.exec [.call 8 7 0 0 0])).map (fun c =>
      (c.mode, c.nuc.store.blockedOn (semArr 40), c.nuc.mem (semArr 40))) =
        some (.waiting, [0], -1) := by
    decide +kernel
  obtain ⟨c, hc, hrest⟩ := Option.map_eq_some_iff.mp hexec
  simp only [Prod.mk.injEq] at hrest
  obtain ⟨hmode, hblocked, hmem⟩ := hrest
  obtain ⟨tr, hrun, htr⟩ := Boot.exec_run hc
  have hwait : (Event.call 8 7 0 0 0).Harmless := fun _ h => h
  have hsafe : ∀ x ∈ tr, x.2.Harmless := forall_event htr (by simpa using hwait)
  have hsound : c.Sound := Config.Sound.of_run le_rfl hrun.run
    (fun x hx => (hsafe x hx).killSafe x.1) (.inr hmode)
  have hstates : ∀ sub : SubDevice, sub.Idle ⟨1, 1, 5, 0x4102⟩ ∨ sub.Busy ⟨1, 1, 5, 0x4102⟩ ∨
      sub.Finished ⟨1, 1, 5, 0x4102⟩ := fun sub => by cases sub <;> decide
  have hfinished : SubDevice.transmitter.Finished ⟨1, 1, 5, 0x4102⟩ := by decide
  have hbusy : ¬ SubDevice.transmitter.Busy ⟨1, 1, 5, 0x4102⟩ := by decide
  obtain ⟨exit, c', hhandler, hiff⟩ := terminal_attributed_iff le_rfl
    (c := c.nuc.withTerminals ⟨1, 1, 5, 0x4102⟩) (hsound.wellFormed.congr rfl rfl)
    (show 0 < devPerInt by decide) hstates ⟨.transmitter, hfinished⟩
  have hattr : SubDevice.attributed ((c.nuc.withTerminals ⟨1, 1, 5, 0x4102⟩).terminal 0) =
      .transmitter := SubDevice.attributed_of_finished hfinished
  refine ⟨c.nuc.withTerminals ⟨1, 1, 5, 0x4102⟩, exit, c', hblocked, rfl, hhandler,
    hiff.mpr ⟨hbusy, ?_, ?_⟩⟩
  · rw [hattr]
    change (c.nuc.mem (semArr 40) + 1).toInt ≤ 0
    rw [hmem]
    decide
  · rw [hattr]
    change c.nuc.store.blockedOn (semArr 40) ≠ []
    rw [hblocked]
    simp

omit [Layout] in
/-- A process waits for the receiver, which has received a character while the transmitter is
busy. -/
theorem terminal_attributed_fails : ¬ ∀ (_ : Layout) (c : Nucleus maxProc) (devNumber : ℕ),
    c.WellFormed → devNumber < devPerInt →
      (∀ sub : SubDevice, sub.Idle (c.terminal devNumber) ∨ sub.Busy (c.terminal devNumber) ∨
        sub.Finished (c.terminal devNumber)) →
      (∃ sub : SubDevice, sub.Finished (c.terminal devNumber)) →
      ∃ exit c', ((handleTerminal devNumber).run NucOp.sem).run c = some (exit, c') ∧
        ∃ sub, c.Attributed devNumber sub c' := by
  intro h
  let _ := sampleLayout
  have hexec : (Boot.zero.config.bind (·.exec [.call 8 7 0 1 0])).bind (fun c =>
      (((handleTerminal 0).run NucOp.sem).run
        (c.nuc.withTerminals ⟨0x4105, 2, 3, 0x4202⟩)).map fun r =>
          (c.mode, (r.2.terminal 0).dCommand)) = some (.waiting, 2) := by
    decide +kernel
  obtain ⟨c, hc, hrest⟩ := Option.bind_eq_some_iff.mp hexec
  obtain ⟨⟨exit, c'⟩, hhandler, hrest⟩ := Option.map_eq_some_iff.mp hrest
  simp only [Prod.mk.injEq] at hrest
  obtain ⟨hmode, hcommand⟩ := hrest
  obtain ⟨tr, hrun, htr⟩ := Boot.exec_run hc
  have hwait : (Event.call 8 7 0 1 0).Harmless := fun _ h => h
  have hsafe : ∀ x ∈ tr, x.2.Harmless := forall_event htr (by simpa using hwait)
  have hsound : c.Sound := Config.Sound.of_run le_rfl hrun.run
    (fun x hx => (hsafe x hx).killSafe x.1) (.inr hmode)
  have hstates : ∀ sub : SubDevice, sub.Idle ⟨0x4105, 2, 3, 0x4202⟩ ∨
      sub.Busy ⟨0x4105, 2, 3, 0x4202⟩ ∨ sub.Finished ⟨0x4105, 2, 3, 0x4202⟩ :=
    fun sub => by cases sub <;> decide
  have hfinished : SubDevice.receiver.Finished ⟨0x4105, 2, 3, 0x4202⟩ := by decide
  have hbusy : SubDevice.transmitter.Busy ⟨0x4105, 2, 3, 0x4202⟩ := by decide
  obtain ⟨exit', c'', hhandler', sub, hattr⟩ := h _ (c.nuc.withTerminals ⟨0x4105, 2, 3, 0x4202⟩) 0
    (hsound.wellFormed.congr rfl rfl) (by decide) hstates ⟨.receiver, hfinished⟩
  obtain ⟨-, rfl⟩ := Prod.mk.inj (Option.some.inj (hhandler.symm.trans hhandler'))
  cases sub with
  | receiver => exact absurd (hcommand.symm.trans hattr.acknowledged) (by decide)
  | transmitter => exact hbusy.not_finished hattr.finished

end Jaeos
