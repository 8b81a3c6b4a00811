import Jaeos.Semaphores

/-!
# Operations on devices

An operation on a disk, tape, network or printer line is started, completes with
one interrupt and is waited for with one SYS8, in either order. `Io` keeps track
of the operations of a run, and `Core.IoInv` says what the nucleus keeps for each
of them. A process that waits before the interrupt is resumed with the status of
its operation; one that waits after it is resumed with 0, because the handler of
the interrupt keeps a status only when a process is missing from the queue.
-/

namespace Jaeos

variable {n : ℕ}

/-! ## The operations of a run -/

/-- The number of devices on the disk, tape, network and printer lines. -/
abbrev devices : ℕ := 4 * devPerInt

/-- An operation on a device. -/
inductive Operation (n : ℕ) where
  /-- `p` has started it -/
  | started (p : Fin n)
  /-- it has completed with this status, and `p` has not waited yet -/
  | completed (p : Fin n) (status : Word)
  /-- `p` waits for it to complete -/
  | waiting (p : Fin n)

namespace Operation

/-- The process that has started the operation. -/
def issuer : Operation n → Fin n
  | started p | completed p _ | waiting p => p

/-- The interrupt is still to come. -/
def Pending : Operation n → Prop
  | completed _ _ => False
  | _ => True

/-- What the semaphore of a device counts. -/
def value : Option (Operation n) → Word
  | some (completed _ _) => 1
  | some (waiting _) => -1
  | _ => 0

/-- Who is blocked on the semaphore of a device. -/
def waiters : Option (Operation n) → List (Fin n)
  | some (waiting p) => [p]
  | _ => []

end Operation

/-- The return of a SYS8. -/
structure Returned where
  /-- the process has waited for the interrupt -/
  waited : Bool
  /-- the `d_status` with which the operation has completed -/
  status : Word
  /-- `a1` of the process when it is resumed -/
  a1 : Word

/-- The operations of a run. -/
structure Io (n : ℕ) where
  /-- the operation on each device -/
  op : ℕ → Option (Operation n)
  /-- the status of the operation each process is to be resumed after -/
  owed : Fin n → Option Word
  /-- the SYS8s that have returned, the last one first -/
  returned : List Returned

namespace Io

/-- No operation. -/
def none : Io n := ⟨fun _ => .none, fun _ => .none, []⟩

variable (io : Io n)

/-- Set the operation on a device. -/
def setOp (i : ℕ) (o : Option (Operation n)) : Io n := { io with op := Function.update io.op i o }

/-- The process has started an operation, or is to be resumed after one. -/
def Issuer (p : Fin n) : Prop := (∃ i o, io.op i = some o ∧ o.issuer = p) ∨ io.owed p ≠ .none

/-- A SYS8 or a device interrupt, with the core the handler has left. -/
def serve (r : Request) (c : Core n) : Io n :=
  match r with
  | .waitForIo i =>
    match io.op i with
    | some (.started p) => io.setOp i (some (.waiting p))
    | some (.completed p status) =>
      { io.setOp i .none with returned := ⟨false, status, (c.pS p).sReg sA1⟩ :: io.returned }
    | _ => io
  | .device i status _ =>
    match io.op i with
    | some (.started p) => io.setOp i (some (.completed p status))
    | some (.waiting p) =>
      { io.setOp i .none with owed := Function.update io.owed p (some status) }
    | _ => io
  | _ => io

/-- The current process is resumed. -/
def resume (c : Core n) : Io n :=
  match c.cur with
  | .none => io
  | some p =>
    match io.owed p with
    | .none => io
    | some status =>
      { io with
        owed := Function.update io.owed p .none
        returned := ⟨true, status, (c.pS p).sReg sA1⟩ :: io.returned }

/-- Operations do not overlap: SYS8 is made by the issuer of the operation, and an interrupt
completes an operation. -/
def Admits (cur : Option (Fin n)) : Request → Prop
  | .waitForIo i => i < devices → ∃ o, io.op i = some o ∧ cur = some o.issuer
  | .device i _ _ => i < devices → ∃ o, io.op i = some o ∧ o.Pending
  | _ => True

end Io

/-! ## What the nucleus keeps for the operations -/

variable [Layout]

/-- What the nucleus keeps for the operations. -/
structure Core.IoInv (c : Core n) (io : Io n) : Prop where
  /-- the semaphore of each device -/
  value : ∀ i < devices, c.mem (semArr i) = Operation.value (io.op i)
  /-- its queue -/
  waiters : ∀ i < devices, c.lists.q (.blocked (semArr i)) = Operation.waiters (io.op i)
  /-- no status is ever kept for later -/
  devStatus : ∀ i < devices, c.devStatus i = 0
  /-- a process that is to be resumed is ready, with the status in `a1` -/
  owed : ∀ p status, io.owed p = some status →
    p ∈ c.lists.q .ready ∧ (c.pS p).sReg sA1 = status
  /-- there are no other devices -/
  devices : ∀ i, devices ≤ i → io.op i = none

/-- What the SYS8s that have returned were told. -/
def Io.Told (io : Io n) : Prop :=
  ∀ r ∈ io.returned, r.a1 = if r.waited then r.status else 0

/-- Nothing has happened to the device. -/
structure Core.Calm (c c' : Core n) (i : ℕ) : Prop where
  /-- its semaphore -/
  value : c'.mem (semArr i) = c.mem (semArr i)
  /-- the queue -/
  waiters : c'.lists.q (.blocked (semArr i)) = c.lists.q (.blocked (semArr i))
  /-- the status kept for later -/
  devStatus : c'.devStatus i = c.devStatus i

omit [Layout] in
/-- The ready processes stay ready with the state they are in, unless they are freed. -/
def Core.KeepsReady (c c' : Core n) : Prop :=
  ∀ p ∈ c.lists.q .ready, p ∉ c'.lists.q .free → p ∈ c'.lists.q .ready ∧ c'.pS p = c.pS p

section

variable {areas : Fin n → TrapAreas} {c₀ c c' : Core n} {r : Request} {exit : Exit} {i : ℕ}

omit [Layout] in
theorem devices_le {i : ℕ} (hi : i < devices) : i < maxSema := by
  simp only [devices, devPerInt, maxSema] at *
  omega

theorem semArr_ne {i j : ℕ} (h : i ≠ j) : semArr i ≠ semArr j := fun e => h (semArr_inj.mp e)

/-- Wakeups from another semaphore. -/
theorem Wakes.calm {a : ℕ} (ha : semArr i ≠ a) (h : Wakes a c₀ c) : c₀.Calm c i := by
  induction h with
  | refl => exact ⟨rfl, rfl, rfl⟩
  | @next c p ps _ _ ih =>
    refine ⟨ih.value, ?_, ih.devStatus⟩
    rw [← ih.waiters]
    simp [Core.wake, Core.soften, ha]

omit [Layout] in
theorem Wakes.keepsReady {a : ℕ} (h : Wakes a c₀ c) : c₀.KeepsReady c := by
  induction h with
  | refl => exact fun p hp _ => ⟨hp, rfl⟩
  | next _ _ ih =>
    intro p hp hfree
    obtain ⟨hready, hps⟩ := ih p hp (by simpa [Core.wake, Core.soften] using hfree)
    exact ⟨by simp [Core.wake, Core.soften, hready], hps⟩

/-- A handler does nothing to a device it is not asked about. -/
theorem Effect.calm (h : Effect areas c r exit c') (hinv : c.Inv) (hi : i < devices)
    (hwait : r ≠ .waitForIo i) (hdevice : ∀ status keep, r ≠ .device i status keep)
    (hlegal : r.Legal)
    (harea : ∀ p type, c.cur = some p → r = .trap type → (areas p).old type ≠ null →
      ¬ InArea ((areas p).old type) (semArr i))
    (halive : ∀ x ∈ c.lists.q (.blocked (semArr i)), x ∉ c'.lists.q .free)
    (hexit : exit = .ldst ∨ exit = .getNewJob) : c.Calm c' i := by
  have hmax := devices_le hi
  have harr := (isDevSem_semArr hmax).inSemaphoreArray
  have hclock : semArr i ≠ semArr clckTimer := semArr_ne (by
    simp only [devices, devPerInt, clckTimer] at *
    omega)
  cases h with
  | undefined | clockPanic => simp at hexit
  | createNone | specify | quantumIdle | time => exact ⟨rfl, rfl, rfl⟩
  | create a hcur hq => exact ⟨rfl, by simp [Core.create, Core.save], rfl⟩
  | kill _ _ _ h => exact ⟨h.mem_semArr hmax, h.q_eq (by simp) hinv halive, congrFun h.saved.2 i⟩
  | signal a | take a =>
    have ha : semArr i ≠ a := fun e => hlegal (e ▸ harr)
    exact ⟨c.add_mem_of_ne _ ha, rfl, rfl⟩
  | @wake a | block a =>
    have ha : semArr i ≠ a := fun e => hlegal (e ▸ harr)
    exact ⟨c.add_mem_of_ne _ ha, by simp [Core.wake, Core.block, Core.add, Core.setMem, ha], rfl⟩
  | clock hcur hneg =>
    exact ⟨c.add_mem_of_ne _ hclock,
      by simp [Core.block, Core.soften, Core.add, Core.setMem, hclock], rfl⟩
  | @ioDone j | @ioWait j =>
    have hj : semArr i ≠ semArr j := semArr_ne fun e => hwait (e ▸ rfl)
    exact ⟨c.add_mem_of_ne _ hj, by
      simp [Core.block, Core.soften, Core.add, Core.setMem, Core.save, hj],
      rfl⟩
  | passUp type hcur h old new =>
    exact ⟨writeState_of_not_inArea (harea _ type hcur rfl h), rfl, rfl⟩
  | tick h hq =>
    have hcalm := h.calm hclock
    exact ⟨(Function.update_of_ne hclock ..).trans hcalm.value, hcalm.waiters, hcalm.devStatus⟩
  | quantum hcur => exact ⟨rfl, by simp [Core.preempt], rfl⟩
  | @ioSignal j status keep | @ioWake j status keep =>
    have hj : semArr i ≠ semArr j := semArr_ne fun e => hdevice status keep (e ▸ rfl)
    exact ⟨c.add_mem_of_ne _ hj, by
      simp [Core.wake, Core.soften, Core.save, Core.add, Core.setMem, hj],
      rfl⟩
  | @ioLost j status keep =>
    have hij : i ≠ j := fun e => hdevice status keep (e ▸ rfl)
    cases keep with
    | false => exact ⟨c.add_mem_of_ne _ (semArr_ne hij), rfl, rfl⟩
    | true => exact ⟨c.add_mem_of_ne _ (semArr_ne hij), rfl, Function.update_of_ne hij ..⟩

/-- A handler leaves the ready processes as they are. -/
theorem Effect.keepsReady (h : Effect areas c r exit c') (hinv : c.Inv)
    (hexit : exit = .ldst ∨ exit = .getNewJob) : c.KeepsReady c' := by
  intro p hp hfree
  have hcur : ∀ q, c.cur = some q → p ≠ q := fun q hq e => by
    subst e
    exact hinv.ok.placed.loose p (by simp [hq]) _ hp
  have hplace : ∀ j q, q ∈ c.lists.q j → j ≠ .ready → p ≠ q := fun j q hq hj e => by
    subst e
    exact hj (hinv.ok.placed.eq_of_mem hp hq)
  cases h with
  | undefined | clockPanic => simp at hexit
  | createNone | specify | quantumIdle | signal | take | ioSignal => exact ⟨hp, rfl⟩
  | create a hcur hq =>
    have hne := hplace .free _ (by rw [hq]; exact List.mem_cons_self) (by simp)
    exact ⟨by simp [Core.create, Core.save, hp], Function.update_of_ne hne ..⟩
  | kill _ _ _ h => exact ⟨h.mem_of_alive (by simp) hp hfree, congrFun h.saved.1 p⟩
  | wake | block | clock | ioWait | quantum =>
    exact ⟨by simp [Core.wake, Core.block, Core.preempt, Core.soften, Core.add, Core.setMem, hp],
      rfl⟩
  | time hq | ioDone _ hq | passUp _ hq => exact ⟨hp, Function.update_of_ne (hcur _ hq) ..⟩
  | tick h hq => exact h.keepsReady p hp hfree
  | ioWake status keep hi hneg hq =>
    have hne := hplace (.blocked _) _ (by rw [hq]; exact List.mem_cons_self) (by simp)
    exact ⟨by simp [Core.wake, Core.soften, Core.save, Core.add, Core.setMem, hp],
      Function.update_of_ne hne ..⟩
  | ioLost status keep =>
    cases keep with
    | false => exact ⟨hp, rfl⟩
    | true => exact ⟨hp, rfl⟩

end

/-! ## Every effect keeps what there is for the operations -/

namespace Core.IoInv

variable {c c' : Core n} {io : Io n} {i : ℕ} {o : Option (Operation n)}

/-- Nothing has happened to any device. -/
theorem calm (h : c.IoInv io) (hcalm : ∀ j < Jaeos.devices, c.Calm c' j)
    (howed : ∀ p status, io.owed p = some status →
      p ∈ c'.lists.q .ready ∧ (c'.pS p).sReg sA1 = status) : c'.IoInv io where
  value j hj := (hcalm j hj).value.trans (h.value j hj)
  waiters j hj := (hcalm j hj).waiters.trans (h.waiters j hj)
  devStatus j hj := (hcalm j hj).devStatus.trans (h.devStatus j hj)
  owed := howed
  devices := h.devices

/-- Something has happened to the device `i`. -/
theorem setOp (h : c.IoInv io) (hi : i < Jaeos.devices)
    (hcalm : ∀ j < Jaeos.devices, j ≠ i → c.Calm c' j)
    (hvalue : c'.mem (semArr i) = Operation.value o)
    (hwaiters : c'.lists.q (.blocked (semArr i)) = Operation.waiters o)
    (hstatus : c'.devStatus i = c.devStatus i)
    (howed : ∀ p status, io.owed p = some status →
      p ∈ c'.lists.q .ready ∧ (c'.pS p).sReg sA1 = status) : c'.IoInv (io.setOp i o) := by
  have hop : ∀ j, j ≠ i → (io.setOp i o).op j = io.op j := fun j hj => Function.update_of_ne hj ..
  have hself : (io.setOp i o).op i = o := Function.update_self ..
  refine ⟨fun j hj => ?_, fun j hj => ?_, fun j hj => ?_, howed, fun j hj => ?_⟩
  · by_cases hji : j = i
    · rw [hji, hself, hvalue]
    · rw [hop j hji, (hcalm j hj hji).value, h.value j hj]
  · by_cases hji : j = i
    · rw [hji, hself, hwaiters]
    · rw [hop j hji, (hcalm j hj hji).waiters, h.waiters j hj]
  · by_cases hji : j = i
    · rw [hji, hstatus, h.devStatus i hi]
    · rw [(hcalm j hj hji).devStatus, h.devStatus j hj]
  · rw [hop j (by omega), h.devices j hj]

/-- A SYS8 has returned. -/
theorem log (h : c.IoInv io) (r : Returned) : c.IoInv { io with returned := r :: io.returned } :=
  ⟨h.value, h.waiters, h.devStatus, h.owed, h.devices⟩

/-- A process is to be resumed. -/
theorem owe (h : c.IoInv io) {p : Fin n} (status : Word) (hp : p ∈ c.lists.q .ready)
    (hstatus : (c.pS p).sReg sA1 = status) :
    c.IoInv { io with owed := Function.update io.owed p (some status) } := by
  refine ⟨h.value, h.waiters, h.devStatus, fun q status' hq => ?_, h.devices⟩
  change Function.update io.owed p (some status) q = some status' at hq
  by_cases hqp : q = p
  · subst hqp
    rw [Function.update_self] at hq
    exact ⟨hp, hstatus.trans (Option.some.inj hq)⟩
  · rw [Function.update_of_ne hqp] at hq
    exact h.owed q status' hq

end Core.IoInv

section

variable {areas : Fin n → TrapAreas} {c c' : Core n} {exit : Exit} {i : ℕ} {p : Fin n} {io : Io n}

theorem Effect.waitForIo_cases (h : Effect areas c (.waitForIo i) exit c') (hcur : c.cur = some p)
    (hexit : exit = .ldst ∨ exit = .getNewJob) :
    (¬ (c.mem (semArr i) + -1).toInt < 0 ∧
      c' = (c.add (semArr i) (-1)).save p ((c.pS p).setReg sA1 (c.devStatus i))) ∨
    ((c.mem (semArr i) + -1).toInt < 0 ∧
      c' = ((c.add (semArr i) (-1)).block p (semArr i)).soften 1) := by
  generalize hr : Request.waitForIo i = r at h
  cases h with
  | undefined => simp at hexit
  | kill r hcur hfatal =>
    subst hr
    exact hfatal.elim
  | ioDone hi hcur' hpos =>
    obtain rfl := Request.waitForIo.inj hr
    obtain rfl := Option.some.inj (hcur.symm.trans hcur')
    exact .inl ⟨hpos, rfl⟩
  | ioWait hi hcur' hneg =>
    obtain rfl := Request.waitForIo.inj hr
    obtain rfl := Option.some.inj (hcur.symm.trans hcur')
    exact .inr ⟨hneg, rfl⟩
  | _ => cases hr

theorem Effect.device_cases {status : Word} {keep : Bool}
    (h : Effect areas c (.device i status keep) exit c')
    (hexit : exit = .ldst ∨ exit = .getNewJob) :
    (¬ (c.mem (semArr i) + 1).toInt ≤ 0 ∧ c' = c.add (semArr i) 1) ∨
    ((c.mem (semArr i) + 1).toInt ≤ 0 ∧
      (c.lists.q (.blocked (semArr i)) = [] ∨
        ∃ q qs, c.lists.q (.blocked (semArr i)) = q :: qs ∧
          c' = ((((c.add (semArr i) 1).wake (semArr i) q qs).soften (-1)).save q
            ((c.pS q).setReg sA1 status)))) := by
  generalize hr : Request.device i status keep = r at h
  cases h with
  | undefined => simp at hexit
  | kill r hcur hfatal =>
    subst hr
    exact hfatal.elim
  | ioSignal _ _ hi hpos =>
    obtain ⟨rfl, -, -⟩ := Request.device.inj hr
    exact .inl ⟨hpos, rfl⟩
  | ioWake _ _ hi hneg hq =>
    obtain ⟨rfl, rfl, -⟩ := Request.device.inj hr
    exact .inr ⟨hneg, .inr ⟨_, _, hq, rfl⟩⟩
  | ioLost _ _ hi hneg hq =>
    obtain ⟨rfl, -, -⟩ := Request.device.inj hr
    exact .inr ⟨hneg, .inl hq⟩
  | _ => cases hr

omit [Layout] in
theorem Operation.mem_waiters {o : Option (Operation n)} {x : Fin n} (hx : x ∈ waiters o) :
    o = some (.waiting x) := by
  match o with
  | none | some (.started p) | some (.completed p status) => simp [waiters] at hx
  | some (.waiting p) =>
    rw [waiters, List.mem_singleton] at hx
    rw [hx]

/-- What SYS8 does for an operation. -/
theorem Effect.ioInv_wait (h : Effect areas c (.waitForIo i) exit c') (hinv : c.Inv)
    (hio : c.IoInv io) (hadmits : io.Admits c.cur (.waitForIo i)) (hi : i < devices)
    (htold : io.Told)
    (hcalm : ∀ j < devices, j ≠ i → c.Calm c' j)
    (howed : ∀ p status, io.owed p = some status →
      p ∈ c'.lists.q .ready ∧ (c'.pS p).sReg sA1 = status)
    (hexit : exit = .ldst ∨ exit = .getNewJob) :
    c'.IoInv (io.serve (.waitForIo i) c') ∧ (io.serve (.waitForIo i) c').Told := by
  obtain ⟨o, ho, hcur⟩ := hadmits hi
  have hvalue := hio.value i hi
  have hwaiters := hio.waiters i hi
  rw [ho] at hvalue hwaiters
  have hcases := h.waitForIo_cases hcur hexit
  cases o with
  | started p =>
    simp only [Operation.value] at hvalue
    have hserve : io.serve (.waitForIo i) c' = io.setOp i (some (.waiting p)) := by
      simp only [Io.serve, ho]
    have hneg : (c.mem (semArr i) + -1).toInt < 0 := by rw [hvalue]; decide
    obtain ⟨hpos, -⟩ | ⟨-, rfl⟩ := hcases
    · exact absurd hneg hpos
    rw [hserve]
    refine ⟨hio.setOp hi hcalm ?_ ?_ rfl howed, htold⟩
    · exact (c.add_mem_self _ _).trans (by rw [hvalue]; rfl)
    · simp only [Core.soften, Core.block, Core.add, Core.setMem, Lists.append_q, Lists.setSemAdd_q,
        Function.update_self, hwaiters]
      rfl
  | completed p status =>
    simp only [Operation.value] at hvalue
    have hserve : io.serve (.waitForIo i) c' = { io.setOp i .none with
        returned := ⟨false, status, (c'.pS p).sReg sA1⟩ :: io.returned } := by
      simp only [Io.serve, ho]
    have hpos : ¬ (c.mem (semArr i) + -1).toInt < 0 := by rw [hvalue]; decide
    obtain ⟨-, rfl⟩ | ⟨hneg, -⟩ := hcases
    swap
    · exact absurd hneg hpos
    rw [hserve]
    refine ⟨(hio.setOp (o := .none) hi hcalm ?_ hwaiters rfl howed).log _, ?_⟩
    · exact (c.add_mem_self _ _).trans (by rw [hvalue]; rfl)
    · -- the status of the completion is not in `devStatus`
      refine List.forall_mem_cons.mpr ⟨?_, htold⟩
      have ha1 : ((c.pS p).setReg sA1 (c.devStatus i)).sReg sA1 = 0 := by
        rw [State.setReg_self, hio.devStatus i hi]
      simpa [Core.save, Operation.issuer] using ha1
  | waiting p =>
    have hp : p ∈ c.lists.q (.blocked (semArr i)) := by
      rw [hwaiters]
      exact List.mem_singleton_self p
    exact absurd hp (hinv.ok.placed.loose p (by simp [hcur, Operation.issuer]) _)

/-- What the interrupt does for an operation. -/
theorem Effect.ioInv_device {status : Word} {keep : Bool}
    (h : Effect areas c (.device i status keep) exit c') (hio : c.IoInv io)
    (hadmits : io.Admits c.cur (.device i status keep)) (hi : i < devices) (htold : io.Told)
    (hcalm : ∀ j < devices, j ≠ i → c.Calm c' j)
    (howed : ∀ p status, io.owed p = some status →
      p ∈ c'.lists.q .ready ∧ (c'.pS p).sReg sA1 = status)
    (hexit : exit = .ldst ∨ exit = .getNewJob) :
    c'.IoInv (io.serve (.device i status keep) c') ∧
      (io.serve (.device i status keep) c').Told := by
  obtain ⟨o, ho, hpending⟩ := hadmits hi
  have hvalue := hio.value i hi
  have hwaiters := hio.waiters i hi
  rw [ho] at hvalue hwaiters
  have hcases := h.device_cases hexit
  cases o with
  | started p =>
    simp only [Operation.value] at hvalue
    have hserve : io.serve (.device i status keep) c' =
      io.setOp i (some (.completed p status)) := by
      simp only [Io.serve, ho]
    have hpos : ¬ (c.mem (semArr i) + 1).toInt ≤ 0 := by rw [hvalue]; decide
    obtain ⟨-, rfl⟩ | ⟨hneg, -⟩ := hcases
    swap
    · exact absurd hneg hpos
    rw [hserve]
    refine ⟨hio.setOp hi hcalm ?_ hwaiters rfl howed, htold⟩
    exact (c.add_mem_self _ _).trans (by rw [hvalue]; rfl)
  | completed p status => exact hpending.elim
  | waiting p =>
    simp only [Operation.value] at hvalue
    simp only [Operation.waiters] at hwaiters
    have hserve : io.serve (.device i status keep) c' = { io.setOp i .none with
        owed := Function.update io.owed p (some status) } := by
      simp only [Io.serve, ho]
    have hneg : (c.mem (semArr i) + 1).toInt ≤ 0 := by rw [hvalue]; decide
    obtain ⟨hpos, -⟩ | ⟨-, hnil | ⟨q, qs, hq, rfl⟩⟩ := hcases
    · exact absurd hneg hpos
    · rw [hwaiters] at hnil
      cases hnil
    rw [hwaiters] at hq
    obtain ⟨rfl, rfl⟩ := List.cons.inj hq
    rw [hserve]
    refine ⟨(hio.setOp (o := .none) hi hcalm ?_ ?_ rfl howed).owe status ?_ ?_, htold⟩
    · exact (c.add_mem_self _ _).trans (by rw [hvalue]; rfl)
    · simp [Core.save, Core.soften, Core.wake, Operation.waiters]
    · simp [Core.save, Core.soften, Core.wake]
    · simp [Core.save]

/-- Every live handler keeps what there is for the operations, if no issuer is freed. -/
theorem Effect.ioInv {r : Request} (h : Effect areas c r exit c') (hinv : c.Inv)
    (hio : c.IoInv io) (htold : io.Told) (hadmits : io.Admits c.cur r) (hlegal : r.Legal)
    (harea : ∀ i < devices, ∀ p type, c.cur = some p → r = .trap type → (areas p).old type ≠ null →
      ¬ InArea ((areas p).old type) (semArr i))
    (halive : ∀ p, io.Issuer p → p ∉ c'.lists.q .free)
    (hexit : exit = .ldst ∨ exit = .getNewJob) :
    c'.IoInv (io.serve r c') ∧ (io.serve r c').Told := by
  have howed : ∀ p status, io.owed p = some status →
      p ∈ c'.lists.q .ready ∧ (c'.pS p).sReg sA1 = status := fun p status hp => by
    obtain ⟨hready, hstatus⟩ := hio.owed p status hp
    obtain ⟨hready', hps⟩ := h.keepsReady hinv hexit p hready (halive p (.inr (by simp [hp])))
    exact ⟨hready', by rw [hps, hstatus]⟩
  have hcalm : ∀ j < devices, r ≠ .waitForIo j → (∀ status keep, r ≠ .device j status keep) →
      c.Calm c' j := fun j hj hwait hdevice => by
    refine h.calm hinv hj hwait hdevice hlegal (harea j hj) (fun x hx => halive x (.inl ?_)) hexit
    rw [hio.waiters j hj] at hx
    exact ⟨j, _, Operation.mem_waiters hx, rfl⟩
  cases r with
  | waitForIo i =>
    by_cases hi : i < devices
    · exact h.ioInv_wait hinv hio hadmits hi htold
        (fun j hj hji => hcalm j hj (by simpa using Ne.symm hji) (by simp)) howed hexit
    · have hserve : io.serve (.waitForIo i) c' = io := by
        simp only [Io.serve, hio.devices i (not_lt.mp hi)]
      rw [hserve]
      refine ⟨hio.calm (fun j hj => hcalm j hj ?_ (by simp)) howed, htold⟩
      rintro ⟨rfl⟩
      exact hi hj
  | device i status keep =>
    by_cases hi : i < devices
    · refine h.ioInv_device hio hadmits hi htold
        (fun j hj hji => hcalm j hj (by simp) ?_) howed hexit
      rintro _ _ ⟨rfl⟩
      exact hji rfl
    · have hserve : io.serve (.device i status keep) c' = io := by
        simp only [Io.serve, hio.devices i (not_lt.mp hi)]
      rw [hserve]
      refine ⟨hio.calm (fun j hj => hcalm j hj (by simp) ?_) howed, htold⟩
      rintro _ _ ⟨rfl⟩
      exact hi hj
  | _ => exact ⟨hio.calm (fun j hj => hcalm j hj (by simp) (by simp)) howed, htold⟩

end

/-! ## The processes that are resumed -/

section

omit [Layout]

variable (io : Io n) (c : Core n)

@[simp] theorem Io.resume_op : (io.resume c).op = io.op := by
  rw [resume]
  split
  · rfl
  · split <;> rfl

/-- The current process is owed nothing any more. -/
theorem Io.resume_owed {p : Fin n} {status : Word} (h : (io.resume c).owed p = some status) :
    io.owed p = some status ∧ c.cur ≠ some p := by
  rw [resume] at h
  split at h
  · rename_i hcur
    exact ⟨h, by simp [hcur]⟩
  · rename_i q hcur
    have hne : io.owed q = .none → p ≠ q := by
      rintro hq rfl
      split at h <;> simp_all
    split at h
    · rename_i hq
      exact ⟨h, by simpa [hcur] using (hne hq).symm⟩
    · change Function.update io.owed q .none p = some status at h
      have hpq : p ≠ q := by
        rintro rfl
        simp at h
      rw [Function.update_of_ne hpq] at h
      exact ⟨h, by simpa [hcur] using hpq.symm⟩

/-- The return of the SYS8 of the current process. -/
theorem Io.resume_returned {r : Returned} (h : r ∈ (io.resume c).returned) :
    r ∈ io.returned ∨ ∃ p status, c.cur = some p ∧ io.owed p = some status ∧
      r = ⟨true, status, (c.pS p).sReg sA1⟩ := by
  rw [resume] at h
  split at h
  · exact .inl h
  · rename_i p hcur
    split at h
    · exact .inl h
    · rename_i status howed
      obtain rfl | hr := List.mem_cons.mp h
      · exact .inr ⟨p, status, hcur, howed, rfl⟩
      · exact .inl hr

end

namespace Core.IoInv

variable {c c' : Core n} {io : Io n}

/-- The state of the current process is saved. -/
theorem entered (h : c.IoInv io) (hinv : c.Inv) (t : Trap) : (c.entered t).IoInv io := by
  rw [Core.entered]
  split
  · rename_i st p _ hcur
    refine h.calm (fun j _ => ⟨rfl, rfl, rfl⟩) fun q status hq => ?_
    obtain ⟨hready, hstatus⟩ := h.owed q status hq
    have hqp : q ≠ p := by
      rintro rfl
      exact hinv.ok.placed.loose q (by simp [hcur]) _ hready
    refine ⟨hready, ?_⟩
    change (Function.update c.pS p st q).sReg sA1 = status
    rw [Function.update_of_ne hqp, hstatus]
  · exact h

/-- The current process is resumed, if there is one. -/
theorem resume (h : c.IoInv io) (htold : io.Told) (hcalm : ∀ j < Jaeos.devices, c.Calm c' j)
    (hready : ∀ q ∈ c.lists.q .ready, c'.cur ≠ some q → q ∈ c'.lists.q .ready)
    (hps : c'.pS = c.pS) : c'.IoInv (io.resume c') ∧ (io.resume c').Told := by
  refine ⟨⟨fun j hj => ?_, fun j hj => ?_, fun j hj => ?_, fun q status hq => ?_, fun j hj => ?_⟩,
    fun r hr => ?_⟩
  · rw [Io.resume_op, (hcalm j hj).value, h.value j hj]
  · rw [Io.resume_op, (hcalm j hj).waiters, h.waiters j hj]
  · rw [(hcalm j hj).devStatus, h.devStatus j hj]
  · obtain ⟨howed, hcur⟩ := io.resume_owed c' hq
    obtain ⟨hqr, hstatus⟩ := h.owed q status howed
    exact ⟨hready q hqr hcur, by rw [hps, hstatus]⟩
  · rw [Io.resume_op, h.devices j hj]
  · obtain hold | ⟨p, status, -, howed, rfl⟩ := io.resume_returned c' hr
    · exact htold r hold
    · simp [hps, (h.owed p status howed).2]

/-- The scheduler resumes the oldest ready process. -/
theorem sched {v : Verdict} (h : c.IoInv io) (htold : io.Told) (hsched : Sched c v c') :
    c'.IoInv (io.resume c') ∧ (io.resume c').Told := by
  cases hsched with
  | @dispatch p ps hq =>
    refine h.resume htold (fun j _ => ⟨rfl, by simp [Core.dispatch], rfl⟩) (fun q hqr hqp => ?_) rfl
    have hne : q ≠ p := by
      rintro rfl
      exact hqp rfl
    rw [hq] at hqr
    simpa [Core.dispatch] using (List.mem_cons.mp hqr).resolve_left hne
  | halt | panic | wait | returns =>
    exact h.resume htold (fun j _ => ⟨rfl, rfl, rfl⟩) (fun q hqr _ => hqr) rfl

end Core.IoInv

/-! ## Every run -/

/-- What happens in a run with operations. -/
inductive IoEvent where
  /-- the current process starts an operation on the device `i` -/
  | start (i : ℕ)
  /-- an event of the machine -/
  | event (e : Event)

/-- The operations after an event that has left `c`. -/
def Io.next (io : Io n) (e : Event) (c : Config n) : Io n :=
  match e with
  | .write _ _ => io
  | .trap t _ _ => (io.serve t.request c.core).resume c.core

/-- The operations admit the event. -/
def Io.AdmitsEvent (io : Io n) (c : Config n) : Event → Prop
  | .write _ _ => True
  | .trap t _ _ => io.Admits c.core.cur t.request

/-- The steps of a run in which operations do not overlap, and no process is killed between the
start of its operation and the return of its SYS8. -/
inductive IoStep : Io n × Config n → IoEvent → Io n × Config n → Prop where
  /-- the current process starts an operation -/
  | start {io : Io n} {c : Config n} {i : ℕ} {p : Fin n} (hmode : c.mode = .running)
    (hcur : c.core.cur = some p) (hi : i < devices) (hidle : io.op i = none) :
    IoStep (io, c) (.start i) (io.setOp i (some (.started p)), c)
  /-- an event of the machine -/
  | event {io : Io n} {c c' : Config n} {e : Event} (hadmits : io.AdmitsEvent c e)
    (hstep : c.step e = some c') (halive : ∀ p, io.Issuer p → p ∉ c'.nuc.store.freeList) :
    IoStep (io, c) (.event e) (io.next e c', c')

/-- The runs with operations. -/
abbrev IoRun (tr : List ((Io n × Config n) × IoEvent)) (s : Io n × Config n) : Prop :=
  Transition.Run (fun s => s.1 = .none ∧ ∃ b : Boot n, b.config = some s.2) IoStep tr s

/-- Nobody but the nucleus changes the semaphores of the devices. -/
def Config.LeavesDevices (c : Config n) : IoEvent → Prop
  | .start _ => True
  | .event (.write a _) => ∀ i < devices, a ≠ semArr i
  | .event (.trap t _ _) => t.request.Legal ∧ ∀ i < devices, ∀ p type, c.core.cur = some p →
    t.request = .trap type → (c.nuc.store.trap p).old type ≠ null →
      ¬ InArea ((c.nuc.store.trap p).old type) (semArr i)

/-- The event kills safely. -/
def Config.IoSafe (c : Config n) : IoEvent → Prop
  | .start _ => True
  | .event e => c.KillSafe e

/-- What the nucleus keeps for the operations of a run. -/
structure Config.IoLaw (c : Config n) (io : Io n) : Prop where
  /-- the semaphore of a device is 0, if no operation has completed for which there is no SYS8
  yet, and no process waits -/
  value : ∀ i < devices, c.nuc.mem (semArr i) = Operation.value (io.op i)
  /-- the process that waits is blocked on the semaphore -/
  waiters : ∀ i < devices, c.nuc.store.blockedOn (semArr i) = Operation.waiters (io.op i)
  /-- it is not made ready before the interrupt -/
  blocked : ∀ i < devices, ∀ p, io.op i = some (.waiting p) →
    p ∉ c.nuc.store.readyList ∧ c.nuc.currentProcess ≠ some p
  /-- and it is made ready once by then, with the status in `a1` until it is resumed -/
  owed : ∀ p status, io.owed p = some status → c.nuc.store.readyList.count p = 1 ∧
    (∀ i < devices, p ∉ c.nuc.store.blockedOn (semArr i)) ∧
      (c.nuc.store.pS p).sReg sA1 = status

omit [Layout] in
/-- Only the saved states matter. -/
theorem Io.serve_congr (io : Io n) (r : Request) {c c' : Core n} (h : c'.pS = c.pS) :
    io.serve r c' = io.serve r c := by
  cases r <;> simp only [serve, h]

omit [Layout] in
/-- The scheduler leaves the saved states and the free list as they are. -/
theorem Sched.saved {c c' : Core n} {v : Verdict} (h : Sched c v c') :
    c'.pS = c.pS ∧ c'.lists.q .free = c.lists.q .free := by
  cases h with
  | dispatch => exact ⟨rfl, by simp [Core.dispatch]⟩
  | halt | panic | wait | returns => exact ⟨rfl, rfl⟩

namespace Core.IoInv

variable {c c' : Config n} {io : Io n}

/-- A trap keeps what there is for the operations. -/
theorem step_trap (hn : n ≤ maxProc) (h : c.core.IoInv io) (hsound : c.Sound) (htold : io.Told)
    {t : Trap} {todIn todOut : ℤ} (hadmits : io.Admits c.core.cur t.request)
    (hleaves : c.LeavesDevices (.event (.trap t todIn todOut)))
    (hsafe : c.KillSafe (.trap t todIn todOut))
    (halive : ∀ p, io.Issuer p → p ∉ c'.core.lists.q .free)
    (hstep : c.step (.trap t todIn todOut) = some c') (hlive : c'.mode.Live) :
    c'.core.IoInv (io.next (.trap t todIn todOut) c') ∧
      (io.next (.trap t todIn todOut) c').Told := by
  obtain ⟨exit, k, heffect, hfinish, -⟩ := hsound.trap_cases hn hsafe hstep
  rw [← c.core.entered_cur t] at hadmits
  have hk := heffect.ioInv (hsound.inv.entered t) (h.entered hsound.inv t) htold hadmits hleaves.1
    fun i hi p type hcur => hleaves.2 i hi p type (c.core.entered_cur t ▸ hcur)
  cases exit with
  | ldst =>
    obtain ⟨-, rfl⟩ := hfinish
    obtain ⟨hinv, htold'⟩ := hk halive (.inl rfl)
    exact hinv.resume htold' (fun j _ => ⟨rfl, rfl, rfl⟩) (fun q hq _ => hq) rfl
  | getNewJob =>
    obtain ⟨-, v, -, hsched⟩ := hfinish
    obtain ⟨hps, hfree⟩ := hsched.saved
    obtain ⟨hinv, htold'⟩ := hk (by rwa [hfree] at halive) (.inr rfl)
    rw [Io.next, io.serve_congr t.request hps]
    exact hinv.sched htold' hsched
  | panic =>
    rw [hfinish] at hlive
    simp [Mode.Live] at hlive
  | undefined =>
    rw [hfinish] at hlive
    simp [Mode.Live] at hlive

/-- What is kept for the operations is the law. -/
theorem law (h : c.core.IoInv io) (hsound : c.Sound) : c.IoLaw io where
  value := h.value
  waiters := h.waiters
  blocked i hi p hop := by
    have hp : p ∈ c.core.lists.q (.blocked (semArr i)) := by
      rw [h.waiters i hi, hop]
      exact List.mem_singleton_self p
    refine ⟨fun hready => ?_, fun hcur => ?_⟩
    · have hplace := hsound.inv.ok.placed.eq_of_mem (i := .ready) hready hp
      cases hplace
    · have hcur : c.core.cur = some p := hcur
      exact hsound.inv.ok.placed.loose p (by simp [hcur]) _ hp
  owed p status hp := by
    obtain ⟨hready, hstatus⟩ := h.owed p status hp
    have hnd := hsound.inv.ok.placed.nodup .ready
    refine ⟨List.count_eq_one_of_mem hnd hready, fun i _ hblocked => ?_, hstatus⟩
    have hblocked : p ∈ c.core.lists.q (.blocked (semArr i)) := hblocked
    have hplace := hsound.inv.ok.placed.eq_of_mem hready hblocked
    cases hplace

end Core.IoInv

/-- The operations after a step. -/
theorem Config.Sound.step_io (hn : n ≤ maxProc) {s s' : Io n × Config n} {e : IoEvent}
    (hsound : s.2.Sound) (h : s.2.core.IoInv s.1) (htold : s.1.Told) (hleaves : s.2.LeavesDevices e)
    (hsafe : s.2.IoSafe e) (hstep : IoStep s e s') (hlive : s'.2.mode.Live) :
    s'.2.Sound ∧ s'.2.core.IoInv s'.1 ∧ s'.1.Told := by
  cases hstep with
  | @start io c i p hmode hcur hi hidle =>
    have hvalue := h.value i hi
    have hwaiters := h.waiters i hi
    rw [hidle] at hvalue hwaiters
    exact ⟨hsound, h.setOp hi (fun j _ _ => ⟨rfl, rfl, rfl⟩) hvalue hwaiters rfl h.owed, htold⟩
  | @event io c c' e hadmits hstep halive =>
    refine ⟨hsound.step hn hsafe hstep hlive, ?_⟩
    cases e with
    | write a v =>
      have hold := Config.step_live hstep
      rw [Config.step, if_pos hold] at hstep
      obtain rfl := Option.some.inj hstep
      have hne : ∀ j < devices, semArr j ≠ a := fun j hj => (hleaves j hj).symm
      exact ⟨h.calm (fun j hj => ⟨Function.update_of_ne (hne j hj) .., rfl, rfl⟩) h.owed, htold⟩
    | trap t todIn todOut =>
      have hlists : c'.core.lists.q .free = c'.nuc.store.freeList := rfl
      rw [← hlists] at halive
      exact h.step_trap hn hsound htold hadmits hleaves hsafe halive hstep hlive

/-- In a run in which operations do not overlap and whose kills are safe, the nucleus keeps the law
of the operations; and the SYS8s that have returned were told the status of their operations exactly
when each operation that had completed before its SYS8 had completed with status 0. -/
theorem device_io (hn : n ≤ maxProc) {tr : List ((Io n × Config n) × IoEvent)} {io : Io n}
    {c : Config n} (hrun : IoRun tr (io, c)) (hleaves : ∀ x ∈ tr, x.1.2.LeavesDevices x.2)
    (hsafe : ∀ x ∈ tr, x.1.2.IoSafe x.2) (hlive : c.mode.Live) :
    c.IoLaw io ∧ ((∀ r ∈ io.returned, r.a1 = r.status) ↔
      ∀ r ∈ io.returned, r.waited = false → r.status = 0) := by
  obtain ⟨hsound, hinv, htold⟩ : c.Sound ∧ c.core.IoInv io ∧ io.Told := by
    refine hrun.invariant (I := fun s => s.2.mode.Live → s.2.Sound ∧ s.2.core.IoInv s.1 ∧ s.1.Told)
      (G := fun s e => s.2.LeavesDevices e ∧ s.2.IoSafe e) ?_ ?_
      (fun x hx => ⟨hleaves x hx, hsafe x hx⟩) hlive
    · rintro ⟨io, c⟩ ⟨rfl, b, hb⟩ hlive
      obtain ⟨hsound, k, p, hbooted, -, hcore⟩ := Config.Sound.boot hn hb hlive
      refine ⟨hsound, ?_, fun r hr => by cases hr⟩
      rw [hcore]
      refine ⟨fun i hi => hbooted.sems i (devices_le hi), fun i hi => ?_,
        fun i hi => hbooted.devStatus i (devices_le hi), fun p status hp => (by cases hp),
        fun i _ => rfl⟩
      simpa [Core.dispatch, Operation.waiters, Io.none] using hbooted.blocked (semArr i)
    · intro s e s' hs hok hstep hlive
      have hold : s.2.mode.Live := by
        cases hstep with
        | start hmode => exact .inl hmode
        | event hadmits hstep => exact Config.step_live hstep
      obtain ⟨hsound, hinv, htold⟩ := hs hold
      exact hsound.step_io hn hinv htold hok.1 hok.2 hstep hlive
  refine ⟨hinv.law hsound, forall₂_congr fun r hr => ?_⟩
  have ha1 := htold r hr
  cases hwaited : r.waited with
  | false =>
    simp only [hwaited] at ha1
    rw [ha1]
    simpa using eq_comm
  | true =>
    simp only [hwaited] at ha1
    simpa using ha1

/-! ### One operation on a disk -/

section

omit [Layout]

/-- One operation, on disk 0. -/
def Io.disk (o : Operation n) : Io n := Io.none.setOp 0 (some o)

theorem Io.disk_issuer {o : Operation n} {p : Fin n} (h : (Io.disk o).Issuer p) : o.issuer = p := by
  obtain ⟨i, o', ho, hp⟩ | howed := h
  · change Function.update (fun _ => Option.none) 0 (some o) i = some o' at ho
    by_cases hi : i = 0
    · rw [hi, Function.update_self] at ho
      rw [Option.some.inj ho, hp]
    · rw [Function.update_of_ne hi] at ho
      cases ho
  · exact absurd rfl howed

theorem Io.disk_setOp (o o' : Operation n) : (Io.disk o).setOp 0 (some o') = Io.disk o' := by
  simp [disk, setOp]

/-- Nobody is owed anything. -/
theorem Io.disk_resume (o : Operation n) (c : Core n) : (Io.disk o).resume c = Io.disk o := by
  rw [resume]
  split
  · rfl
  · split
    · rfl
    · rename_i h
      cases h

end

/-- An operation on disk 0, of which an event makes `o` and another one `io`. -/
theorem IoRun.disk {b : Boot n} {c₀ c₁ c₂ : Config n} {p : Fin n} {e₁ e₂ : Event}
    {o : Operation n} (hb : b.config = some c₀) (hmode : c₀.mode = .running)
    (hcur : c₀.core.cur = some p) (hadmits₁ : (Io.disk (.started p)).AdmitsEvent c₀ e₁)
    (hstep₁ : c₀.step e₁ = some c₁) (halive₁ : p ∉ c₁.nuc.store.freeList)
    (hnext : (Io.disk (.started p)).next e₁ c₁ = Io.disk o) (ho : o.issuer = p)
    (hadmits₂ : (Io.disk o).AdmitsEvent c₁ e₂) (hstep₂ : c₁.step e₂ = some c₂)
    (halive₂ : p ∉ c₂.nuc.store.freeList) :
    IoRun [((Io.disk o, c₁), .event e₂), ((Io.disk (.started p), c₀), .event e₁),
      ((Io.none, c₀), .start 0)] ((Io.disk o).next e₂ c₂, c₂) := by
  have hstart : IoRun [((Io.none, c₀), .start 0)] (Io.disk (.started p), c₀) :=
    .next (.start ⟨rfl, b, hb⟩) (.start hmode hcur (by decide) rfl)
  have hfirst : IoStep (Io.disk (.started p), c₀) (.event e₁) (Io.disk o, c₁) := by
    rw [← hnext]
    exact .event hadmits₁ hstep₁ fun q hq => Io.disk_issuer hq ▸ halive₁
  have hsecond : IoStep (Io.disk o, c₁) (.event e₂) ((Io.disk o).next e₂ c₂, c₂) :=
    .event hadmits₂ hstep₂ fun q hq => (ho ▸ Io.disk_issuer hq : p = q) ▸ halive₂
  exact (hstart.next hfirst).next hsecond

omit [Layout] in
/-- The first process waits for an operation on disk 0, and is resumed with its status. -/
theorem device_io_wait : ∃ (_ : Layout) (tr : List ((Io maxProc × Config maxProc) × IoEvent))
    (io : Io maxProc) (c : Config maxProc),
      tr.map Prod.snd = [.event (.disk 1 20), .event (.call 8 3 0 0 10), .start 0] ∧
        IoRun tr (io, c) ∧ io.returned.length = 1 ∧ c.IoLaw io ∧
          ∀ r ∈ io.returned, r.a1 = r.status := by
  refine ⟨sampleLayout, ?_⟩
  let _ := sampleLayout
  have hexec : Boot.zero.config.bind (fun c₀ => (c₀.step (.call 8 3 0 0 10)).bind fun c₁ =>
      (c₁.step (.disk 1 20)).map fun c₂ => ([c₀.mode, c₂.mode], [c₀.core.cur, c₂.core.cur],
        decide (0 ∈ c₁.nuc.store.freeList ++ c₂.nuc.store.freeList))) =
      some ([.running, .running], [some 0, some 0], false) := by
    decide +kernel
  obtain ⟨c₀, hb, hrest⟩ := Option.bind_eq_some_iff.mp hexec
  obtain ⟨c₁, hstep₁, hrest⟩ := Option.bind_eq_some_iff.mp hrest
  obtain ⟨c₂, hstep₂, hrest⟩ := Option.map_eq_some_iff.mp hrest
  simp only [Prod.mk.injEq, List.cons.injEq, decide_eq_false_iff_not, List.mem_append,
    not_or] at hrest
  obtain ⟨⟨hmode, hmode₂, -⟩, ⟨hcur, hcur₂, -⟩, halive₁, halive₂⟩ := hrest
  have hserve : (Io.disk (.started 0)).serve (.waitForIo 0) c₁.core = Io.disk (.waiting 0) :=
    Io.disk_setOp ..
  have hnext : (Io.disk (.started 0)).next (.call 8 3 0 0 10) c₁ = Io.disk (.waiting 0) :=
    (congrArg (·.resume c₁.core) hserve).trans (Io.disk_resume ..)
  have hadmits₁ : (Io.disk (.started 0)).AdmitsEvent c₀ (.call 8 3 0 0 10) :=
    fun _ => ⟨_, rfl, hcur⟩
  have hadmits₂ : (Io.disk (.waiting 0)).AdmitsEvent c₁ (.disk 1 20) := fun _ => ⟨_, rfl, trivial⟩
  have hrun := IoRun.disk hb hmode hcur hadmits₁ hstep₁ halive₁ hnext rfl hadmits₂ hstep₂ halive₂
  have hreturned : ((Io.disk (.waiting 0)).next (.disk 1 20) c₂).returned =
      [⟨true, 1, (c₂.core.pS 0).sReg sA1⟩] := by
    change (((Io.disk (.waiting 0)).serve (.device 0 1 true) c₂.core).resume c₂.core).returned = _
    simp only [Io.resume, hcur₂]
    rfl
  have hdisk : c₁.LeavesDevices (.event (.disk 1 20)) :=
    ⟨trivial, fun i hi p type _ hr => by cases hr⟩
  have hcall : c₀.LeavesDevices (.event (.call 8 3 0 0 10)) :=
    ⟨trivial, fun i hi p type _ hr => by cases hr⟩
  obtain ⟨hlaw, hiff⟩ := device_io le_rfl hrun
    (List.forall_mem_cons.mpr
      ⟨hdisk, List.forall_mem_cons.mpr ⟨hcall, by simp [Config.LeavesDevices]⟩⟩)
    (List.forall_mem_cons.mpr ⟨fun p _ hfatal => hfatal.elim,
      List.forall_mem_cons.mpr ⟨fun p _ hfatal => hfatal.elim, by simp [Config.IoSafe]⟩⟩)
    (.inl hmode₂)
  refine ⟨_, _, c₂, rfl, hrun, by rw [hreturned]; rfl, hlaw, hiff.mpr fun r hr => ?_⟩
  rw [hreturned] at hr
  rw [List.mem_singleton.mp hr]
  simp

omit [Layout] in
/-- When the interrupt of disk 0 comes before the SYS8, the process is resumed with 0. -/
theorem device_io_fails : ¬ ∀ (_ : Layout) (tr : List ((Io maxProc × Config maxProc) × IoEvent))
    (io : Io maxProc) (c : Config maxProc), IoRun tr (io, c) →
      (∀ x ∈ tr, x.1.2.LeavesDevices x.2) → c.mode.Live →
        c.IoLaw io ∧ ∀ r ∈ io.returned, r.a1 = r.status := by
  intro h
  let _ := sampleLayout
  have hexec : Boot.zero.config.bind (fun c₀ => (c₀.step (.disk 1 10)).bind fun c₁ =>
      (c₁.step (.call 8 3 0 0 20)).map fun c₂ => ([c₀.mode, c₂.mode],
        [c₀.core.cur, c₁.core.cur, c₂.core.cur],
          decide (0 ∈ c₁.nuc.store.freeList ++ c₂.nuc.store.freeList), (c₂.core.pS 0).sReg sA1)) =
      some ([.running, .running], [some 0, some 0, some 0], false, 0) := by
    decide +kernel
  obtain ⟨c₀, hb, hrest⟩ := Option.bind_eq_some_iff.mp hexec
  obtain ⟨c₁, hstep₁, hrest⟩ := Option.bind_eq_some_iff.mp hrest
  obtain ⟨c₂, hstep₂, hrest⟩ := Option.map_eq_some_iff.mp hrest
  simp only [Prod.mk.injEq, List.cons.injEq, decide_eq_false_iff_not, List.mem_append,
    not_or] at hrest
  obtain ⟨⟨hmode, hmode₂, -⟩, ⟨hcur, hcur₁, hcur₂, -⟩, ⟨halive₁, halive₂⟩, ha1⟩ := hrest
  have hserve : (Io.disk (.started 0)).serve (.device 0 1 true) c₁.core =
      Io.disk (.completed 0 1) := Io.disk_setOp ..
  have hnext : (Io.disk (.started 0)).next (.disk 1 10) c₁ = Io.disk (.completed 0 1) :=
    (congrArg (·.resume c₁.core) hserve).trans (Io.disk_resume ..)
  have hadmits₁ : (Io.disk (.started 0)).AdmitsEvent c₀ (.disk 1 10) :=
    fun _ => ⟨_, rfl, trivial⟩
  have hadmits₂ : (Io.disk (.completed 0 1)).AdmitsEvent c₁ (.call 8 3 0 0 20) :=
    fun _ => ⟨_, rfl, hcur₁⟩
  have hrun := IoRun.disk hb hmode hcur hadmits₁ hstep₁ halive₁ hnext rfl hadmits₂ hstep₂ halive₂
  have hreturned : ((Io.disk (.completed 0 1)).next (.call 8 3 0 0 20) c₂).returned =
      [⟨false, 1, (c₂.core.pS 0).sReg sA1⟩] := by
    change (((Io.disk (.completed 0 1)).serve (.waitForIo 0) c₂.core).resume c₂.core).returned = _
    simp only [Io.resume, hcur₂]
    rfl
  have hdisk : c₀.LeavesDevices (.event (.disk 1 10)) :=
    ⟨trivial, fun i hi p type _ hr => by cases hr⟩
  have hcall : c₁.LeavesDevices (.event (.call 8 3 0 0 20)) :=
    ⟨trivial, fun i hi p type _ hr => by cases hr⟩
  obtain ⟨-, htold⟩ := h _ _ _ c₂ hrun
    (List.forall_mem_cons.mpr
      ⟨hcall, List.forall_mem_cons.mpr ⟨hdisk, by simp [Config.LeavesDevices]⟩⟩)
    (.inl hmode₂)
  have hstatus := htold ⟨false, 1, (c₂.core.pS 0).sReg sA1⟩ (by rw [hreturned]; simp)
  rw [ha1] at hstatus
  cases hstatus

end Jaeos
