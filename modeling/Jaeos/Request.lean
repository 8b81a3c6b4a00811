import Jaeos.Machine

/-!
# What a trap asks for

`Trap.request` reads from the saved registers and the device registers which
service a trap asks for. The contracts of the handlers are stated by request.
-/

namespace Jaeos

variable {n : ℕ}

/-- The services of the nucleus. -/
inductive Request where
  /-- SYS1, with the address of the state -/
  | create (a : ℕ)
  /-- SYS2 -/
  | terminate
  /-- SYS3, with the address of the semaphore -/
  | verhogen (a : ℕ)
  /-- SYS4, with the address of the semaphore -/
  | passeren (a : ℕ)
  /-- SYS5, with the trap types its `switch` goes through -/
  | sesv (types : List TrapType)
  /-- SYS6 -/
  | getCpuTime
  /-- SYS7 -/
  | waitForClock
  /-- SYS8, with the index of the device semaphore -/
  | waitForIo (i : ℕ)
  /-- a trap that is passed up, or kills the process -/
  | trap (type : TrapType)
  /-- the interval timer -/
  | timer
  /-- a device interrupt, with the index of the semaphore, the status of the device and whether
  it is kept when no process waits for it -/
  | device (i : ℕ) (status : Word) (keep : Bool)
  /-- an interrupt without a pending line -/
  | spurious

/-- The state with which a system call is resumed. -/
def State.afterCall (old : State) : State := old.setReg sPc (old.sReg sPc + 8)

@[simp] theorem State.afterCall_sReg (old : State) {r : Fin stateRegNum} (h : r ≠ sPc) :
    old.afterCall.sReg r = old.sReg r := State.setReg_ne old _ h

/-- The state in which an interrupted process is resumed. -/
def State.afterInterrupt (old : State) : State := old.setReg sPc (old.sReg sPc - 4)

@[simp] theorem State.afterInterrupt_sReg (old : State) {r : Fin stateRegNum} (h : r ≠ sPc) :
    old.afterInterrupt.sReg r = old.sReg r := State.setReg_ne old _ h

/-- The service a system call asks for. -/
def SysCall.request (old : State) : SysCall → Request
  | .createProcess => .create (old.sReg sA2).toNat
  | .terminateProcess => .terminate
  | .verhogen => .verhogen (old.sReg sA2).toNat
  | .passeren => .passeren (old.sReg sA2).toNat
  | .sesv => .sesv (sysFiveCases (old.sReg sA2))
  | .getCpuTime => .getCpuTime
  | .waitForClock => .waitForClock
  | .waitForIo => .waitForIo (ioSemDev old).toNat

/-- The service an interrupt asks for. -/
def interruptRequest (old : State) (bitmap : ℕ → Word) (devReg : ℕ → Device) : Request :=
  if pendingOn old 0x04 then .timer
  else
    match interruptLine old with
    | none => .spurious
    | some lineNum =>
      let devNum := getDeviceNumber (bitmap (lineNum - 3))
      if lineNum = 7 then
        let index := 4 * devPerInt + devNum
        let dev := devReg index
        if dev.dData0 &&& 0x0F = ready then .device index dev.dStatus false
        else .device (index + devPerInt) dev.dData0 false
      else
        let index := devPerInt * (lineNum - 3) + devNum
        .device index (devReg index).dStatus true

/-- The handler reads the request after it has changed the pc. -/
theorem State.afterInterrupt_request (old : State) (bitmap : ℕ → Word) (devReg : ℕ → Device) :
    interruptRequest old.afterInterrupt bitmap devReg = interruptRequest old bitmap devReg := by
  have hpending : ∀ bit, pendingOn old.afterInterrupt bit = pendingOn old bit := fun bit => by
    rw [pendingOn, pendingOn, old.afterInterrupt_sReg (by decide)]
  simp only [interruptRequest, interruptLine, hpending]

namespace Trap

/-- The service a trap asks for. -/
def request : Trap → Request
  | .sysCall old =>
    let call := SysCall.ofNum (old.sReg sA1)
    if old.sReg sCpsr &&& systemMode = systemMode then
      match call with
      | some call => call.request old
      | none => .trap .sysTrap
    else if call.isSome then .trap .progTrap
    else .trap .sysTrap
  | .progTrap _ => .trap .progTrap
  | .tlbTrap _ => .trap .tlbTrap
  | .interrupt old bitmap devReg => interruptRequest old bitmap devReg

/-- The state that is saved in the current process on the way in. -/
def saved : Trap → Option State
  | .sysCall old => some old.afterCall
  | .interrupt old _ _ => some old.afterInterrupt
  | _ => none

end Trap

/-- The request comes from an interrupt. -/
def Request.Interrupt : Request → Prop
  | .timer | .device _ _ _ | .spurious => True
  | _ => False

theorem interruptRequest_interrupt (old : State) (bitmap : ℕ → Word) (devReg : ℕ → Device) :
    (interruptRequest old bitmap devReg).Interrupt := by
  rw [interruptRequest]
  split
  · trivial
  · split
    · trivial
    · dsimp only
      split
      · split
        · trivial
        · trivial
      · trivial

/-- The services of the `switch` come from a system call in system mode. -/
theorem Trap.call_cases {t : Trap} (htrap : ∀ type, t.request ≠ .trap type)
    (hint : ¬ t.request.Interrupt) : ∃ old call, t = .sysCall old ∧
      old.sReg sCpsr &&& systemMode = systemMode ∧ SysCall.ofNum (old.sReg sA1) = some call ∧
        t.request = call.request old := by
  cases t with
  | progTrap old | tlbTrap old => exact absurd rfl (htrap _)
  | interrupt old bitmap devReg => exact absurd (interruptRequest_interrupt ..) hint
  | sysCall old =>
    rw [Trap.request] at htrap ⊢
    split at htrap
    · rename_i hsys
      rw [if_pos hsys]
      cases hcall : SysCall.ofNum (old.sReg sA1) with
      | none =>
        rw [hcall] at htrap
        exact absurd rfl (htrap _)
      | some call => exact ⟨old, call, rfl, hsys, hcall, rfl⟩
    · split at htrap
      · exact absurd rfl (htrap _)
      · exact absurd rfl (htrap _)

/-- The handler tests the mode after it has changed the pc. -/
theorem afterCall_system {old : State} (hsys : old.sReg sCpsr &&& systemMode = systemMode) :
    (old.setReg sPc (old.sReg sPc + 8)).sReg sCpsr &&& systemMode = systemMode := by
  have hkeep : (old.setReg sPc (old.sReg sPc + 8)).sReg sCpsr = old.sReg sCpsr :=
    old.afterCall_sReg (by decide)
  rw [hkeep]
  exact hsys

/-- The service kills the process that asks for it. -/
def Request.Fatal (areas : TrapAreas) : Request → Prop
  | .terminate => True
  | .sesv types => ∀ type ∈ types, areas.old type ≠ null
  | .trap type => areas.old type = null
  | _ => False

instance (areas : TrapAreas) (r : Request) : Decidable (r.Fatal areas) :=
  match r with
  | .terminate => isTrue trivial
  | .sesv types => inferInstanceAs (Decidable (∀ type ∈ types, areas.old type ≠ null))
  | .trap type => inferInstanceAs (Decidable (areas.old type = null))
  | .create _ | .verhogen _ | .passeren _ | .getCpuTime | .waitForClock | .waitForIo _ | .timer
  | .device _ _ _ | .spurious => isFalse id

end Jaeos
