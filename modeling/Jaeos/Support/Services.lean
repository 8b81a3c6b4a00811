import Jaeos.Clock
import Jaeos.Support.Caller
import Jaeos.Support.InitProc
import Jaeos.Support.Sections

/-!
# How the nucleus takes the calls of the handlers

A handler of the support level starts in the state that `uProcInit` has put into
the new area of its process. The nucleus carries out its calls if they come from
system mode, and makes a program trap of them if they do not. The handler is
followed from the set-up of the areas over the exception that starts it to its
end.
-/

namespace Jaeos

variable {n : ℕ}

/-! ## Passing up -/

section

variable [Layout] {c : Nucleus n} {p : Fin n}

/-- The process `p` is resumed in the state at `a'`, after something has been stored at `a`. -/
def Installed (mem : ℕ → Word) (p : Fin n) (a a' : ℕ) (exit : Exit) (c : Nucleus n) : Prop :=
  exit = .ldst ∧ ∃ st, c.store.pS p = readState (writeState mem a st) a'

/-- `passUpOrDie` loads the new area. -/
theorem does_passUp {type : TrapType} (hcur : c.currentProcess = some p)
    (hold : (c.store.trap p).old type ≠ null) :
    (passUpOrDie (n := n) type).wp NucOp.does
      (Installed c.mem p ((c.store.trap p).old type) ((c.store.trap p).new type)) c := by
  simp only [passUpOrDie, Prog.wp_bind, does_globals, hcur]
  simp only [Prog.wp_bind, does_data, Prog.wp_ite, does_modifyGlobals, does_globals, does_setState]
  rw [if_pos hold]
  simp only [headBackHome, Prog.wp_bind, does_globals, hcur]
  exact ⟨rfl, _, Function.update_self ..⟩

/-- A trap that is passed up resumes the process in its new area. -/
theorem does_handle_passUp {t : Trap} {type : TrapType} (todIn todOut : ℤ)
    (ht : t.request = .trap type) (hcur : c.currentProcess = some p)
    (hold : (c.store.trap p).old type ≠ null) :
    (t.handle todIn todOut).wp NucOp.does
      (Installed c.mem p ((c.store.trap p).old type) ((c.store.trap p).new type)) c := by
  simp only [Trap.handle, Prog.wp_bind, does_modifyGlobals, does_modifyClock]
  cases t with
  | progTrap old =>
    obtain rfl : TrapType.progTrap = type := Request.trap.inj ht
    exact does_passUp hcur hold
  | tlbTrap old =>
    obtain rfl : TrapType.tlbTrap = type := Request.trap.inj ht
    exact does_passUp hcur hold
  | interrupt old bitmap devReg =>
    have hint := interruptRequest_interrupt old bitmap devReg
    rw [show interruptRequest old bitmap devReg = .trap type from ht] at hint
    exact hint.elim
  | sysCall old =>
    have hcpsr : (old.setReg sPc (old.sReg sPc + 8)).sReg sCpsr = old.sReg sCpsr :=
      old.afterCall_sReg (by decide)
    simp only [Trap.handler, sysCallHandler, Prog.wp_bind, does_globals, does_modifyGlobals,
      Trap.enter, hcur]
    simp only [does_setState, hcpsr]
    rw [Trap.request] at ht
    by_cases hsys : old.sReg sCpsr &&& systemMode = systemMode
    · rw [if_pos hsys] at ht ⊢
      cases hcall : SysCall.ofNum (old.sReg sA1) with
      | none =>
        rw [hcall] at ht
        obtain rfl : TrapType.sysTrap = type := Request.trap.inj ht
        exact does_passUp rfl hold
      | some call =>
        rw [hcall] at ht
        cases call <;> cases ht
    · rw [if_neg hsys] at ht ⊢
      rw [Prog.wp_ite]
      split
      · rename_i hsome
        rw [if_pos hsome] at ht
        obtain rfl : TrapType.progTrap = type := Request.trap.inj ht
        simp only [Prog.wp_bind, does_modifyGlobals]
        exact does_passUp rfl hold
      · rename_i hnone
        rw [if_neg hnone] at ht
        obtain rfl : TrapType.sysTrap = type := Request.trap.inj ht
        exact does_passUp rfl hold

/-- A step that passes up a trap leaves the process in the state of its new area, if that is not
overwritten by the old one. -/
theorem Config.step_passUp {c c' : Config n} {t : Trap} {type : TrapType} {todIn todOut : ℤ}
    {st : State} (ht : t.request = .trap type) (hcur : c.nuc.currentProcess = some p)
    (hold : (c.nuc.store.trap p).old type ≠ null)
    (harea : ∀ old, readState (writeState c.nuc.mem ((c.nuc.store.trap p).old type) old)
      ((c.nuc.store.trap p).new type) = st)
    (hstep : c.step (.trap t todIn todOut) = some c') : c'.nuc.store.pS p = st := by
  obtain ⟨exit, hreact⟩ := Config.step_react hstep
  obtain ⟨nuc, hhandle, hended⟩ := Config.react_ended hreact
  obtain ⟨rfl, old, hpS⟩ := Prog.of_liberal (does_handle_passUp todIn todOut ht hcur hold) hhandle
  have hnuc : c'.nuc = nuc := hended.2
  rw [hnuc, hpS, harea]

end

/-! ## The new areas -/

/-- The new areas of a process. -/
abbrev NewAreas : Type := TrapType → Fin stateRegNum → Word

/-- What is written to them. -/
def NewAreas.see : ∀ β, SupOp β → β → NewAreas → NewAreas
  | _, .writeNew _ type r v, _, g => fun t i => if t = type ∧ i = r then v else g t i
  | _, _, _, g => g

/-- The area of a type starts a handler of `pc`, with all bits of the status off. -/
def NewAreas.Ready (pc : Handler → Word) (g : NewAreas) (type : TrapType) : Prop :=
  g type sCpsr = allOff ∧ g type sPc = pc type.handler

section

variable [Support] {pc : Handler → Word}

/-- The contract of the set-up: results do not matter. -/
abbrev NewAreas.contract : Prog.Contract SupOp NewAreas :=
  Prog.tracked (fun _ _ _ _ => True) (fun _ _ _ _ => True) NewAreas.see

theorem setUpTrap_ready {procID : ℤ} {type : TrapType} {g : NewAreas} {Q : Unit → NewAreas → Prop}
    {E : End → NewAreas → Prop} (hQ : ∀ g' : NewAreas, g'.Ready pc type →
      (∀ other, other ≠ type → g.Ready pc other → g'.Ready pc other) → Q () g') :
    Prog.wpx NewAreas.contract (setUpTrap pc procID type) Q E g := by
  simp only [setUpTrap, Prog.wpx_bind, wpx_sup, Prog.tracked, NewAreas.see]
  simp only [true_and, forall_const]
  refine fun _ => hQ _ ⟨?_, ?_⟩ fun other hne hother => ⟨?_, ?_⟩
  · simp [sCpsr, sPc, sSp, sControl]
  · simp
  · simpa [hne] using hother.1
  · simpa [hne] using hother.2

omit [Support] in
/-- An operation that writes no new area. -/
theorem NewAreas.other {α : Type} {o : SupOp α} {g : NewAreas} {Q : α → NewAreas → Prop}
    {E : End → NewAreas → Prop} (hsee : ∀ b, NewAreas.see α o b g = g) (hQ : ∀ b, Q b g) :
    Prog.wpx NewAreas.contract (sup o) Q E g := by
  refine fun b _ => ⟨trivial, ?_⟩
  rw [hsee]
  exact hQ b

omit [Support] in
theorem NewAreas.enableInterrupts {b : Bool} {g : NewAreas} {Q : Unit → NewAreas → Prop}
    {E : End → NewAreas → Prop} (hQ : Q () g) :
    Prog.wpx NewAreas.contract (Jaeos.enableInterrupts b) Q E g := by
  simp only [Jaeos.enableInterrupts, Prog.wpx_bind]
  exact other (fun _ => rfl) fun _ => other (fun _ => rfl) fun _ => hQ

omit [Support] in
theorem loadTape_areas {procID : ℤ} {fuel : ℕ} {block : ℤ} {g : NewAreas}
    {Q : Unit → NewAreas → Prop} {E : End → NewAreas → Prop} (hQ : Q () g) (hE : E .stuck g) :
    Prog.wpx NewAreas.contract (loadTape procID fuel block) Q E g := by
  induction fuel generalizing block with
  | zero => exact hE
  | succ fuel ih =>
    simp only [loadTape, Prog.wpx_bind]
    refine NewAreas.enableInterrupts (NewAreas.other (fun _ => rfl) fun _ => ?_)
    refine NewAreas.other (fun _ => rfl) fun _ => NewAreas.other (fun _ => rfl) fun _ => ?_
    refine NewAreas.enableInterrupts (NewAreas.other (fun _ => rfl) fun _ => ?_)
    refine NewAreas.enableInterrupts (NewAreas.other (fun _ => rfl) fun _ => ?_)
    refine NewAreas.other (fun _ => rfl) fun _ => NewAreas.enableInterrupts ?_
    have hend : ∀ tapeStatus, Prog.wpx NewAreas.contract
      (sup (.verhogen (.mutexSemArray backingStore)))
        (fun _ => Prog.wpx NewAreas.contract (sup (.readDev (tapeDev procID) .dData1))
          (fun marker => Prog.wpx NewAreas.contract (if tapeStatus = ready ∧ ¬ marker ≠ eob then
            loadTape procID fuel (block + 1) else pure ()) Q E) E) E g := by
      intro tapeStatus
      refine NewAreas.other (fun _ => rfl) fun _ => NewAreas.other (fun _ => rfl) fun _ => ?_
      split
      · exact ih
      · exact hQ
    split
    · simp only [Prog.wpx_bind]
      refine NewAreas.enableInterrupts (NewAreas.other (fun _ => rfl) fun _ => ?_)
      refine NewAreas.other (fun _ => rfl) fun _ => NewAreas.other (fun _ => rfl) fun _ => ?_
      exact NewAreas.enableInterrupts (hend _)
    · exact hend _

/-- Where `uProcInit` ends, all new areas are set up. -/
theorem uProcInit_areas {fuel : ℕ} {g : NewAreas} :
    Prog.wpx NewAreas.contract (uProcInit pc fuel) (fun _ _ => False)
      (fun e g => ∀ st, e = .start st → ∀ type, g.Ready pc type) g := by
  simp only [uProcInit, Prog.wpx_bind]
  refine NewAreas.other (fun _ => rfl) fun entryHi => ?_
  refine setUpTrap_ready fun g₁ h₁ _ => setUpTrap_ready fun g₂ h₂ k₂ => ?_
  refine setUpTrap_ready fun g₃ h₃ k₃ => ?_
  have hall : ∀ type, g₃.Ready pc type := by
    intro type
    cases type with
    | tlbTrap => exact k₃ _ (by simp) (k₂ _ (by simp) h₁)
    | progTrap => exact k₃ _ (by simp) h₂
    | sysTrap => exact h₃
  refine NewAreas.other (fun _ => rfl) fun _ => loadTape_areas ?_ fun st h => by cases h
  refine NewAreas.other (fun _ => rfl) fun _ => NewAreas.other (fun _ => rfl) fun _ => ?_
  exact fun _ _ => hall

end

/-! ## The calls of a handler -/

/-- The nucleus carries out a call that is made with this status: whatever else is saved, it reads
the request of the call. -/
def CarriedOut (status : Word) (call : SysCall) : Prop :=
  ∀ old : State, SysCall.ofNum (old.sReg sA1) = some call →
    old.sReg sCpsr &&& modeMask = status &&& modeMask → (Trap.sysCall old).request =
      call.request old

/-- What a handler works on: the status register and the words of memory. -/
structure Handling where
  /-- the status register -/
  status : Word
  /-- the words of memory; no handler reads a word after it has written a byte -/
  mem : Word → Word

namespace Handling

/-- The results that the status register, the caller and memory give. -/
def law (p : Caller) : ∀ β, SupOp β → β → Handling → Prop
  | _, .getSTATUS, b, w => b = w.status
  | _, .getEntryHi, b, _ => asid b = p.procID
  | _, .readOld _ _ r, b, _ => b = p.regs r
  | _, .loadWord a, b, w => b = w.mem a
  | _, _, _, _ => True

/-- What changes. -/
def see : ∀ β, SupOp β → β → Handling → Handling
  | _, .setSTATUS status, _, w => { w with status := status }
  | _, .storeWord a v, _, w => { w with mem := Function.update w.mem a v }
  | _, _, _, w => w

/-- A call of the nucleus is carried out. -/
def ok : ∀ β, SupOp β → β → Handling → Prop
  | _, .verhogen _, _, w => CarriedOut w.status .verhogen
  | _, .passeren _, _, w => CarriedOut w.status .passeren
  | _, .waitForIo _ _ _, _, w => CarriedOut w.status .waitForIo
  | _, _, _, _ => True

end Handling

/-- All calls of a handler are carried out, SYS2 at its end among them. -/
def Reaches (w : Handling) (tr : List (Prog.Event SupOp)) (r : Except End Unit) : Prop :=
  Prog.Along Handling.ok Handling.see w tr ∧
    (r = .error .terminated → CarriedOut (Prog.notes Handling.see w tr).status .terminateProcess)

/-- The handler needs no call of the nucleus: it is that of a system call, and the call is SYS17,
one that does not exist, or a SYS11 or SYS12 that neither wakes nor blocks a process. -/
def Handler.Quiet (regs : Fin stateRegNum → Word) (mem : Word → Word) : Handler → Prop
  | .vmMemHandler | .vmPrgmHandler => False
  | .vmSysHandler =>
    match (regs sA1).toInt with
    | 9 | 10 | 13 | 14 | 15 | 16 | 18 => False
    | 11 => 0 < (mem (regs sA2) + 1).toInt
    | 12 => 0 ≤ (mem (regs sA2) - 1).toInt
    | _ => True

theorem SysCall.exists_num (call : SysCall) : ∃ num, SysCall.ofNum num = some call := by
  cases call
  · exact ⟨1, rfl⟩
  · exact ⟨2, rfl⟩
  · exact ⟨3, rfl⟩
  · exact ⟨4, rfl⟩
  · exact ⟨5, rfl⟩
  · exact ⟨6, rfl⟩
  · exact ⟨7, rfl⟩
  · exact ⟨8, rfl⟩

/-- A call that is carried out comes from system mode: the nucleus makes a program trap of the
others. -/
theorem CarriedOut.system {status : Word} {call : SysCall} (h : CarriedOut status call) :
    status &&& systemMode = systemMode := by
  by_contra huser
  obtain ⟨num, hnum⟩ := call.exists_num
  let old : State := ⟨fun r => if r = sA1 then num else status⟩
  have ha1 : SysCall.ofNum (old.sReg sA1) = some call := hnum
  have hrequest := h old ha1 rfl
  have hcpsr : ¬ old.sReg sCpsr &&& systemMode = systemMode := huser
  rw [Trap.request, ha1, if_neg hcpsr, if_pos (show (some call).isSome = true from rfl)] at hrequest
  cases call <;> cases hrequest

section

variable [Support] {p : Caller} {w : Handling}

/-! ### A handler that makes no call -/

/-- The contract of a handler whose calls are carried out. -/
abbrev Handling.contract (p : Caller) : Prog.Contract SupOp Handling :=
  Prog.tracked (law p) ok see

theorem vSemVirt_quiet {a : Word} (h : 0 < (w.mem a + 1).toInt) :
    Prog.wpx (Handling.contract p) (vSemVirt p.procID a) (fun _ _ => True)
        (fun _ _ => False) w := by
  simp only [vSemVirt, Prog.wpx_bind, wpx_sup]
  intro v hv
  refine ⟨trivial, fun _ _ => ⟨trivial, fun v' hv' => ⟨trivial, ?_⟩⟩⟩
  obtain rfl : v = w.mem a := hv
  obtain rfl : v' = w.mem a + 1 := hv'.trans (Function.update_self ..)
  split
  · omega
  · trivial

omit [Support] in
theorem pSemVirt_quiet {a : Word} (h : 0 ≤ (w.mem a - 1).toInt) :
    Prog.wpx (Handling.contract p) (pSemVirt p.procID a) (fun _ _ => True)
        (fun _ _ => False) w := by
  simp only [pSemVirt, Prog.wpx_bind, wpx_sup]
  intro v hv
  refine ⟨trivial, fun _ _ => ⟨trivial, fun v' hv' => ⟨trivial, ?_⟩⟩⟩
  obtain rfl : v = w.mem a := hv
  obtain rfl : v' = w.mem a - 1 := hv'.trans (Function.update_self ..)
  split
  · omega
  · trivial

theorem service_quiet {fuel : ℕ} (hquiet : Handler.vmSysHandler.Quiet p.regs w.mem) :
    Prog.wpx (Handling.contract p) (p.service fuel) (fun _ _ => True) (fun _ _ => False) w := by
  rw [Handler.Quiet] at hquiet
  rw [Caller.service]
  generalize (p.regs sA1).toInt = num at hquiet
  split at hquiet
  case h_8 => exact vSemVirt_quiet hquiet
  case h_9 => exact pSemVirt_quiet hquiet
  case h_10 =>
    split
    case h_9 =>
      simp only [Prog.wpx_bind, wpx_sup]
      exact fun _ _ => ⟨trivial, fun _ _ => ⟨trivial, trivial⟩⟩
    case h_11 => trivial
    all_goals simp at *
  all_goals exact hquiet.elim

/-! ### A handler whose calls are reflected -/

/-- The contract of a handler that makes a call that is not carried out. -/
abbrev Handling.reflected (p : Caller) : Prog.Contract SupOp (Handling × Prop) :=
  Prog.tracked (fun β o b g => law p β o b g.1) (fun _ _ _ _ => True) (Prog.strict ok see)

/-- Each run of a program ends after a call that is not carried out. -/
def Handling.Reflects {α : Type} (p : Caller) (m : SupM α) (g : Handling × Prop) : Prop :=
  Prog.wpx (reflected p) m (fun _ g => ¬ g.2) (fun _ g => ¬ g.2) g

namespace Handling.Reflects

variable {α β : Type} {g : Handling × Prop}

omit [Support] in
theorem finish (m : SupM α) (h : ¬ g.2) : Reflects p m g := by
  have hkeep : m.run.wp (reflected p) (fun _ g => ¬ g.2) g := by
    refine Prog.tracked_of_keeps (I := fun g : Handling × Prop => ¬ g.2) ?_ m.run h
    exact fun _ _ _ h h' => h h'.1
  refine Prog.wp_mono Prog.tracked_mono (fun r g hr => ?_) hkeep
  cases r with
  | ok a => exact hr
  | error e => exact hr

omit [Support] in
/-- A call that is not carried out. -/
theorem mark {o : SupOp α} {f : α → SupM β} (hbad : ∀ b, ¬ ok α o b g.1) :
    Reflects p (sup o >>= f) g := by
  rw [Reflects, Prog.wpx_bind]
  exact fun b _ => ⟨trivial, finish (f b) fun h => hbad b h.2⟩

omit [Support] in
/-- An operation that is no call of the nucleus and does not write the status register. -/
theorem step {o : SupOp α} {f : α → SupM β}
    (hsee : ∀ b, (see α o b g.1).status = g.1.status)
    (h : ∀ b (g' : Handling × Prop), law p α o b g.1 → g'.1 = see α o b g.1 →
      g'.1.status = g.1.status → Reflects p (f b) g') :
    Reflects p (sup o >>= f) g := by
  rw [Reflects, Prog.wpx_bind]
  exact fun b hb => ⟨trivial, h b _ hb rfl (hsee b)⟩

omit [Support] in
/-- A P in user mode. -/
theorem passeren {s : Sem} {f : Unit → SupM β} (huser : g.1.status &&& systemMode ≠ systemMode) :
    Reflects p (sup (.passeren s) >>= f) g := mark fun _ h => huser (CarriedOut.system h)

theorem virtualDeath {procID : ℤ} {f : α → SupM β}
    (huser : g.1.status &&& systemMode ≠ systemMode) :
    Reflects p (Jaeos.virtualDeath procID >>= f) g := by
  simp only [Jaeos.virtualDeath, bind_assoc]
  exact passeren huser

theorem vSemVirt {a : Word} {f : Unit → SupM β} (huser : g.1.status &&& systemMode ≠ systemMode)
    (h : ¬ 0 < (g.1.mem a + 1).toInt) : Reflects p (Jaeos.vSemVirt p.procID a >>= f) g := by
  simp only [Jaeos.vSemVirt, bind_assoc]
  refine step (fun _ => rfl) fun v g₁ hv hg₁ hs₁ => ?_
  refine step (fun _ => rfl) fun _ g₂ _ hg₂ hs₂ => ?_
  refine step (fun _ => rfl) fun v' g₃ hv' _ hs₃ => ?_
  have huser₃ : g₃.1.status &&& systemMode ≠ systemMode := by rwa [hs₃, hs₂, hs₁]
  obtain rfl : v = g.1.mem a := hv
  have hv' : v' = g.1.mem a + 1 := by
    rw [show v' = g₂.1.mem a from hv', hg₂]
    exact Function.update_self ..
  rw [hv', if_pos (by omega), bind_assoc]
  refine step (fun _ => rfl) fun retProcID g₄ _ _ hs₄ => ?_
  have huser₄ : g₄.1.status &&& systemMode ≠ systemMode := by rwa [hs₄]
  split
  · rw [bind_assoc]
    exact virtualDeath huser₄
  · exact mark fun _ h => huser₄ (CarriedOut.system h)

omit [Support] in
theorem pSemVirt {a : Word} {f : Unit → SupM β} (huser : g.1.status &&& systemMode ≠ systemMode)
    (h : ¬ 0 ≤ (g.1.mem a - 1).toInt) : Reflects p (Jaeos.pSemVirt p.procID a >>= f) g := by
  simp only [Jaeos.pSemVirt, bind_assoc]
  refine step (fun _ => rfl) fun v g₁ hv hg₁ hs₁ => ?_
  refine step (fun _ => rfl) fun _ g₂ _ hg₂ hs₂ => ?_
  refine step (fun _ => rfl) fun v' g₃ hv' _ hs₃ => ?_
  obtain rfl : v = g.1.mem a := hv
  have hv' : v' = g.1.mem a - 1 := by
    rw [show v' = g₂.1.mem a from hv', hg₂]
    exact Function.update_self ..
  rw [hv', if_pos (by omega), bind_assoc]
  refine step (fun _ => rfl) fun _ g₄ _ _ hs₄ => ?_
  exact passeren (by rwa [hs₄, hs₃, hs₂, hs₁])

theorem delay {seconds : Word} {f : Unit → SupM β}
    (huser : g.1.status &&& systemMode ≠ systemMode) :
    Reflects p (Jaeos.delay p.procID seconds >>= f) g := by
  simp only [Jaeos.delay, bind_assoc]
  refine step (fun _ => rfl) fun _ g₁ _ _ hs₁ => step (fun _ => rfl) fun _ g₂ _ _ hs₂ => ?_
  refine step (fun _ => rfl) fun _ g₃ _ _ hs₃ => ?_
  exact passeren (by rwa [hs₃, hs₂, hs₁])

theorem diskIo {a diskNo sectNo comm : Word} {f : Unit → SupM β}
    (huser : g.1.status &&& systemMode ≠ systemMode) (hcomm : comm = writeBlk ∨ comm = readBlk) :
    Reflects p ( Jaeos.diskIo a diskNo sectNo comm p.procID >>= f) g := by
  have hknown : ¬ (comm ≠ writeBlk ∧ comm ≠ readBlk) := fun h => hcomm.elim h.1 h.2
  simp only [ Jaeos.diskIo, if_neg hknown]
  split
  · rw [bind_assoc]
    exact virtualDeath huser
  · rw [bind_assoc]
    exact passeren huser

/-- What a call asks for, if it is not quiet. -/
theorem service {fuel : ℕ} (huser : g.1.status &&& systemMode ≠ systemMode)
    (hloud : ¬ Handler.vmSysHandler.Quiet p.regs g.1.mem) : Reflects p (p.service fuel) g := by
  rw [Handler.Quiet] at hloud
  rw [Caller.service]
  generalize (p.regs sA1).toInt = num at hloud
  split at hloud
  case h_1 | h_2 | h_6 => exact passeren huser
  case h_3 =>
    rw [← bind_pure (Jaeos.delay ..)]
    exact delay huser
  case h_4 =>
    rw [← bind_pure ( Jaeos.diskIo ..)]
    exact diskIo huser (.inl rfl)
  case h_5 =>
    rw [← bind_pure ( Jaeos.diskIo _ _ _ readBlk _)]
    exact diskIo huser (.inr rfl)
  case h_7 => exact passeren huser
  case h_8 =>
    rw [← bind_pure (Jaeos.vSemVirt ..)]
    exact vSemVirt huser hloud
  case h_9 =>
    rw [← bind_pure (Jaeos.pSemVirt ..)]
    exact pSemVirt huser hloud
  case h_10 => exact absurd trivial hloud

/-- A handler that is not quiet. -/
theorem handler {h : Handler} {fuel : ℕ} (huser : g.1.status &&& systemMode ≠ systemMode)
    (hloud : ¬ h.Quiet p.regs g.1.mem) : Reflects p (h.program fuel) g := by
  cases h with
  | vmPrgmHandler =>
    refine step (fun _ => rfl) fun _ g₁ _ _ hs₁ => ?_
    exact passeren (by rwa [hs₁])
  | vmMemHandler =>
    simp only [Handler.program, vmMemHandler]
    refine step (fun _ => rfl) fun _ g₁ _ _ hs₁ => step (fun _ => rfl) fun _ g₂ _ _ hs₂ => ?_
    split
    · exact virtualDeath (by rwa [hs₂, hs₁])
    · refine step (fun _ => rfl) fun _ g₃ _ _ hs₃ => ?_
      exact passeren (by rwa [hs₃, hs₂, hs₁])
  | vmSysHandler =>
    have hkeep : ∀ g : Handling × Prop, (g.1, g.2 ∧ True) = g := fun g => Prod.ext rfl (and_true _)
    refine Caller.handler (fun {Q s} h => ?_) (fun {r Q s} h => ?_) (service huser hloud)
    · intro b hb
      refine ⟨trivial, ?_⟩
      change Q _ (s.1, s.2 ∧ True)
      rw [hkeep]
      exact h b hb
    · rintro _ rfl
      refine ⟨trivial, ?_⟩
      change Q _ (s.1, s.2 ∧ True)
      rw [hkeep]
      exact h

end Handling.Reflects

/-! ### The handlers -/

/-- A quiet handler reaches the nucleus: it does not call it. -/
theorem reaches_of_quiet {h : Handler} {fuel : ℕ} {tr : List (Prog.Event SupOp)}
    {r : Except End Unit} (hquiet : h.Quiet p.regs w.mem) (htr : (h.program fuel).run.Trace tr r)
    (hlaw : Prog.Along (Handling.law p) Handling.see w tr) : Reaches w tr r := by
  cases h with
  | vmMemHandler | vmPrgmHandler => exact hquiet.elim
  | vmSysHandler =>
    have hwp : Prog.wpx (Handling.contract p) (vmSysHandler fuel) (fun _ _ => True)
        (fun e _ => e = .ldst p.procID .sysTrap) w := by
      refine Caller.handler (fun h b hb => ⟨trivial, h b hb⟩) (fun h b hb => ⟨trivial, hb ▸ h⟩) ?_
      exact Prog.wpx_mono Prog.tracked_mono (fun _ _ _ => rfl) (fun _ _ h => h.elim)
        (service_quiet hquiet)
    obtain ⟨hok, hr⟩ := Prog.of_tracked hwp htr hlaw
    refine ⟨hok, fun he => ?_⟩
    subst he
    cases hr

/-- In user mode, a handler that is not quiet does not reach the nucleus. -/
theorem not_reaches {h : Handler} {fuel : ℕ} {tr : List (Prog.Event SupOp)} {r : Except End Unit}
    (huser : w.status &&& systemMode ≠ systemMode) (hloud : ¬ h.Quiet p.regs w.mem)
    (htr : (h.program fuel).run.Trace tr r)
    (hlaw : Prog.Along (Handling.law p) Handling.see w tr) : ¬ Reaches w tr r := by
  have hwp : Handling.Reflects p (h.program fuel) (w, True) :=
    Handling.Reflects.handler huser hloud
  have hmark := (Prog.of_tracked hwp htr (Prog.along_strict.mpr hlaw)).2
  have hnot : ¬ (Prog.notes (Prog.strict Handling.ok Handling.see) (w, True) tr).2 := by
    cases r with
    | ok a => exact hmark
    | error e => exact hmark
  exact fun hreach => hnot (Prog.notes_strict.mpr ⟨trivial, hreach.1⟩)

end

/-! ### The whole way -/

section

variable [Layout] [Support]

/-- The step from `c` to `c'` passes an exception of the process `p` up to its new area, and there
it finds what `uProcInit` has put into it. -/
structure PassedUp (pc : Handler → Word) (type : TrapType) (p : Fin n)
    (c c' : Config n) : Prop where
  /-- the process runs -/
  cur : c.nuc.currentProcess = some p
  /-- it has an old area -/
  old : (c.nuc.store.trap p).old type ≠ null
  /-- the new area is as a run of `uProcInit` has left it, and apart from the old one -/
  area : ∃ fuel areas tr start, (uProcInit pc fuel).run.Trace tr (.error (.start start)) ∧
    ∀ st, readState (writeState c.nuc.mem ((c.nuc.store.trap p).old type) st)
      ((c.nuc.store.trap p).new type) = ⟨Prog.notes NewAreas.see areas tr type⟩
  /-- the exception -/
  step : ∃ t todIn todOut, t.request = .trap type ∧ c.step (.trap t todIn todOut) = some c'

/-- The process is then at the handler, with all bits of its status off. -/
theorem PassedUp.state {pc : Handler → Word} {type : TrapType} {p : Fin n} {c c' : Config n}
    (h : PassedUp pc type p c c') : (c'.nuc.store.pS p).sReg sCpsr = allOff ∧
      (c'.nuc.store.pS p).sReg sPc = pc type.handler := by
  obtain ⟨fuel, areas, tr, start, hinit, harea⟩ := h.area
  obtain ⟨t, todIn, todOut, ht, hstep⟩ := h.step
  rw [Config.step_passUp ht h.cur h.old harea hstep]
  exact (Prog.of_tracked uProcInit_areas hinit Prog.along_free).2 start rfl type

end

/-! ### A process that is set up -/

section

variable [Support] {pc : Handler → Word}

/-- Some run of the set-up: results do not matter. -/
abbrev NewAreas.some : Prog.Contract SupOp NewAreas :=
  Prog.possible (fun _ _ _ _ => True) NewAreas.see

omit [Support] in
theorem NewAreas.returns {α : Type} (o : SupOp α) :
    Prog.Returns (fun _ _ _ _ => True) NewAreas.see (sup o) := by
  refine .lift fun _ => ?_
  obtain ⟨b⟩ := o.exists_result
  exact ⟨b, trivial⟩

theorem setUpTrap_returns {procID : ℤ} {type : TrapType} :
    Prog.Returns (fun _ _ _ _ => True) NewAreas.see (setUpTrap pc procID type) := by
  refine .seq (NewAreas.returns _) fun _ => .seq (NewAreas.returns _) fun _ => ?_
  refine .seq (NewAreas.returns _) fun _ => .seq (NewAreas.returns _) fun _ => ?_
  exact .seq (NewAreas.returns _) fun _ => NewAreas.returns _

omit [Support] in
/-- A tape that cannot be read. -/
theorem loadTape_some {procID block : ℤ} {g : NewAreas} {Q : Unit → NewAreas → Prop}
    {E : End → NewAreas → Prop} (hQ : ∀ g, Q () g) :
    Prog.wpx NewAreas.some (loadTape procID 1 block) Q E g := by
  have hop {α : Type} (o : SupOp α) := NewAreas.returns o
  have hint := enableInterrupts_returns hop
  refine Prog.Returns.andThen (hint _) (fun _ g => ?_) g
  refine Prog.Returns.andThen (hop _) (fun _ g => ?_) g
  refine Prog.Returns.andThen (hop _) (fun _ g => ?_) g
  rw [Prog.wpx_bind]
  refine ⟨0, trivial, ?_⟩
  refine Prog.Returns.andThen (hint _) (fun _ g => ?_) _
  refine Prog.Returns.andThen (hop _) (fun _ g => ?_) g
  refine Prog.Returns.andThen (hint _) (fun _ g => ?_) g
  refine Prog.Returns.andThen (hop _) (fun _ g => ?_) g
  refine Prog.Returns.andThen (hop _) (fun diskStatus g => ?_) g
  refine Prog.Returns.andThen (hint _) (fun _ g => ?_) g
  refine Prog.Returns.andThen ?_ (fun _ g => ?_) g
  · split
    · refine .seq (hint _) fun _ => .seq (hop _) fun _ => .seq (hop _) fun _ => ?_
      exact .seq (hop _) fun _ => hint _
    · exact .ret ()
  refine Prog.Returns.andThen (hop _) (fun _ g => ?_) g
  refine Prog.Returns.andThen (hop _) (fun marker g => ?_) g
  rw [if_neg fun h => absurd h.1 (by decide)]
  exact hQ g

/-- `uProcInit` can end in the start of the process. -/
theorem exists_start (areas : NewAreas) : ∃ tr start,
    (uProcInit pc 1).run.Trace tr (.error (.start start)) ∧
      ∀ type, NewAreas.Ready pc (Prog.notes NewAreas.see areas tr) type := by
  have hop {α : Type} (o : SupOp α) := NewAreas.returns o
  have hwp : Prog.wpx NewAreas.some (uProcInit pc 1) (fun _ _ => False)
      (fun e _ => ∃ start, e = .start start) areas := by
    refine Prog.Returns.andThen (hop _) (fun entryHi g => ?_) _
    refine Prog.Returns.andThen setUpTrap_returns (fun _ g => ?_) g
    refine Prog.Returns.andThen setUpTrap_returns (fun _ g => ?_) g
    refine Prog.Returns.andThen setUpTrap_returns (fun _ g => ?_) g
    refine Prog.Returns.andThen (hop _) (fun _ g => ?_) g
    rw [Prog.wpx_bind]
    refine loadTape_some fun g => ?_
    refine Prog.Returns.andThen (hop _) (fun _ g => ?_) g
    refine Prog.Returns.andThen (hop _) (fun st g => ?_) g
    exact ⟨_, rfl⟩
  obtain ⟨tr, r, htr, -, hr⟩ := Prog.exists_trace hwp
  cases r with
  | ok a => exact hr.elim
  | error e =>
    obtain ⟨start, rfl⟩ := hr
    exact ⟨tr, start, htr, (Prog.of_tracked uProcInit_areas htr Prog.along_free).2 start rfl⟩

end

/-- Areas for a process. -/
def sampleAreas : TrapAreas := ⟨0x1000, 0x1100, 0x1200, 0x1300, 0x1400, 0x1500⟩

/-- The first process runs, with a state in its new area of a type. -/
def samplePassUp (type : TrapType) (st : State) : Config maxProc where
  mode := .running
  nuc := { Boot.zero.vars with
    mem := writeState (fun _ => 0) (sampleAreas.new type) st
    currentProcess := some 0
    store := { Boot.zero.tables with trap := fun _ => sampleAreas } }

theorem samplePassUp_area (type : TrapType) (st old : State) :
    readState (writeState (samplePassUp type st).nuc.mem (sampleAreas.old type) old)
      (sampleAreas.new type) = st := by
  have hapart : ∀ type (i : Fin stateRegNum),
      ¬ InArea (sampleAreas.old type) (sampleAreas.new type + wordLen * i.val) := by
    intro type
    cases type <;> decide
  ext i : 2
  change writeState _ _ _ _ = _
  rw [writeState_of_not_inArea (hapart type i)]
  exact congrFun (congrArg State.sReg (readState_writeState _ _ st)) i

/-- Addresses of the handlers. -/
def samplePc : Handler → Word
  | .vmMemHandler => 0x20000000
  | .vmPrgmHandler => 0x20000100
  | .vmSysHandler => 0x20000200

theorem samplePc_injective : Function.Injective samplePc := by
  intro h h' heq
  cases h <;> cases h' <;> first | rfl | exact absurd heq (by decide)

/-- A program trap of a process that is set up. -/
theorem exists_passedUp [Support] : let _ := sampleLayout
    ∃ c c' : Config maxProc, PassedUp samplePc .progTrap 0 c c' := by
  intro _
  obtain ⟨tr, start, htr, -⟩ := @exists_start _ samplePc fun _ _ => 0
  let st : State := ⟨Prog.notes NewAreas.see (fun _ _ => 0) tr .progTrap⟩
  have hold : sampleAreas.old .progTrap ≠ null := by decide
  refine ⟨samplePassUp .progTrap st, _, rfl, hold, ?_, .progTrap .zero, 0, 0, rfl, rfl⟩
  exact ⟨1, _, tr, start, htr, samplePassUp_area .progTrap st⟩

/-- A handler has some trace. -/
theorem exists_handling [Support] (h : Handler) (w : Handling) : ∃ tr r,
    (h.program 0).run.Trace tr r ∧ Prog.Along (Handling.law ⟨1, fun _ => 0⟩) Handling.see w tr := by
  have hlaw : ∀ {β} (o : SupOp β) w, ∃ b, Handling.law ⟨1, fun _ => 0⟩ β o b w := by
    intro β o w
    obtain ⟨b⟩ := o.exists_result
    cases o with
    | getSTATUS => exact ⟨_, rfl⟩
    | getEntryHi => exact ⟨_, asid_word (by decide) (by decide)⟩
    | readOld => exact ⟨_, rfl⟩
    | loadWord => exact ⟨_, rfl⟩
    | _ => exact ⟨b, trivial⟩
  obtain ⟨tr, r, htr, hlaw, -⟩ := Prog.exists_trace (Prog.possible_of_keeps (I := fun _ => True)
    hlaw (fun _ _ _ h => h) (h.program 0).run (g := w) trivial)
  exact ⟨tr, r, htr, hlaw⟩

/-! ### The calls -/

/-- A handler that the nucleus starts in the state that `uProcInit` has set up reaches the nucleus
with all its calls exactly when it makes none. -/
theorem handlers_reach_nucleus [Layout] [Support] {pc : Handler → Word}
    (hpc : Function.Injective pc)
    {type : TrapType} {p : Fin n} {c c' : Config n} (hup : PassedUp pc type p c c') {h : Handler}
    (hstart : (c'.nuc.store.pS p).sReg sPc = pc h) {caller : Caller} {w : Handling}
    (hw : w.status = (c'.nuc.store.pS p).sReg sCpsr) {fuel : ℕ} {tr : List (Prog.Event SupOp)}
    {r : Except End Unit} (htr : (h.program fuel).run.Trace tr r)
    (hlaw : Prog.Along (Handling.law caller) Handling.see w tr) :
    h = type.handler ∧ (Reaches w tr r ↔ h.Quiet caller.regs w.mem) := by
  obtain ⟨hcpsr, hsPc⟩ := hup.state
  have huser : w.status &&& systemMode ≠ systemMode := by
    rw [hw, hcpsr]
    decide
  refine ⟨hpc (hstart.symm.trans hsPc), fun hreach => ?_, fun hquiet => ?_⟩
  · by_contra hloud
    exact not_reaches huser hloud htr hlaw hreach
  · exact reaches_of_quiet hquiet htr hlaw

/-- A program trap: the handler does not reach the nucleus. -/
theorem handlers_reach_nucleus_trap : ∃ (_ : Support) (w : Handling) (tr : List (Prog.Event SupOp))
    (r : Except End Unit), vmPrgmHandler.run.Trace tr r ∧ ¬ Reaches w tr r := by
  let _ := sampleLayout
  let _ := sampleSupport
  obtain ⟨c, c', hup⟩ := exists_passedUp
  obtain ⟨tr, r, htr, hlaw⟩ := exists_handling .vmPrgmHandler
    ⟨(c'.nuc.store.pS 0).sReg sCpsr, fun _ => 0⟩
  have hiff := (handlers_reach_nucleus samplePc_injective hup hup.state.2 rfl htr hlaw).2
  exact ⟨sampleSupport, _, tr, r, htr, fun h => hiff.mp h⟩

/-- A program trap of a process that `uProcInit` has set up. -/
theorem handlers_reach_nucleus_fails : ¬ ∀ (_ : Layout) (_ : Support) (pc : Handler → Word)
    (type : TrapType) (p : Fin maxProc) (c c' : Config maxProc) (h : Handler) (caller : Caller)
    (w : Handling) (fuel : ℕ) (tr : List (Prog.Event SupOp)) (r : Except End Unit),
    Function.Injective pc → PassedUp pc type p c c' → (c'.nuc.store.pS p).sReg sPc = pc h →
      w.status = (c'.nuc.store.pS p).sReg sCpsr → (h.program fuel).run.Trace tr r →
        Prog.Along (Handling.law caller) Handling.see w tr → Reaches w tr r := by
  intro hall
  let _ := sampleLayout
  let _ := sampleSupport
  obtain ⟨c, c', hup⟩ := exists_passedUp
  obtain ⟨tr, r, htr, hlaw⟩ := exists_handling .vmPrgmHandler
    ⟨(c'.nuc.store.pS 0).sReg sCpsr, fun _ => 0⟩
  have hreach := hall sampleLayout sampleSupport samplePc .progTrap 0 c c' .vmPrgmHandler _ _ 0 tr r
    samplePc_injective hup hup.state.2 rfl htr hlaw
  refine not_reaches (h := .vmPrgmHandler) ?_ (fun hquiet => hquiet) htr hlaw hreach
  rw [hup.state.1]
  decide

end Jaeos
