import Jaeos.Support.VmIo

/-!
# Critical sections of the device routines

A watch follows a routine: the interrupt mask, where the routine is with respect
to its mutex, and the command register that is written and not waited for. The
discipline says what the routine may do in each situation. The devices give a
sequence of statuses, and everything else answers anything.
-/

namespace Jaeos

/-! ## The watch -/

/-- No interrupt is masked. -/
def Word.Enabled (status : Word) : Prop := status &&& allIntDisabled = 0

/-- All interrupts are masked. -/
def Word.Disabled (status : Word) : Prop := status &&& allIntDisabled = allIntDisabled

instance decidableEnabled (status : Word) : Decidable (Word.Enabled status) :=
  inferInstanceAs (Decidable (_ = _))

instance (status : Word) : Decidable (Word.Disabled status) := inferInstanceAs (Decidable (_ = _))

/-- Where a routine is with respect to its mutex. -/
inductive Phase where
  /-- it has not done its P -/
  | before
  /-- it holds the mutex -/
  | inside
  /-- it has done its V -/
  | after
  deriving DecidableEq

/-- What is known about a routine. -/
structure Watch where
  /-- the status register -/
  status : Word
  /-- the statuses the devices will give -/
  io : ℕ → Word
  /-- where the routine is -/
  phase : Phase
  /-- the command register that is written, until its SYS8 -/
  armed : Option (ℤ × DevField)

/-- A command register. `d_data1` is the `t_transm_command` of a terminal; no routine writes
the `d_data1` of another device. -/
def DevField.IsCommand (f : DevField) : Prop := f = .dCommand ∨ f = .dData1

instance (f : DevField) : Decidable f.IsCommand := inferInstanceAs (Decidable (_ ∨ _))

/-- The command register a SYS8 waits for. -/
def ioRegister (line dev term : ℤ) : ℤ × DevField :=
  ((line - diskInt) * 8 + dev, if line = termInt ∧ term = writeTerm then .dData1 else .dCommand)

namespace Watch

/-- The results that the status register and the devices give. -/
def law : ∀ β, SupOp β → β → Watch → Prop
  | _, .getSTATUS, b, w => b = w.status
  | _, .waitForIo _ _ _, b, w => b = w.io 0
  | _, _, _, _ => True

/-- The discipline. -/
def ok (mutex : Sem) : ∀ β, SupOp β → β → Watch → Prop
  | _, .passeren s, _, w => s = mutex → w.phase = .before
  | _, .verhogen s, _, w => s = mutex → w.phase = .inside ∧ w.status.Enabled
  | _, .writeDev _ f _, _, w =>
    w.phase = .inside ∧ (f.IsCommand → w.status.Disabled ∧ w.armed = none)
  | _, .setSTATUS status, _, w => w.armed ≠ none → status.Disabled
  | _, .waitForIo line dev term, _, w => w.armed = some (ioRegister line dev term)
  | _, _, _, _ => True

/-- What changes. -/
def see (mutex : Sem) : ∀ β, SupOp β → β → Watch → Watch
  | _, .passeren s, _, w => if s = mutex then { w with phase := .inside } else w
  | _, .verhogen s, _, w => if s = mutex then { w with phase := .after } else w
  | _, .writeDev dev f _, _, w => if f.IsCommand then { w with armed := some (dev, f) } else w
  | _, .setSTATUS status, _, w => { w with status := status }
  | _, .waitForIo _ _ _, _, w => { w with io := fun i => w.io (i + 1), armed := none }
  | _, _, _, w => w

/-- The watch at the entry of a routine. -/
def entry (status : Word) (io : ℕ → Word) : Watch := ⟨status, io, .before, none⟩

/-- The routine has done its V, nothing waits for a SYS8, and interrupts are enabled. -/
structure Done (w : Watch) : Prop where
  /-- it has done its V -/
  phase : w.phase = .after
  /-- no command is left -/
  armed : w.armed = none
  /-- interrupts are enabled -/
  enabled : w.status.Enabled

end Watch

/-- A trace keeps the discipline of a mutex. -/
def Disciplined (mutex : Sem) (w : Watch) (tr : List (Prog.Event SupOp)) : Prop :=
  Prog.Along (Watch.ok mutex) (Watch.see mutex) w tr ∧ (Prog.notes (Watch.see mutex) w tr).Done

/-! ## The routines -/

/-- A device routine with its arguments. -/
inductive Routine where
  /-- `readWriteBacking` -/
  | readWriteBacking (cylinder sector : ℤ) (head readWriteComm address : Word)
  /-- `writeTerminal` -/
  | writeTerminal (virtAddr : Word) (len procID : ℤ)
  /-- `readTerminal`, followed for `fuel` characters -/
  | readTerminal (fuel : ℕ) (addr : Word) (procID : ℤ)
  /-- `writePrinter` -/
  | writePrinter (virtAddr : Word) (len procID : ℤ)
  /-- `diskIo` -/
  | diskIo (blockAddr diskNo sectNo readWrite : Word) (procID : ℤ)

namespace Routine

/-- The program of a routine. -/
def program [Support] : Routine → SupM Unit
  | readWriteBacking cylinder sector head comm address =>
    Jaeos.readWriteBacking cylinder sector head comm address
  | writeTerminal virtAddr len procID => Jaeos.writeTerminal virtAddr len procID
  | readTerminal fuel addr procID => Jaeos.readTerminal fuel addr procID
  | writePrinter virtAddr len procID => Jaeos.writePrinter virtAddr len procID
  | diskIo blockAddr diskNo sectNo readWrite procID =>
    Jaeos.diskIo blockAddr diskNo sectNo readWrite procID

/-- The device mutex of a routine. -/
def mutex : Routine → Sem
  | readWriteBacking _ _ _ _ _ => .mutexSemArray backingStore
  | writeTerminal _ _ procID => .mutexSemArray (termWriteSem + (procID - 1))
  | readTerminal _ _ procID => .mutexSemArray (termReadSem + (procID - 1))
  | writePrinter _ _ procID => .mutexSemArray (print0Dev + (procID - 1))
  | diskIo _ diskNo _ _ _ => .mutexSemArray diskNo.toInt

/-- The routine is `diskIo`. -/
def IsDiskIO : Routine → Prop
  | diskIo _ _ _ _ _ => True
  | _ => False

end Routine

/-! ## What each operation does to the watch -/

theorem enabled_and (status : Word) : Word.Enabled (status &&& allIntEnabled) := by
  rw [Word.Enabled, BitVec.and_assoc]
  simp [allIntEnabled, allIntDisabled]

theorem disabled_or (status : Word) : Word.Disabled (status ||| allIntDisabled) := by
  rw [Word.Disabled]
  ext i
  simp only [BitVec.getElem_and, BitVec.getElem_or]
  cases allIntDisabled[i] <;> simp

theorem Word.Disabled.not_enabled {status : Word} (h : status.Disabled) : ¬ status.Enabled :=
  fun hen => absurd (h.symm.trans hen) (by decide)

namespace Watch

/-- The contract of the discipline. -/
abbrev contract (mutex : Sem) : Prog.Contract SupOp Watch :=
  Prog.tracked law (ok mutex) (see mutex)

variable {mutex : Sem} {w : Watch} {α : Type} {E : End → Watch → Prop}

section

variable {Q : Unit → Watch → Prop}

theorem lock (hphase : w.phase = .before) (hQ : Q () { w with phase := .inside }) :
    Prog.wpx (contract mutex) (sup (.passeren mutex)) Q E w := by
  refine fun b _ => ⟨fun _ => hphase, ?_⟩
  rw [see, if_pos rfl]
  exact hQ

theorem unlock (hphase : w.phase = .inside) (hen : w.status.Enabled)
    (hQ : Q () { w with phase := .after }) :
    Prog.wpx (contract mutex) (sup (.verhogen mutex)) Q E w := by
  refine fun b _ => ⟨fun _ => ⟨hphase, hen⟩, ?_⟩
  rw [see, if_pos rfl]
  exact hQ

theorem disable (hQ : ∀ status, status.Disabled → Q () { w with status := status }) :
    Prog.wpx (contract mutex) (enableInterrupts false) Q E w := by
  simp only [enableInterrupts, Prog.wpx_bind]
  exact fun b _ => ⟨trivial, fun _ _ => ⟨fun _ => disabled_or b, hQ _ (disabled_or b)⟩⟩

theorem enable (harmed : w.armed = none)
    (hQ : ∀ status, status.Enabled → Q () { w with status := status }) :
    Prog.wpx (contract mutex) (enableInterrupts true) Q E w := by
  simp only [enableInterrupts, Prog.wpx_bind]
  exact fun b _ => ⟨trivial, fun _ _ => ⟨fun h => absurd harmed h, hQ _ (enabled_and b)⟩⟩

theorem data {dev : ℤ} {v : Word} (hphase : w.phase = .inside) (hQ : Q () w) :
    Prog.wpx (contract mutex) (sup (.writeDev dev .dData0 v)) Q E w :=
  fun _ _ => ⟨⟨hphase, fun h => absurd h (by decide)⟩, hQ⟩

theorem command {dev : ℤ} {f : DevField} {v : Word} (hf : f.IsCommand)
    (hphase : w.phase = .inside) (hdis : w.status.Disabled) (harmed : w.armed = none)
    (hQ : Q () { w with armed := some (dev, f) }) :
    Prog.wpx (contract mutex) (sup (.writeDev dev f v)) Q E w := by
  refine fun _ _ => ⟨⟨hphase, fun _ => ⟨hdis, harmed⟩⟩, ?_⟩
  rw [see, if_pos hf]
  exact hQ

end

theorem await {line dev term : ℤ} {Q : Word → Watch → Prop}
    (harmed : w.armed = some (ioRegister line dev term))
    (hQ : Q (w.io 0) { w with io := fun i => w.io (i + 1), armed := none }) :
    Prog.wpx (contract mutex) (sup (.waitForIo line dev term)) Q E w := by
  rintro b rfl
  exact ⟨harmed, hQ⟩

/-- An operation the discipline says nothing about. -/
theorem other {β : Type} {o : SupOp β} {Q : β → Watch → Prop} (hok : ∀ b, ok mutex β o b w)
    (hsee : ∀ b, see mutex β o b w = w) (hQ : ∀ b, Q b w) :
    Prog.wpx (contract mutex) (sup o) Q E w := by
  refine fun b _ => ⟨hok b, ?_⟩
  rw [hsee]
  exact hQ b

/-- The routine holds its mutex with interrupts enabled, and nothing is waited for. -/
structure Idle (w : Watch) : Prop where
  /-- it holds the mutex -/
  phase : w.phase = .inside
  /-- nothing is waited for -/
  armed : w.armed = none
  /-- interrupts are enabled -/
  enabled : w.status.Enabled

end Watch

/-! ## The routines keep the discipline -/

section

open Watch

variable {mutex : Sem} {w : Watch} {E : End → Watch → Prop}

theorem Watch.Idle.unlock {Q : Unit → Watch → Prop} (h : w.Idle)
    (hQ : ∀ w : Watch, w.Done → Q () w) :
    Prog.wpx (contract mutex) (sup (.verhogen mutex)) Q E w :=
  Watch.unlock h.phase h.enabled (hQ _ ⟨rfl, h.armed, h.enabled⟩)

theorem readWriteBacking_disciplined {cylinder sector : ℤ} {head comm address : Word}
    (hphase : w.phase = .before) (harmed : w.armed = none) :
    Prog.wpx (contract (.mutexSemArray backingStore))
      (readWriteBacking cylinder sector head comm address) (fun _ w => w.Done) (fun _ _ => True)
      w := by
  simp only [readWriteBacking]
  split
  · trivial
  simp only [Prog.wpx_bind]
  refine lock hphase ?_
  refine disable fun _ hdis => ?_
  refine command (by decide) rfl hdis harmed ?_
  refine await rfl ?_
  refine enable rfl fun _ hen => ?_
  split
  · simp only [Prog.wpx_bind]
    refine disable fun _ hdis => ?_
    refine data rfl ?_
    refine command (by decide) rfl hdis rfl ?_
    refine await rfl ?_
    refine enable rfl fun _ hen => ?_
    exact unlock rfl hen ⟨rfl, rfl, hen⟩
  · exact unlock rfl hen ⟨rfl, rfl, hen⟩
theorem writeTerminalLoop_disciplined {procID : ℤ} {Q : Unit → Watch → Prop} (k : ℕ) (a : Word)
    (h : w.Idle) (hQ : ∀ w : Watch, w.Idle → Q () w) (hE : ∀ w, E .panic w) :
    Prog.wpx (contract mutex) (writeTerminalLoop (term0Dev + (procID - 1)) procID k a) Q E w := by
  induction k generalizing a w with
  | zero => exact hQ w h
  | succ k ih =>
    simp only [writeTerminalLoop, Prog.wpx_bind]
    refine disable fun _ hdis => ?_
    refine other (fun _ => trivial) (fun _ => rfl) fun c => ?_
    refine command (by decide) h.phase hdis h.armed ?_
    refine await rfl ?_
    refine enable rfl fun _ hen => ?_
    split
    · exact hE _
    · exact ih _ ⟨h.phase, rfl, hen⟩

theorem writeTerminal_disciplined {a : Word} {len procID : ℤ} (hphase : w.phase = .before)
    (harmed : w.armed = none) (hen : w.status.Enabled) :
    Prog.wpx (contract (.mutexSemArray (termWriteSem + (procID - 1))))
      (writeTerminal a len procID) (fun _ w => w.Done) (fun _ _ => True) w := by
  simp only [writeTerminal, Prog.wpx_bind]
  refine lock hphase ?_
  refine writeTerminalLoop_disciplined _ a ⟨rfl, harmed, hen⟩ (fun w h => ?_) fun _ => trivial
  exact h.unlock fun _ h => h

theorem readTerminalLoop_disciplined {procID : ℤ} {Q : Word → Watch → Prop} (fuel : ℕ)
    (a count : Word) (h : w.Idle) (hQ : ∀ b (w : Watch), w.Idle → Q b w) (hE : ∀ e w, E e w) :
    Prog.wpx (contract mutex) (readTerminalLoop (term0Dev + (procID - 1)) procID fuel a count)
      Q E w := by
  induction fuel generalizing a count w with
  | zero => exact hE _ _
  | succ fuel ih =>
    simp only [readTerminalLoop, Prog.wpx_bind]
    refine disable fun _ hdis => ?_
    refine command (by decide) h.phase hdis h.armed ?_
    refine await rfl ?_
    refine enable rfl fun _ hen => ?_
    split
    · split
      · exact hE _ _
      · exact hQ _ _ ⟨h.phase, rfl, hen⟩
    · simp only [Prog.wpx_bind]
      refine other (fun _ => trivial) (fun _ => rfl) fun _ => ?_
      split
      · exact hE _ _
      · exact ih _ _ ⟨h.phase, rfl, hen⟩

theorem readTerminal_disciplined {fuel : ℕ} {a : Word} {procID : ℤ} (hphase : w.phase = .before)
    (harmed : w.armed = none) (hen : w.status.Enabled) :
    Prog.wpx (contract (.mutexSemArray (termReadSem + (procID - 1))))
      (readTerminal fuel a procID) (fun _ w => w.Done) (fun _ _ => True) w := by
  simp only [readTerminal, Prog.wpx_bind]
  refine lock hphase ?_
  refine readTerminalLoop_disciplined fuel a 0 ⟨rfl, harmed, hen⟩ (fun _ w h => ?_)
    fun _ _ => trivial
  refine other (fun _ => trivial) (fun _ => rfl) fun _ => ?_
  exact h.unlock fun _ h => h

theorem writePrinterLoop_disciplined {procID : ℤ} {Q : Unit → Watch → Prop} (k : ℕ) (a : Word)
    (h : w.Idle) (hQ : ∀ w : Watch, w.Idle → Q () w) (hE : ∀ w, E .panic w) :
    Prog.wpx (contract mutex) (writePrinterLoop (print0Dev + (procID - 1)) procID k a) Q E w := by
  induction k generalizing a w with
  | zero => exact hQ w h
  | succ k ih =>
    simp only [writePrinterLoop, Prog.wpx_bind]
    refine disable fun _ hdis => ?_
    refine other (fun _ => trivial) (fun _ => rfl) fun c => ?_
    refine data h.phase ?_
    refine command (by decide) h.phase hdis h.armed ?_
    refine await rfl ?_
    refine enable rfl fun _ hen => ?_
    split
    · exact hE _
    · exact ih _ ⟨h.phase, rfl, hen⟩

theorem writePrinter_disciplined {a : Word} {len procID : ℤ} (hphase : w.phase = .before)
    (harmed : w.armed = none) (hen : w.status.Enabled) :
    Prog.wpx (contract (.mutexSemArray (print0Dev + (procID - 1))))
      (writePrinter a len procID) (fun _ w => w.Done) (fun _ _ => True) w := by
  simp only [writePrinter, Prog.wpx_bind]
  refine lock hphase ?_
  refine writePrinterLoop_disciplined _ a ⟨rfl, harmed, hen⟩ (fun w h => ?_) fun _ => trivial
  exact h.unlock fun _ h => h

theorem copyWords_disciplined {Q : Unit → Watch → Prop} (k : ℕ) (source target : Word)
    (hQ : Q () w) : Prog.wpx (contract mutex) (copyWords k source target) Q E w := by
  induction k generalizing source target with
  | zero => exact hQ
  | succ k ih =>
    simp only [copyWords, Prog.wpx_bind]
    refine other (fun _ => trivial) (fun _ => rfl) fun _ => ?_
    exact other (fun _ => trivial) (fun _ => rfl) fun _ => ih _ _

/-- A page that is copied under a condition. -/
theorem copyPage_disciplined (c : Prop) [Decidable c] (source target : Word)
    {Q : Unit → Watch → Prop} (hQ : Q () w) :
    Prog.wpx (contract mutex) (if c then copyPage source target else pure ()) Q E w := by
  split
  · exact copyWords_disciplined _ source target hQ
  · exact hQ

theorem invalidateFrames_disciplined {procID : ℤ} {Q : Bool → Watch → Prop} (k i : ℕ) (m : Bool)
    (hQ : ∀ b, Q b w) (hE : E .stuck w) :
    Prog.wpx (contract mutex) (invalidateFrames procID k i m) Q E w := by
  induction k generalizing i m with
  | zero => exact hQ m
  | succ k ih =>
    simp only [invalidateFrames, Prog.wpx_bind]
    refine other (fun _ => trivial) (fun _ => rfl) fun frame => ?_
    split
    · split
      · exact hE
      · simp only [Prog.wpx_bind]
        refine other (fun _ => trivial) (fun _ => rfl) fun _ => ?_
        refine other (fun _ => trivial) (fun _ => rfl) fun _ => ?_
        exact other (fun _ => trivial) (fun _ => rfl) fun _ => ih _ _
    · exact ih _ _

/-- Another semaphore. -/
theorem Watch.otherSem {s : Sem} {Q : Unit → Watch → Prop} (hne : s ≠ mutex) (hQ : Q () w) :
    Prog.wpx (contract mutex) (sup (.passeren s)) Q E w ∧
      Prog.wpx (contract mutex) (sup (.verhogen s)) Q E w := by
  refine ⟨other (fun _ h => absurd h hne) (fun _ => ?_) fun _ => hQ,
    other (fun _ h => absurd h hne) (fun _ => ?_) fun _ => hQ⟩
  · exact if_neg hne
  · exact if_neg hne

/-- `virtualDeath` does not come back. -/
theorem virtualDeath_disciplined [Support] {α : Type} {i procID : ℤ} {Q : α → Watch → Prop}
    (harmed : w.armed = none) :
    Prog.wpx (contract (.mutexSemArray i)) (virtualDeath procID) Q (fun _ _ => True) w := by
  simp only [virtualDeath, Prog.wpx_bind]
  refine (otherSem (by simp) ?_).1
  refine disable fun _ _ => ?_
  refine invalidateFrames_disciplined _ _ _ (fun b => ?_) trivial
  split
  · simp only [Prog.wpx_bind]
    refine other (fun _ => trivial) (fun _ => rfl) fun _ => ?_
    refine enable harmed fun _ _ => ?_
    exact (otherSem (by simp) (otherSem (by simp) trivial).2).2
  · simp only [Prog.wpx_bind]
    refine enable harmed fun _ _ => ?_
    exact (otherSem (by simp) (otherSem (by simp) trivial).2).2

/-- `diskIo` keeps the discipline when its seek fails. -/
theorem diskIo_disciplined [Support] {a diskNo sectNo comm : Word} {procID : ℤ}
    (hphase : w.phase = .before) (harmed : w.armed = none) (hio : w.io 0 ≠ ready) :
    Prog.wpx (contract (.mutexSemArray diskNo.toInt)) (diskIo a diskNo sectNo comm procID)
      (fun _ w => w.Done) (fun _ _ => True) w := by
  simp only [diskIo]
  split
  · rw [Prog.wpx_bind]
    exact virtualDeath_disciplined harmed
  split
  · trivial
  simp only [diskTransfer, Prog.wpx_bind]
  refine lock hphase ?_
  refine copyPage_disciplined _ _ _ ?_
  refine disable fun _ hdis => ?_
  refine command (by decide) rfl hdis harmed ?_
  refine await (by simp [ioRegister, termInt, diskInt]) ?_
  refine enable rfl fun _ hen => ?_
  rw [if_neg hio, Prog.wpx_pure]
  refine copyPage_disciplined _ _ _ ?_
  refine other (fun _ => trivial) (fun _ => rfl) fun _ => ?_
  exact unlock rfl hen ⟨rfl, rfl, hen⟩

/-- The watch, without the discipline. -/
abbrev Watch.free (mutex : Sem) : Prog.Contract SupOp Watch :=
  Prog.tracked law (fun _ _ _ _ => True) (see mutex)

theorem Watch.free_of {α : Type} {m : SupM α} {Q : α → Watch → Prop}
    (h : Prog.wpx (contract mutex) m Q E w) : Prog.wpx (free mutex) m Q E w :=
  Prog.tracked_weaken (fun _ _ _ _ _ => trivial) h

/-- When its seek succeeds, `diskIo` returns with interrupts disabled. -/
theorem diskIo_masked [Support] {a diskNo sectNo comm : Word} {procID : ℤ}
    (hphase : w.phase = .before) (harmed : w.armed = none) (hio : w.io 0 = ready) :
    Prog.wpx (free (.mutexSemArray diskNo.toInt)) (diskIo a diskNo sectNo comm procID)
      (fun _ w => ¬ w.status.Enabled) (fun _ _ => True) w := by
  simp only [diskIo]
  split
  · rw [Prog.wpx_bind]
    exact free_of (virtualDeath_disciplined harmed)
  split
  · trivial
  simp only [diskTransfer, Prog.wpx_bind]
  refine free_of (lock hphase ?_)
  refine free_of (copyPage_disciplined _ _ _ ?_)
  refine free_of (disable fun _ hdis => ?_)
  refine free_of (command (by decide) rfl hdis harmed ?_)
  refine free_of (await (by simp [ioRegister, termInt, diskInt]) ?_)
  refine free_of (enable rfl fun _ hen => ?_)
  rw [if_pos hio]
  simp only [Prog.wpx_bind]
  refine free_of (disable fun _ hdis => ?_)
  refine free_of (data rfl ?_)
  refine free_of (command (by decide) rfl hdis rfl ?_)
  refine free_of (await (by simp [ioRegister, termInt, diskInt]) ?_)
  refine free_of (disable fun status hdis => ?_)
  rw [Prog.wpx_pure]
  refine free_of (copyPage_disciplined _ _ _ ?_)
  refine free_of (other (fun _ => trivial) (fun _ => rfl) fun _ => ?_)
  refine fun _ _ => ⟨trivial, ?_⟩
  rw [see, if_pos rfl]
  exact hdis.not_enabled
end

/-! ## Routines that can return -/

section

variable {G : Type} {rule : ∀ β, SupOp β → β → G → Prop} {note : ∀ β, SupOp β → β → G → G}

theorem enableInterrupts_returns (hop : ∀ {α} (o : SupOp α), Prog.Returns rule note (sup o))
    (b : Bool) : Prog.Returns rule note (enableInterrupts b) := .seq (hop _) fun _ => hop _

theorem copyWords_returns (hop : ∀ {α} (o : SupOp α), Prog.Returns rule note (sup o)) (k : ℕ)
    (source target : Word) : Prog.Returns rule note (copyWords k source target) := by
  induction k generalizing source target with
  | zero => exact .ret ()
  | succ k ih => exact .seq (hop _) fun _ => .seq (hop _) fun _ => ih _ _

theorem diskTransfer_returns (hop : ∀ {α} (o : SupOp α), Prog.Returns rule note (sup o))
    {diskNo head cylinder sector comm : Word} :
    Prog.Returns rule note (diskTransfer diskNo head cylinder sector comm) := by
  have hint := enableInterrupts_returns hop
  refine .seq (hint _) fun _ => .seq (hop _) fun _ => .seq (hop _) fun _ =>
    .seq (hint _) fun _ => ?_
  split
  · refine .seq (hint _) fun _ => .seq (hop _) fun _ => .seq (hop _) fun _ => ?_
    exact .seq (hop _) fun _ => .seq (hint _) fun _ => .ret _
  · exact .ret _

/-- A write to a disk can return. -/
theorem diskIo_returns [Support] (hop : ∀ {α} (o : SupOp α), Prog.Returns rule note (sup o))
    {a diskNo sectNo : Word} {procID : ℤ} (hok : ¬ (diskNo.toInt ≤ 0 ∨ a < kUseg2Addr)) :
    Prog.Returns rule note (diskIo a diskNo sectNo writeBlk procID) := by
  simp only [diskIo, if_neg hok]
  refine .seq (hop _) fun _ => .seq (copyWords_returns hop _ _ _) fun _ => ?_
  refine .seq (diskTransfer_returns hop) fun _ => .seq (.ret ()) fun _ => ?_
  exact .seq (hop _) fun _ => hop _

end

/-- Each operation has a result. -/
theorem SupOp.exists_result {α : Type} (o : SupOp α) : Nonempty α := by
  cases o with
  | stst => exact ⟨⟨fun _ => 0⟩⟩
  | vInsertBlocked | insertDelay => exact ⟨true⟩
  | swapPool => exact ⟨⟨0, 0, 0, none⟩⟩
  | _ => first | exact ⟨()⟩ | exact ⟨0⟩

theorem Watch.exists_result {α : Type} (o : SupOp α) (w : Watch) : ∃ b, law α o b w := by
  obtain ⟨b⟩ := o.exists_result
  cases o with
  | getSTATUS => exact ⟨w.status, rfl⟩
  | waitForIo => exact ⟨w.io 0, rfl⟩
  | _ => exact ⟨b, trivial⟩

/-! ## The discipline -/

/-- A small system. -/
abbrev sampleSupport : Support where
  maxUserProc := 2
  swapSize := 2
  ramtop := 0x20100000
  tpSem procID := 0x20000000 + word procID

/-- A device routine that is entered with interrupts enabled and returns has kept the discipline
of its mutex exactly when it is not `diskIo`, or its seek has failed. -/
theorem critical_sections [Support] (r : Routine) {status : Word} {io : ℕ → Word}
    {tr : List (Prog.Event SupOp)} (hen : status.Enabled) (htr : r.program.run.Trace tr (.ok ()))
    (hlaw : Prog.Along Watch.law (Watch.see r.mutex) (Watch.entry status io) tr) :
    Disciplined r.mutex (Watch.entry status io) tr ↔ (r.IsDiskIO → io 0 ≠ ready) := by
  cases r with
  | readWriteBacking cylinder sector head comm address =>
    exact iff_of_true (Prog.of_tracked (readWriteBacking_disciplined rfl rfl) htr hlaw)
      fun h => h.elim
  | writeTerminal virtAddr len procID =>
    exact iff_of_true (Prog.of_tracked (writeTerminal_disciplined rfl rfl hen) htr hlaw)
      fun h => h.elim
  | readTerminal fuel addr procID =>
    exact iff_of_true (Prog.of_tracked (readTerminal_disciplined rfl rfl hen) htr hlaw)
      fun h => h.elim
  | writePrinter virtAddr len procID =>
    exact iff_of_true (Prog.of_tracked (writePrinter_disciplined rfl rfl hen) htr hlaw)
      fun h => h.elim
  | diskIo blockAddr diskNo sectNo readWrite procID =>
    by_cases hio : io 0 = ready
    · have hmask := (Prog.of_tracked (diskIo_masked rfl rfl hio) htr hlaw).2
      exact iff_of_false (fun h => hmask h.2.enabled) fun h => h trivial hio
    · exact iff_of_true (Prog.of_tracked (diskIo_disciplined rfl rfl hio) htr hlaw) fun _ => hio

/-- A write to disk 1 whose seek fails. -/
theorem critical_sections_write : ∃ (_ : Support) (tr : List (Prog.Event SupOp)),
    (diskIo 0x80000000 1 0 writeBlk 1).run.Trace tr (.ok ()) ∧
      Disciplined (.mutexSemArray 1) (Watch.entry 0 fun _ => 0) tr := by
  let _ := sampleSupport
  let r := Routine.diskIo 0x80000000 1 0 writeBlk 1
  have hret : Prog.Returns Watch.law (Watch.see r.mutex) (diskIo 0x80000000 1 0 writeBlk 1) :=
    diskIo_returns (fun o => .lift (Watch.exists_result o)) (by decide)
  obtain ⟨tr, _, htr, hlaw⟩ := hret.trace (Watch.entry 0 fun _ => 0)
  exact ⟨sampleSupport, tr, htr,
    (critical_sections r (by decide) htr hlaw).mpr fun _ => by decide⟩

/-- A write to disk 1 whose seek succeeds. -/
theorem critical_sections_fails : ¬ ∀ (_ : Support) (r : Routine) (status : Word) (io : ℕ → Word)
    (tr : List (Prog.Event SupOp)), status.Enabled → r.program.run.Trace tr (.ok ()) →
      Prog.Along Watch.law (Watch.see r.mutex) (Watch.entry status io) tr →
        Disciplined r.mutex (Watch.entry status io) tr := by
  intro h
  let _ := sampleSupport
  let r := Routine.diskIo 0x80000000 1 0 writeBlk 1
  have hret : Prog.Returns Watch.law (Watch.see r.mutex) (diskIo 0x80000000 1 0 writeBlk 1) :=
    diskIo_returns (fun o => .lift (Watch.exists_result o)) (by decide)
  obtain ⟨tr, _, htr, hlaw⟩ := hret.trace (Watch.entry 0 fun _ => ready)
  have hmask := (Prog.of_tracked (diskIo_masked rfl rfl rfl) htr hlaw).2
  exact hmask (h sampleSupport r 0 (fun _ => ready) tr (by decide) htr hlaw).2.enabled

end Jaeos
