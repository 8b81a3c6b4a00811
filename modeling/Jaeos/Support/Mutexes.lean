import Jaeos.Lib.Locks
import Jaeos.Support.InitProc
import Jaeos.Support.Sections

/-!
# The mutexes of the support level cannot deadlock

`swapSem` and the semaphores of `mutexSemArray` are locks. User processes that have been started
run the handlers, in any order and interrupted anywhere, and a handler that reads or writes memory
may take page faults there, or a trap that ends its process. All results of the hardware, of the
devices and of the other modules are possible. The variables of the handlers are on stacks of their
own, one for each process; `uProcInit`, whose stack all processes share, is over.

The mutexes of the devices are taken before `swapSem`, and `swapSem` before the mutex of the
backing store.
-/

namespace Jaeos

/-! ## Locks -/

/-- `swapSem`, or a semaphore of `mutexSemArray`. -/
def Sem.isMutex : Sem → Bool
  | .swapSem => true
  | .mutexSemArray i => decide (0 ≤ i ∧ i < maxSema)
  | _ => false

/-- The order of the mutexes. -/
def Sem.rank : Sem → ℕ
  | .swapSem => 1
  | .mutexSemArray i => if i = backingStore then 2 else 0
  | _ => 0

/-- What the operations do with mutexes. SYS7 and SYS4 on another semaphore wait for a process
or for the clock; SYS8 waits for a device. -/
def SupOp.lockUse : ∀ β, SupOp β → LockUse Sem
  | _, .passeren s => if s.isMutex then .acquire s else .wait
  | _, .verhogen s => if s.isMutex then .release s else .other
  | _, .waitForClock => .wait
  | _, _ => .other

/-- The operation is not a SYS4 beyond the end of `mutexSemArray`. -/
def SupOp.InRange : ∀ β, SupOp β → Prop
  | _, .passeren (.mutexSemArray i) => 0 ≤ i ∧ i < maxSema
  | _, _ => True

/-- The operation reads or writes memory. -/
def SupOp.accesses : ∀ β, SupOp β → Bool
  | _, .loadByte _ => true
  | _, .storeByte _ _ => true
  | _, .loadWord _ => true
  | _, .storeWord _ _ => true
  | _, _ => false

/-! ## Traps within a handler -/

section

variable [Support]

/-- What a handler meets when it reads or writes memory. -/
structure Mishap where
  /-- it takes this many page faults -/
  faults : ℕ
  /-- then a trap ends its process -/
  fatal : Bool

/-- A handler of a trap within a handler: its `LDST` goes back to the handler. -/
def within (m : SupM Unit) : SupM Unit := ExceptT.mk do
  match ← m.run with
  | .error (.ldst _ _) => return .ok ()
  | r => return r

/-- One page fault after the other. -/
def takeFaults : ℕ → SupM Unit
  | 0 => return ()
  | k + 1 => do
    within vmMemHandler
    takeFaults k

/-- What runs before memory can be read or written. -/
def Mishap.program (m : Mishap) : SupM Unit := do
  takeFaults m.faults
  if m.fatal then
    vmPrgmHandler

/-- How the program of a process has ended. -/
inductive Outcome where
  /-- it has ended by itself -/
  | ended (r : Except End Unit)
  /-- a trap within it has ended the process -/
  | lost (e : End)

/-- A program that may take traps where it reads or writes memory, from its operation `t` on. -/
def withTraps (mishap : ℕ → Mishap) : ℕ → Prog SupOp (Except End Unit) → Prog SupOp Outcome
  | _, .ret r => .ret (.ended r)
  | t, .call o k =>
    if SupOp.accesses _ o then do
      match ← (mishap t).program.run with
      | .ok () => .call o fun b => withTraps mishap (t + 1) (k b)
      | .error e => .ret (.lost e)
    else
      .call o fun b => withTraps mishap (t + 1) (k b)

/-! ## User processes -/

/-- The process is in user mode. -/
inductive Outcome.UserMode : Outcome → Prop where
  /-- a handler has loaded its old state -/
  | back (procID : ℤ) (type : TrapType) : UserMode (.ended (.error (.ldst procID type)))
  /-- `uProcInit` has loaded its first state -/
  | start (st : State) : UserMode (.ended (.error (.start st)))

/-- What must be given back at the end of a program. `PANIC` stops the machine. -/
def Outcome.Leaves : Outcome → List Sem → Prop
  | .ended (.error .panic), _ => True
  | .ended (.error .stuck), _ => True
  | .ended _, held => held = []
  | .lost _, _ => True

/-- The mutexes and the user processes. -/
def mutexes : Locks SupOp ℤ Sem Outcome where
  use := SupOp.lockUse
  follow := SupOp.InRange
  next _ a p := a.UserMode ∧ ∃ (h : Handler) (fuel : ℕ) (mishap : ℕ → Mishap),
    p = withTraps mishap 0 (h.program fuel).run

/-- No mutex is taken, and the user processes have been started: each of them is in user mode, or
has died since. -/
structure Mutexes.Starts (c : Locks.Config SupOp ℤ Sem Outcome) : Prop where
  /-- the mutexes are free -/
  free : ∀ l, c.holder l = none
  /-- the user processes -/
  user : ∀ i, IsUser i → ∃ a, c.prog i = .ret a ∧ (a.UserMode ∨ a = .ended (.error .terminated))
  /-- there are no others -/
  others : ∀ i, ¬ IsUser i → c.prog i = .ret (.ended (.error .terminated))

end

/-! ## The rules -/

section

variable [Support] {held : List Sem} {s : Sem} {E : End → List Sem → Prop}

/-- The contract of the operations: memory is read and written only when `swapSem` may still be
taken. -/
def ruled : Prog.Contract SupOp (List Sem) := fun β o Q held =>
  (SupOp.accesses β o = true → ∀ m ∈ held, m.rank < Sem.rank .swapSem) ∧
    mutexes.spec Sem.rank β o Q held

theorem ruled_mono : Prog.Monotone ruled :=
  fun o _ _ _ hQ h => ⟨h.1, Locks.spec_mono Sem.rank mutexes o hQ h.2⟩

namespace Mutexes

/-- An operation. -/
theorem op {β : Type} {o : SupOp β} {use : LockUse Sem} {Q : β → List Sem → Prop}
    (haccess : SupOp.accesses β o = true → ∀ m ∈ held, m.rank < Sem.rank .swapSem)
    (huse : mutexes.use β o = use) (hok : Locks.ok Sem.rank held use)
    (hQ : ∀ b, Q b (Locks.after held use)) : Prog.wpx ruled (sup o) Q E held := by
  subst huse
  exact ⟨haccess, hok, hQ⟩

/-- A mutex of a higher rank is taken. -/
theorem lock {Q : Unit → List Sem → Prop} (hs : s.isMutex = true)
    (hrank : ∀ m ∈ held, m.rank < s.rank) (hQ : Q () (s :: held)) :
    Prog.wpx ruled (sup (.passeren s)) Q E held := by
  have huse : mutexes.use Unit (.passeren s) = .acquire s := if_pos hs
  exact op (fun h => by simp [SupOp.accesses] at h) huse hrank fun _ => hQ

/-- A mutex is given back. -/
theorem unlock {Q : Unit → List Sem → Prop} (hs : s.isMutex = true) (hQ : Q () held) :
    Prog.wpx ruled (sup (.verhogen s)) Q E (s :: held) := by
  have huse : mutexes.use Unit (.verhogen s) = .release s := if_pos hs
  apply op (fun h => by simp [SupOp.accesses] at h) huse List.mem_cons_self
  intro _
  rw [Locks.after, List.erase_cons_head]
  exact hQ

/-- An operation that has nothing to do with mutexes. -/
theorem other {β : Type} {o : SupOp β} {Q : β → List Sem → Prop}
    (haccess : SupOp.accesses β o = false) (huse : mutexes.use β o = .other)
    (hQ : ∀ b, Q b held) : Prog.wpx ruled (sup o) Q E held :=
  op (fun h => by simp [haccess] at h) huse trivial hQ

/-- Memory is read or written. -/
theorem access {β : Type} {o : SupOp β} {Q : β → List Sem → Prop}
    (hrank : ∀ m ∈ held, m.rank < Sem.rank .swapSem) (huse : mutexes.use β o = .other)
    (hQ : ∀ b, Q b held) : Prog.wpx ruled (sup o) Q E held :=
  op (fun _ => hrank) huse trivial hQ

/-- A process may wait for another one when it holds no mutex. -/
theorem wait {β : Type} {o : SupOp β} {Q : β → List Sem → Prop}
    (haccess : SupOp.accesses β o = false) (huse : mutexes.use β o = .wait)
    (hQ : ∀ b, Q b []) : Prog.wpx ruled (sup o) Q E [] :=
  op (fun h => by simp [haccess] at h) huse rfl hQ

theorem setInterrupts {onOff : Bool} {Q : Unit → List Sem → Prop} (hQ : Q () held) :
    Prog.wpx ruled (enableInterrupts onOff) Q E held := by
  simp only [enableInterrupts, Prog.wpx_bind]
  exact other rfl rfl fun _ => other rfl rfl fun _ => hQ

/-- What a process holds that has done SYS4 on a semaphore: nothing, if it is no mutex. -/
def took (s : Sem) : List Sem := if s.isMutex then [s] else []

omit [Support] in
theorem mem_took {m : Sem} (h : m ∈ took s) : m = s := by
  rw [took] at h
  split at h
  · exact List.mem_singleton.mp h
  · cases h

/-- SYS4 on a semaphore of `mutexSemArray`, or beyond its end. -/
theorem take {Q : Unit → List Sem → Prop} (hQ : Q () (took s)) :
    Prog.wpx ruled (sup (.passeren s)) Q E [] := by
  by_cases hs : s.isMutex = true
  · rw [took, if_pos hs] at hQ
    exact lock hs (fun m hm => by cases hm) hQ
  · rw [took, if_neg hs] at hQ
    exact wait rfl (if_neg hs) fun _ => hQ

theorem give {Q : Unit → List Sem → Prop} (hQ : Q () []) :
    Prog.wpx ruled (sup (.verhogen s)) Q E (took s) := by
  by_cases hs : s.isMutex = true
  · rw [took, if_pos hs]
    exact unlock hs hQ
  · rw [took, if_neg hs]
    exact other rfl (if_neg hs) fun _ => hQ

/-! ## The routines -/

omit [Support] in
/-- The mutex of the backing store is the last one. -/
theorem rank_lt_backing (hrank : ∀ m ∈ held, m.rank ≤ Sem.rank .swapSem) :
    ∀ m ∈ held, m.rank < Sem.rank (.mutexSemArray backingStore) :=
  fun m hm => Nat.lt_of_le_of_lt (hrank m hm) (by decide)

theorem readWriteBacking_ruled {cylinder sector : ℤ} {head comm address : Word}
    {Q : Unit → List Sem → Prop} (hrank : ∀ m ∈ held, m.rank ≤ Sem.rank .swapSem)
    (hQ : Q () held) (hE : E .panic held) :
    Prog.wpx ruled (readWriteBacking cylinder sector head comm address) Q E held := by
  simp only [readWriteBacking]
  split
  · exact hE
  simp only [Prog.wpx_bind]
  refine lock (by decide) (rank_lt_backing hrank) ?_
  refine setInterrupts ?_
  refine other rfl rfl fun _ => other rfl rfl fun _ => ?_
  refine setInterrupts ?_
  split
  · simp only [Prog.wpx_bind]
    refine setInterrupts ?_
    refine other rfl rfl fun _ => other rfl rfl fun _ => other rfl rfl fun _ => ?_
    refine setInterrupts ?_
    exact unlock (by decide) hQ
  · exact unlock (by decide) hQ

theorem invalidateFrames_ruled {procID : ℤ} {Q : Bool → List Sem → Prop} (k i : ℕ) (m : Bool)
    (hQ : ∀ b, Q b held) (hE : E .stuck held) :
    Prog.wpx ruled (invalidateFrames procID k i m) Q E held := by
  induction k generalizing i m with
  | zero => exact hQ m
  | succ k ih =>
    simp only [invalidateFrames, Prog.wpx_bind]
    refine other rfl rfl fun frame => ?_
    split
    · split
      · exact hE
      · simp only [Prog.wpx_bind]
        exact other rfl rfl fun _ => other rfl rfl fun _ => other rfl rfl fun _ => ih _ _
    · exact ih _ _

/-- `virtualDeath` gives `swapSem` back. -/
theorem virtualDeath_ruled {α : Type} {procID : ℤ} {Q : α → List Sem → Prop}
    (hrank : ∀ m ∈ held, m.rank < Sem.rank .swapSem) (hE : E .terminated held)
    (hstuck : E .stuck (.swapSem :: held)) :
    Prog.wpx ruled (virtualDeath procID) Q E held := by
  simp only [virtualDeath, Prog.wpx_bind]
  refine lock rfl hrank ?_
  refine setInterrupts ?_
  refine invalidateFrames_ruled _ _ _ (fun b => ?_) hstuck
  have hend : Prog.wpx ruled (enableInterrupts true) (fun _ => Prog.wpx ruled
      (sup (.verhogen .swapSem)) (fun _ => Prog.wpx ruled (sup (.verhogen .masterSem))
        (fun _ => Prog.wpx ruled (throw .terminated) Q E) E) E) E (.swapSem :: held) :=
    setInterrupts (unlock rfl (other rfl rfl fun _ => hE))
  split
  · simp only [Prog.wpx_bind]
    exact other rfl rfl fun _ => hend
  · exact hend

/-- How a handler of a trap ends that began with these mutexes. -/
def Back (held : List Sem) : End → List Sem → Prop
  | .panic, _ => True
  | .stuck, _ => True
  | _, h => h = held

theorem vmPrgmHandler_ruled (hrank : ∀ m ∈ held, m.rank < Sem.rank .swapSem) :
    Prog.wpx ruled vmPrgmHandler (fun _ h => h = held) (Back held) held := by
  simp only [vmPrgmHandler, Prog.wpx_bind]
  exact other rfl rfl fun _ => virtualDeath_ruled hrank rfl trivial

/-- The page that is missed is read into a frame, and `swapSem` is given back. -/
theorem fill_ruled (seg page i : ℤ) (f : ℕ) {Q : Unit → List Sem → Prop}
    (hrank : ∀ m ∈ held, m.rank < Sem.rank .swapSem) :
    Prog.wpx ruled (do
      readWriteBacking page i userProcHead readBlk (swapAddr f)
      enableInterrupts false
      if seg = kUseg3 then
        sup (.setSwapPool f ⟨i, seg, page, some (.kUSeg3 page)⟩)
        sup (.setPteEntryLO (.kUSeg3 page) (swapAddr f ||| valid ||| dirty ||| global))
      else
        sup (.setSwapPool f ⟨i, seg, page, some (.uProc i page)⟩)
        sup (.setPteEntryLO (.uProc i page) (swapAddr f ||| valid ||| dirty))
      sup .tlbclr
      enableInterrupts true
      sup (.verhogen .swapSem)
      throw (.ldst i .tlbTrap)) Q (Back held) (.swapSem :: held) := by
  have hheld : ∀ m ∈ Sem.swapSem :: held, m.rank ≤ Sem.rank .swapSem :=
    List.forall_mem_cons.mpr ⟨Nat.le_refl _, fun m hm => Nat.le_of_lt (hrank m hm)⟩
  simp only [Prog.wpx_bind]
  refine readWriteBacking_ruled hheld ?_ trivial
  refine setInterrupts ?_
  split
  · simp only [Prog.wpx_bind]
    refine other rfl rfl fun _ => other rfl rfl fun _ => other rfl rfl fun _ => ?_
    exact setInterrupts (unlock rfl rfl)
  · simp only [Prog.wpx_bind]
    refine other rfl rfl fun _ => other rfl rfl fun _ => other rfl rfl fun _ => ?_
    exact setInterrupts (unlock rfl rfl)

/-- `vmMemHandler` gives `swapSem` back, and takes the mutex of the backing store inside. -/
theorem vmMemHandler_ruled (hrank : ∀ m ∈ held, m.rank < Sem.rank .swapSem) :
    Prog.wpx ruled vmMemHandler (fun _ h => h = held) (Back held) held := by
  have hheld : ∀ m ∈ Sem.swapSem :: held, m.rank ≤ Sem.rank .swapSem :=
    List.forall_mem_cons.mpr ⟨Nat.le_refl _, fun m hm => Nat.le_of_lt (hrank m hm)⟩
  simp only [vmMemHandler, chooseFrame, Prog.wpx_bind]
  refine other rfl rfl fun i => other rfl rfl fun cause => ?_
  split
  · simp only [Prog.wpx_bind]
    exact virtualDeath_ruled hrank rfl trivial
  simp only [Prog.wpx_bind]
  refine other rfl rfl fun entryHi => lock rfl hrank ?_
  refine other rfl rfl fun f => other rfl rfl fun _ => ?_
  rw [Prog.wpx_pure]
  refine other rfl rfl fun frame => ?_
  split
  · rw [Prog.wpx_bind]
    refine setInterrupts ?_
    split
    · trivial
    · simp only [Prog.wpx_bind]
      refine other rfl rfl fun _ => other rfl rfl fun _ => other rfl rfl fun _ => ?_
      refine setInterrupts (other rfl rfl fun frame => ?_)
      refine readWriteBacking_ruled hheld ?_ trivial
      have hfill := fill_ruled (missingSegNum entryHi) (missingPageNum entryHi) (asid i)
        ((f + 1) % Support.swapSize) (Q := fun _ h => h = held) hrank
      simp only [Prog.wpx_bind] at hfill
      exact hfill
  · exact fill_ruled _ _ _ _ hrank

/-! ## The system calls -/

omit [Support] in
/-- The mutex of a device comes before `swapSem`. -/
theorem rank_took {i : ℤ} (hi : i ≠ backingStore) :
    ∀ m ∈ took (.mutexSemArray i), m.rank < Sem.rank .swapSem := by
  intro m hm
  obtain rfl := mem_took hm
  have hzero : Sem.rank (.mutexSemArray i) = 0 := if_neg hi
  rw [hzero]
  decide

/-- What a system call leaves behind. -/
def Clean : End → List Sem → Prop
  | .panic, _ => True
  | .stuck, _ => True
  | _, h => h = []

theorem writeTerminalLoop_ruled {devNum procID : ℤ} {Q : Unit → List Sem → Prop} (k : ℕ)
    (a : Word) (hrank : ∀ m ∈ held, m.rank < Sem.rank .swapSem) (hQ : Q () held) :
    Prog.wpx ruled (writeTerminalLoop devNum procID k a) Q Clean held := by
  induction k generalizing a with
  | zero => exact hQ
  | succ k ih =>
    simp only [writeTerminalLoop, Prog.wpx_bind]
    refine setInterrupts (access hrank rfl fun _ => other rfl rfl fun _ => ?_)
    refine other rfl rfl fun _ => setInterrupts ?_
    split
    · trivial
    · exact ih _

theorem writeTerminal_ruled {a : Word} {len procID : ℤ} (hi : 0 ≤ procID) :
    Prog.wpx ruled (writeTerminal a len procID) (fun _ h => h = []) Clean [] := by
  simp only [writeTerminal, Prog.wpx_bind]
  refine take (writeTerminalLoop_ruled _ _ (rank_took ?_) (give rfl))
  simp only [termWriteSem, backingStore]
  omega

theorem readTerminalLoop_ruled {devNum procID : ℤ} {Q : Word → List Sem → Prop} (fuel : ℕ)
    (a count : Word) (hrank : ∀ m ∈ held, m.rank < Sem.rank .swapSem) (hQ : ∀ b, Q b held) :
    Prog.wpx ruled (readTerminalLoop devNum procID fuel a count) Q Clean held := by
  induction fuel generalizing a count with
  | zero => trivial
  | succ fuel ih =>
    simp only [readTerminalLoop, Prog.wpx_bind]
    refine setInterrupts (other rfl rfl fun _ => other rfl rfl fun _ => setInterrupts ?_)
    split
    · split
      · trivial
      · exact hQ _
    · simp only [Prog.wpx_bind]
      refine access hrank rfl fun _ => ?_
      split
      · trivial
      · exact ih _ _

theorem readTerminal_ruled {fuel : ℕ} {a : Word} {procID : ℤ} (hi : 0 ≤ procID) :
    Prog.wpx ruled (readTerminal fuel a procID) (fun _ h => h = []) Clean [] := by
  simp only [readTerminal, Prog.wpx_bind]
  refine take (readTerminalLoop_ruled _ _ _ (rank_took ?_) fun _ => other rfl rfl fun _ => give rfl)
  simp only [termReadSem, backingStore]
  omega

theorem writePrinterLoop_ruled {devNum procID : ℤ} {Q : Unit → List Sem → Prop} (k : ℕ)
    (a : Word) (hrank : ∀ m ∈ held, m.rank < Sem.rank .swapSem) (hQ : Q () held) :
    Prog.wpx ruled (writePrinterLoop devNum procID k a) Q Clean held := by
  induction k generalizing a with
  | zero => exact hQ
  | succ k ih =>
    simp only [writePrinterLoop, Prog.wpx_bind]
    refine setInterrupts (access hrank rfl fun _ => other rfl rfl fun _ => ?_)
    refine other rfl rfl fun _ => other rfl rfl fun _ => setInterrupts ?_
    split
    · trivial
    · exact ih _

theorem writePrinter_ruled {a : Word} {len procID : ℤ} (hi : 0 ≤ procID) :
    Prog.wpx ruled (writePrinter a len procID) (fun _ h => h = []) Clean [] := by
  simp only [writePrinter, Prog.wpx_bind]
  refine take (writePrinterLoop_ruled _ _ (rank_took ?_) (give rfl))
  simp only [print0Dev, backingStore]
  omega

theorem copyWords_ruled {Q : Unit → List Sem → Prop} (k : ℕ) (source target : Word)
    (hrank : ∀ m ∈ held, m.rank < Sem.rank .swapSem) (hQ : Q () held) :
    Prog.wpx ruled (copyWords k source target) Q E held := by
  induction k generalizing source target with
  | zero => exact hQ
  | succ k ih =>
    simp only [copyWords, Prog.wpx_bind]
    exact access hrank rfl fun _ => access hrank rfl fun _ => ih _ _

/-- A page that is copied under a condition. -/
theorem copyPage_ruled (c : Prop) [Decidable c] (source target : Word) {Q : Unit → List Sem → Prop}
    (hrank : ∀ m ∈ held, m.rank < Sem.rank .swapSem) (hQ : Q () held) :
    Prog.wpx ruled (if c then copyPage source target else pure ()) Q E held := by
  split
  · exact copyWords_ruled _ source target hrank hQ
  · exact hQ

theorem diskTransfer_ruled {diskNo head cylinder sector comm : Word} {Q : Word → List Sem → Prop}
    (hQ : ∀ b, Q b held) :
    Prog.wpx ruled (diskTransfer diskNo head cylinder sector comm) Q E held := by
  simp only [diskTransfer, Prog.wpx_bind]
  refine setInterrupts (other rfl rfl fun _ => other rfl rfl fun _ => setInterrupts ?_)
  split
  · simp only [Prog.wpx_bind]
    refine setInterrupts (other rfl rfl fun _ => other rfl rfl fun _ => other rfl rfl fun _ => ?_)
    exact setInterrupts (hQ _)
  · exact hQ _

theorem diskIo_ruled {a diskNo sectNo comm : Word} {procID : ℤ} :
    Prog.wpx ruled (diskIo a diskNo sectNo comm procID) (fun _ h => h = []) Clean [] := by
  simp only [diskIo]
  split
  · rw [Prog.wpx_bind]
    exact virtualDeath_ruled (fun m hm => by cases hm) rfl trivial
  next hdisk =>
    split
    · trivial
    have hrank : ∀ m ∈ took (.mutexSemArray diskNo.toInt), m.rank < Sem.rank .swapSem := by
      apply rank_took
      simp only [backingStore]
      omega
    simp only [Prog.wpx_bind]
    refine take (copyPage_ruled _ _ _ hrank ?_)
    refine diskTransfer_ruled fun _ => copyPage_ruled _ _ _ hrank ?_
    exact other rfl rfl fun _ => give rfl

theorem vSemVirt_ruled {procID : ℤ} {a : Word} :
    Prog.wpx ruled (vSemVirt procID a) (fun _ h => h = []) Clean [] := by
  have hnone : ∀ m ∈ ([] : List Sem), m.rank < Sem.rank .swapSem := fun m hm => by cases hm
  simp only [vSemVirt, Prog.wpx_bind]
  refine access hnone rfl fun _ => access hnone rfl fun _ => access hnone rfl fun _ => ?_
  split
  · simp only [Prog.wpx_bind]
    refine other rfl rfl fun _ => ?_
    split
    · simp only [Prog.wpx_bind]
      exact virtualDeath_ruled hnone rfl trivial
    · exact other rfl rfl fun _ => rfl
  · rfl

theorem pSemVirt_ruled {procID : ℤ} {a : Word} :
    Prog.wpx ruled (pSemVirt procID a) (fun _ h => h = []) Clean [] := by
  have hnone : ∀ m ∈ ([] : List Sem), m.rank < Sem.rank .swapSem := fun m hm => by cases hm
  simp only [pSemVirt, Prog.wpx_bind]
  refine access hnone rfl fun _ => access hnone rfl fun _ => access hnone rfl fun _ => ?_
  split
  · simp only [Prog.wpx_bind]
    exact other rfl rfl fun _ => wait rfl rfl fun _ => rfl
  · rfl

theorem delay_ruled {procID : ℤ} {seconds : Word} :
    Prog.wpx ruled (delay procID seconds) (fun _ h => h = []) Clean [] := by
  simp only [delay, Prog.wpx_bind]
  refine other rfl rfl fun _ => other rfl rfl fun _ => other rfl rfl fun _ => ?_
  exact wait rfl rfl fun _ => rfl

/-- A system call, and the way back. -/
theorem andBack {m : SupM Unit} {procID : ℤ} {type : TrapType}
    (h : Prog.wpx ruled m (fun _ h => h = []) Clean []) :
    Prog.wpx ruled (do m; throw (.ldst procID type)) (fun (_ : Unit) h => h = []) Clean [] := by
  rw [Prog.wpx_bind]
  exact h

/-- `vmSysHandler` holds no mutex at its end. -/
theorem vmSysHandler_ruled (fuel : ℕ) :
    Prog.wpx ruled (vmSysHandler fuel) (fun _ h => h = []) Clean [] := by
  have hread : ∀ {f : Word → SupM Unit} {procID : ℤ} {r : Fin stateRegNum},
      (∀ v, Prog.wpx ruled (f v) (fun _ h => h = []) Clean []) →
      Prog.wpx ruled (sup (.readOld procID .sysTrap r) >>= f) (fun _ h => h = []) Clean [] := by
    intro f procID r hf
    rw [Prog.wpx_bind]
    exact other rfl rfl hf
  simp only [vmSysHandler]
  rw [Prog.wpx_bind]
  refine other rfl rfl fun entryHi => hread fun num => ?_
  have hi := asid_nonneg entryHi
  split
  · exact hread fun _ => andBack (readTerminal_ruled hi)
  · exact hread fun _ => hread fun _ => andBack (writeTerminal_ruled hi)
  · exact hread fun _ => andBack vSemVirt_ruled
  · exact hread fun _ => andBack pSemVirt_ruled
  · exact hread fun _ => andBack delay_ruled
  · exact hread fun _ => hread fun _ => hread fun _ => andBack diskIo_ruled
  · exact hread fun _ => hread fun _ => hread fun _ => andBack diskIo_ruled
  · exact hread fun _ => hread fun _ => andBack (writePrinter_ruled hi)
  · simp only [Prog.wpx_bind]
    exact other rfl rfl fun _ => other rfl rfl fun _ => rfl
  · exact andBack (virtualDeath_ruled (fun m hm => by cases hm) rfl trivial)
  · rfl

/-- What each handler leaves behind. -/
theorem handler_ruled (h : Handler) (fuel : ℕ) :
    Prog.wpx ruled (h.program fuel) (fun _ h => h = []) Clean [] := by
  have hback : ∀ {m : SupM Unit}, Prog.wpx ruled m (fun _ h => h = []) (Back []) [] →
      Prog.wpx ruled m (fun _ h => h = []) Clean [] := fun hm =>
    Prog.wpx_mono ruled_mono (fun _ _ h => h) (fun e _ h => by cases e <;> exact h) hm
  cases h with
  | vmMemHandler => exact hback (vmMemHandler_ruled fun m hm => by cases hm)
  | vmPrgmHandler => exact hback (vmPrgmHandler_ruled fun m hm => by cases hm)
  | vmSysHandler => exact vmSysHandler_ruled fuel

/-! ## Traps within a handler -/

/-- A handler of a trap goes back with the mutexes it began with. -/
theorem within_ruled {m : SupM Unit}
    (h : Prog.wpx ruled m (fun _ h => h = held) (Back held) held) :
    Prog.wpx ruled (within m) (fun _ h => h = held) (fun _ _ => True) held := by
  rw [Prog.wpx, within, ExceptT.run_mk, Prog.wp_bind]
  refine Prog.wp_mono ruled_mono (fun r g hr => ?_) h
  rcases r with (e | _)
  · cases e <;> first | exact hr | trivial
  · exact hr

theorem takeFaults_ruled (k : ℕ) (hrank : ∀ m ∈ held, m.rank < Sem.rank .swapSem) :
    Prog.wpx ruled (takeFaults k) (fun _ h => h = held) (fun _ _ => True) held := by
  induction k with
  | zero => rfl
  | succ k ih =>
    simp only [takeFaults, Prog.wpx_bind]
    refine Prog.wpx_mono ruled_mono (fun _ g hg => ?_) (fun _ _ h => h)
      (within_ruled (vmMemHandler_ruled hrank))
    subst hg
    exact ih

theorem mishap_ruled (m : Mishap) (hrank : ∀ m ∈ held, m.rank < Sem.rank .swapSem) :
    Prog.wpx ruled m.program (fun _ h => h = held) (fun _ _ => True) held := by
  simp only [Mishap.program, Prog.wpx_bind]
  refine Prog.wpx_mono ruled_mono (fun _ g hg => ?_) (fun _ _ h => h)
    (takeFaults_ruled m.faults hrank)
  subst hg
  split
  · exact Prog.wpx_mono ruled_mono (fun _ _ h => h) (fun _ _ _ => trivial)
      (vmPrgmHandler_ruled hrank)
  · rfl

theorem wp_spec_of_ruled {α : Type} {p : Prog SupOp α} {Q : α → List Sem → Prop}
    (h : p.wp ruled Q held) : p.wp (mutexes.spec Sem.rank) Q held := by
  induction p generalizing held with
  | ret a => exact h
  | call o k ih => exact ⟨h.2.1, fun b => ih b (h.2.2 b)⟩

/-- The traps within a handler keep the order of the mutexes. -/
theorem withTraps_spec {mishap : ℕ → Mishap} {p : Prog SupOp (Except End Unit)} (t : ℕ)
    (h : p.wp ruled (fun r => Outcome.Leaves (.ended r)) held) :
    (withTraps mishap t p).wp (mutexes.spec Sem.rank) Outcome.Leaves held := by
  induction p generalizing held t with
  | ret r => exact h
  | @call β o k ih =>
    have hcall : (Prog.call o fun b => withTraps mishap (t + 1) (k b)).wp
        (mutexes.spec Sem.rank) Outcome.Leaves held := ⟨h.2.1, fun b => ih b _ (h.2.2 b)⟩
    rw [withTraps]
    split
    next haccess =>
      rw [Prog.wp_bind]
      refine wp_spec_of_ruled (Prog.wp_mono ruled_mono (fun r g hr => ?_)
        (mishap_ruled (mishap t) (h.1 haccess)))
      rcases r with (e | _)
      · trivial
      · obtain rfl : g = held := hr
        exact hcall
    next => exact hcall

/-- What a clean program leaves behind. -/
theorem leaves_of_clean {m : SupM Unit} (h : Prog.wpx ruled m (fun _ h => h = []) Clean held) :
    m.run.wp ruled (fun r => Outcome.Leaves (.ended r)) held := by
  refine Prog.wp_mono ruled_mono (fun r g hr => ?_) h
  rcases r with (e | _)
  · cases e <;> exact hr
  · exact hr

/-! ## Every run -/

/-- The handlers take mutexes in order. -/
theorem ordered : mutexes.Ordered Sem.rank Outcome.Leaves := by
  rintro i a p held hends ⟨huser, h, fuel, mishap, rfl⟩
  have hnone : held = [] := by
    cases huser <;> exact hends
  subst hnone
  exact withTraps_spec 0 (leaves_of_clean (handler_ruled h fuel))

/-- At first nobody holds a mutex. -/
theorem Starts.begins {c : Locks.Config SupOp ℤ Sem Outcome} (h : Starts c) :
    Locks.Held Sem.rank mutexes Outcome.Leaves c := by
  refine fun i => ⟨[], ?_, List.nodup_nil, fun l => ?_⟩
  · by_cases hi : IsUser i
    · obtain ⟨a, hprog, huser | rfl⟩ := h.user i hi
      · rw [hprog]
        cases huser <;> rfl
      · rw [hprog]
        rfl
    · rw [h.others i hi]
      rfl
  · simp [h.free l]

omit [Support] in
theorem rank_le (s : Sem) : s.rank ≤ 2 := by
  cases s with
  | mutexSemArray i =>
    rw [Sem.rank]
    split <;> decide
  | swapSem | masterSem => decide
  | tpSem procID => exact Nat.zero_le _

end Mutexes

end

/-! ## No deadlock -/

section

variable [Support] {c : Locks.Config SupOp ℤ Sem Outcome}
  {tr : List (Locks.Config SupOp ℤ Sem Outcome × ℤ)}

/-- A trap within a handler has ended the process, or the machine has stopped, or the program is
not followed any further. -/
def Outcome.IsLost : Outcome → Prop
  | .ended (.error .panic) => True
  | .ended (.error .stuck) => True
  | .ended _ => False
  | .lost _ => True

omit [Support] in
theorem Outcome.Leaves.eq_nil {a : Outcome} {held : List Sem} (h : a.Leaves held)
    (ha : ¬ a.IsLost) : held = [] := by
  cases a with
  | lost e => exact absurd trivial ha
  | ended r =>
    rcases r with (e | _)
    · cases e <;> first | exact h | exact absurd trivial ha
    · exact h

/-- What the hardware answers to a process: its number, and 0 otherwise. -/
def Mutexes.answer (i : ℤ) : ∀ β, SupOp β → β
  | _, .getEntryHi => word i <<< asidShift
  | _, .getSTATUS | _, .stck | _, .waitForIo _ _ _ | _, .readOld _ _ _ | _, .readDev _ _
  | _, .loadWord _ | _, .pteEntryLO _ | _, .headDelaydTime => 0
  | _, .loadByte _ => 0
  | _, .stst => .zero
  | _, .nextFrame => 0
  | _, .swapPool _ => ⟨-1, 0, 0, none⟩
  | _, .vInsertBlocked _ _ | _, .insertDelay _ _ => false
  | _, .vRemoveBlocked _ | _, .removeDelay => -1
  | _, .setSTATUS _ | _, .tlbclr | _, .verhogen _ | _, .passeren _ | _, .sesv _ _
  | _, .waitForClock | _, .writeOld _ _ _ _ | _, .writeNew _ _ _ _ | _, .writeDev _ _ _
  | _, .storeByte _ _ | _, .storeWord _ _ | _, .setNextFrame _ | _, .setSwapPool _ _
  | _, .setPteEntryLO _ _ => ()

/-- The processes take a page fault in user mode. -/
def Mutexes.script : Prog.Script SupOp ℤ Outcome where
  answer i
    | _, .readOld _ _ _ => tlbl
    | β, o => Mutexes.answer i β o
  next
    | _, .ended (.error (.start _)) =>
      some (withTraps (fun _ => ⟨0, false⟩) 0 (Handler.program 0 .vmMemHandler).run)
    | _, _ => none

theorem Mutexes.script_next :
    ∀ i a p, script.next i a = some p → mutexes.next i a p := by
  intro i a p hp
  simp only [script] at hp
  split at hp
  next st =>
    obtain rfl := Option.some.inj hp
    exact ⟨.start st, .vmMemHandler, 0, _, rfl⟩
  next => cases hp

/-- The user processes have just been started. -/
def Mutexes.started : Locks.Config SupOp ℤ Sem Outcome where
  prog i := if IsUser i then .ret (.ended (.error (.start .zero))) else
    .ret (.ended (.error .terminated))
  holder _ := none

theorem Mutexes.started_starts : Starts Mutexes.started where
  free _ := rfl
  user _ hi := ⟨_, if_pos hi, .inl (.start _)⟩
  others _ hi := if_neg hi

omit [Support] in
/-- Two processes have a page fault: process 2 reads its page in, and holds `swapSem` and the
backing store, and process 1 has come to `swapSem`. -/
theorem Mutexes.faults_run : ∃ tr c,
    Transition.Run (@Starts sampleSupport) (@mutexes sampleSupport).Step tr c ∧
      (@mutexes sampleSupport).pending (c.prog 1) = .acquire .swapSem ∧
        c.holder .swapSem = some 2 ∧ c.holder (.mutexSemArray 0) = some 2 := by
  let _ := sampleSupport
  have hexec : (Transition.execIf (mutexes.exec script) (fun _ _ => True)
      (List.replicate 10 2 ++ List.replicate 4 1) started).map (fun c =>
        (mutexes.pending (c.prog 1), c.holder .swapSem, c.holder (.mutexSemArray 0))) =
      some (.acquire .swapSem, some 2, some 2) := by
    decide +kernel
  obtain ⟨c, hc, hseen⟩ := Option.map_eq_some_iff.mp hexec
  simp only [Prod.mk.injEq] at hseen
  obtain ⟨tr, hrun⟩ := Locks.exec_run script_next started_starts hc
  exact ⟨tr, c, hrun, hseen⟩

/-- In every state that the user processes reach: a process whose program has ended holds no mutex,
unless it is lost; a mutex is given back only by the process that holds it; and a process that
holds a mutex waits for no other semaphore and not for the clock. -/
theorem mutexes_owned (hrun : Transition.Run Mutexes.Starts mutexes.Step tr c) :
    (∀ i a s, c.prog i = .ret a → c.holder s = some i → a.IsLost) ∧
      (∀ i s, mutexes.pending (c.prog i) = .release s → c.holder s = some i) ∧
      ∀ i s, c.holder s = some i → mutexes.pending (c.prog i) ≠ .wait := by
  have hheld := Mutexes.ordered.run_held (fun _ h => h.begins) hrun
  refine ⟨fun i a s hprog hs => ?_, fun i s => hheld.releases_own, fun i s => hheld.not_wait⟩
  obtain ⟨held, hi⟩ := hheld i
  have hwp := hi.wp
  rw [hprog] at hwp
  by_contra hlost
  have hmem := (hi.holder s).mpr hs
  rw [Outcome.Leaves.eq_nil hwp hlost] at hmem
  cases hmem

omit [Support] in
/-- The process that reads its page in. -/
theorem mutexes_owned_fault : ∃ (_ : Support) (c : Locks.Config SupOp ℤ Sem Outcome),
    c.holder .swapSem = some 2 ∧ mutexes.pending (c.prog 2) ≠ .wait := by
  refine ⟨sampleSupport, ?_⟩
  let _ := sampleSupport
  obtain ⟨tr, c, hrun, -, hholder, -⟩ := Mutexes.faults_run
  exact ⟨c, hholder, (mutexes_owned hrun).2.2 2 _ hholder⟩

/-- In every state that the user processes reach: no processes wait for each other in a circle,
and whoever waits for a mutex waits, directly or through others, for a process that holds one and
can go on, unless that process is lost. -/
theorem no_deadlock (hrun : Transition.Run Mutexes.Starts mutexes.Step tr c) :
    (∀ i, ¬ Relation.TransGen (mutexes.WaitsFor c) i i) ∧
      ∀ i j, mutexes.WaitsFor c i j → ∃ k s, Relation.TransGen (mutexes.WaitsFor c) i k ∧
        c.holder s = some k ∧
          ((∃ c', mutexes.Step c k c') ∨ ∃ a, c.prog k = .ret a ∧ a.IsLost) := by
  have hheld := Mutexes.ordered.run_held (fun _ h => h.begins) hrun
  refine ⟨hheld.acyclic, fun i j hij => ?_⟩
  obtain ⟨k, s, hchain, hk, hfree⟩ := hheld.exists_end Mutexes.rank_le hij
  refine ⟨k, s, hchain, hk, ?_⟩
  rcases hheld.can_step (fun β o => o.exists_result) hk hfree with hstep | ⟨a, ha⟩
  · exact .inl hstep
  · exact .inr ⟨a, ha, (mutexes_owned hrun).1 k a s ha hk⟩

omit [Support] in
/-- Process 1 waits for `swapSem`, which process 2 holds. -/
theorem no_deadlock_fault : ∃ (_ : Support) (c : Locks.Config SupOp ℤ Sem Outcome),
    mutexes.WaitsFor c 1 2 ∧ ¬ Relation.TransGen (mutexes.WaitsFor c) 1 1 ∧
      ∃ k s, Relation.TransGen (mutexes.WaitsFor c) 1 k ∧ c.holder s = some k ∧
        ((∃ c', mutexes.Step c k c') ∨ ∃ a, c.prog k = .ret a ∧ a.IsLost) := by
  refine ⟨sampleSupport, ?_⟩
  let _ := sampleSupport
  obtain ⟨tr, c, hrun, hpending, hholder, -⟩ := Mutexes.faults_run
  have hwaits : mutexes.WaitsFor c 1 2 := ⟨_, hpending, hholder⟩
  have hfree := no_deadlock hrun
  exact ⟨c, hwaits, hfree.1 1, hfree.2 1 2 hwaits⟩

end

end Jaeos
