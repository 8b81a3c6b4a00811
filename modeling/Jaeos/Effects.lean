import Jaeos.Kill
import Jaeos.Request

/-!
# What the handlers do

`Effect` lists, request by request, every way a handler can end and what it has
done to the core by then; `Sched` does the same for `getNewJob`. `wp_handler` and
`wp_getNewJob` are the contracts: each handler ends, in one of these ways. What
holds of every run is proved from these lists, and the code is not looked at again.
-/

namespace Jaeos

open Forest

variable {n : ℕ}

/-- The core at the end of a handler; before `getNewJob` it does not matter who the current
process was. -/
def Exit.leave (exit : Exit) (c : Core n) : Core n := if exit = .getNewJob then c.leave else c

/-- The end of a handler that goes back to the current process, if there is one. -/
def Core.home (c : Core n) : Exit := if c.cur.isSome then .ldst else .getNewJob

/-- The core after the state of the current process is saved. -/
def Core.entered (c : Core n) (t : Trap) : Core n :=
  match t.saved, c.cur with
  | some st, some p => c.save p st
  | _, _ => c

theorem Core.entered_lists (c : Core n) (t : Trap) : (c.entered t).lists = c.lists := by
  rw [entered]
  split <;> rfl

theorem Core.entered_mem (c : Core n) (t : Trap) : (c.entered t).mem = c.mem := by
  rw [entered]
  split <;> rfl

theorem Core.entered_cur (c : Core n) (t : Trap) : (c.entered t).cur = c.cur := by
  rw [entered]
  split <;> rfl

/-- Keep the status of a device for the process that will ask for it. -/
def Core.keep (c : Core n) (i : ℕ) (status : Word) : Core n :=
  { c with devStatus := Function.update c.devStatus i status }

/-- Move a state into an area of memory. -/
def Core.fill (c : Core n) (a : ℕ) (st : State) : Core n := { c with mem := writeState c.mem a st }

/-- Add to a word of memory. -/
def Core.add (c : Core n) (a : ℕ) (d : Word) : Core n := c.setMem a (c.mem a + d)

/-- Wake processes of the queue of `a` one after the other, without touching the semaphore. -/
inductive Wakes (a : ℕ) (c₀ : Core n) : Core n → Prop where
  /-- nobody yet -/
  | refl : Wakes a c₀ c₀
  /-- one more -/
  | next {c : Core n} {p : Fin n} {ps : List (Fin n)} (h : Wakes a c₀ c)
    (hq : c.lists.q (.blocked a) = p :: ps) : Wakes a c₀ ((c.wake a p ps).soften (-1))

theorem wp_headBackHome {s : Abs n} {p : Fin n} {Q : Exit → Abs n → Prop}
    (hcur : s.currentProcess = some p) (hQ : Q .ldst s) :
    (headBackHome (n := n)).wp NucOp.spec Q s := by
  simpa [headBackHome, hcur] using hQ

/-- The contract of `blockCurrent`. -/
theorem wp_blockCurrent {s : Abs n} {p : Fin n} {Q : Unit → Abs n → Prop} (a : ℕ)
    (hloose : s.lists.Loose p)
    (hQ : ∀ s' : Abs n, s'.core = s.core.block p a → Q () s') :
    (blockCurrent p a).wp NucOp.spec Q s := by
  simp only [blockCurrent, chargeTime, Prog.wp_bind, wp_globals, wp_modifyData, wp_modifyClock,
    wp_insertBlocked, wp_modifyGlobals]
  exact ⟨hloose, hQ _ rfl⟩

theorem Core.leave_home {c c' : Core n} (h : c'.cur = c.cur) : c.home.leave c' = c' := by
  cases hcur : c.cur with
  | none =>
    rw [hcur] at h
    simp [Core.home, hcur, Exit.leave, Core.leave, ← h]
  | some p => simp [Core.home, hcur, Exit.leave]

theorem Wakes.cur {a : ℕ} {c₀ c : Core n} (h : Wakes a c₀ c) : c.cur = c₀.cur := by
  induction h with
  | refl => rfl
  | next _ _ ih => exact ih

/-! ## The scheduler -/

/-- What `getNewJob` can do. -/
inductive Sched (c : Core n) : Verdict → Core n → Prop where
  /-- the oldest ready process runs -/
  | dispatch {p : Fin n} {ps : List (Fin n)} (hq : c.lists.q .ready = p :: ps) :
    Sched c .ldst (c.dispatch p ps)
  /-- nobody is alive -/
  | halt (hq : c.lists.q .ready = []) (hcount : c.processCount = 0) : Sched c .halt c.leave
  /-- nobody will ever be ready -/
  | panic (hq : c.lists.q .ready = []) (hcount : 0 < c.processCount)
    (hsoft : c.softBlockCount = 0) :
    Sched c .panic c.leave
  /-- a device or the clock will make somebody ready -/
  | wait (hq : c.lists.q .ready = []) (hcount : 0 < c.processCount) (hsoft : 0 < c.softBlockCount) :
    Sched c .wait c.leave
  /-- no case applies -/
  | returns (hq : c.lists.q .ready = [])
    (hcount : c.processCount < 0 ∨ 0 < c.processCount ∧ c.softBlockCount < 0) :
    Sched c .returns c.leave

theorem wp_processJob {s : Abs n} {p : Fin n} {Q : Verdict → Abs n → Prop}
    (hQ : ∀ s' : Abs n, s'.core = { s.core with cur := some p } → Q .ldst s') :
    (processJob p).wp NucOp.spec Q s := by
  rw [processJob, Prog.wp_bind, wp_modifyGlobals, Prog.wp_bind, wp_modifyClock, Prog.wp_bind,
    wp_modifyClock, Prog.wp_bind, wp_globals]
  -- the time slice only changes the clock
  generalize hs₁ : Abs.setGlobals (Abs.setGlobals _ _) _ = s₁
  have hcore : s₁.core = { s.core with cur := some p } := by rw [← hs₁]; rfl
  simp only [Prog.wp_ite, Prog.wp_bind, wp_setTIMER, wp_modifyClock, Prog.wp_pure]
  split
  · exact hQ _ hcore
  · exact hQ _ hcore

/-- The contract of `getNewJob`. -/
theorem wp_getNewJob {s : Abs n} :
    (Jaeos.getNewJob (n := n)).wp NucOp.spec (fun v s' => Sched s.core.leave v s'.core) s := by
  rw [getNewJob, Prog.wp_bind, wp_removeReady]
  refine ⟨fun hnil => ?_, fun p ps hcons => ?_⟩
  · simp only [Prog.wp_bind, wp_modifyGlobals, wp_globals, Prog.wp_ite, wp_setTIMER, wp_modifyClock,
      Prog.wp_pure]
    split
    case isTrue hzero => exact Sched.halt hnil hzero
    case isFalse hzero =>
      split
      case isTrue hpos =>
        split
        case isTrue hsoft => exact Sched.panic hnil hpos hsoft
        case isFalse hsoft =>
          split
          case isTrue hsoftPos => exact Sched.wait hnil hpos hsoftPos
          case isFalse hsoftPos =>
            exact Sched.returns hnil (.inr ⟨hpos, lt_of_le_of_ne (not_lt.mp hsoftPos) hsoft⟩)
      case isFalse hpos =>
        exact Sched.returns hnil (.inl (lt_of_le_of_ne (not_lt.mp hpos) hzero))
  · have hsched : Sched s.core.leave .ldst _ := Sched.dispatch hcons
    exact wp_processJob fun s' hs' => hs' ▸ hsched

/-- How the end of a handler, with the core `c`, leaves the machine. -/
def Finish (exit : Exit) (c : Core n) (mode : Mode) (c' : Core n) : Prop :=
  match exit with
  | .ldst => mode = .running ∧ c' = c
  | .getNewJob => c.cur = none ∧ ∃ v : Verdict, mode = v.mode ∧ Sched c v c'
  | .panic => mode = .panicked
  | .undefined => mode = .undefined

theorem wp_finish {s : Abs n} (exit : Exit) :
    (exit.finish (n := n)).wp NucOp.spec
    (fun mode s' => Finish exit (exit.leave s.core) mode s'.core)
      s := by
  cases exit with
  | ldst => exact ⟨rfl, rfl⟩
  | getNewJob =>
    rw [Exit.finish, Prog.wp_map]
    exact Prog.wp_mono NucOp.spec_mono (fun v s' h => ⟨rfl, v, rfl, h⟩) wp_getNewJob
  | panic => exact rfl
  | undefined => exact rfl

/-! ## The handlers -/

variable [Layout]

/-- Serving the request follows a null pointer, leaves the bounds of `semaphoreArray` or finds no
pending line. -/
def Core.Fails (c : Core n) : Request → Prop
  | .verhogen a => a = null ∨ (c.mem a + 1).toInt ≤ 0 ∧ c.lists.q (.blocked a) = []
  | .passeren a => a = null
  | .waitForIo i | .device i _ _ => maxSema ≤ i
  | .spurious => True
  | _ => False

/-- What serving a request can do to the core, and how the handler ends. It leaves open in which
order a kill frees the processes and how many of them, the two states of a trap that is passed up,
and the time that SYS6 returns. -/
inductive Effect (areas : Fin n → TrapAreas) (c : Core n) : Request → Exit → Core n → Prop where
  /-- a null pointer or an index out of bounds -/
  | undefined {r : Request} (h : c.Fails r) (c' : Core n) : Effect areas c r .undefined c'
  /-- SYS1 without a free PCB -/
  | createNone (a : ℕ) {p : Fin n} (hcur : c.cur = some p) (hq : c.lists.q .free = []) :
    Effect areas c (.create a) .ldst c
  /-- SYS1 -/
  | create (a : ℕ) {p q : Fin n} {qs : List (Fin n)} (hcur : c.cur = some p)
    (hq : c.lists.q .free = q :: qs) :
    Effect areas c (.create a) .ldst ((c.save q (readState c.mem a)).create p q qs)
  /-- SYS2, or another request that kills -/
  | kill (r : Request) {p : Fin n} {c' : Core n} (hcur : c.cur = some p)
    (hfatal : r.Fatal (areas p))
    (h : Kills c c') : Effect areas c r .getNewJob c'
  /-- SYS3, nobody waits -/
  | signal (a : ℕ) {p : Fin n} (hcur : c.cur = some p) (ha : a ≠ null)
    (hpos : ¬ (c.mem a + 1).toInt ≤ 0) :
    Effect areas c (.verhogen a) .ldst (c.add a 1)
  /-- SYS3, the oldest waiter becomes ready -/
  | wake {a : ℕ} {p q : Fin n} {qs : List (Fin n)} (hcur : c.cur = some p) (ha : a ≠ null)
    (hneg : (c.mem a + 1).toInt ≤ 0) (hq : c.lists.q (.blocked a) = q :: qs) :
    Effect areas c (.verhogen a) .ldst ((c.add a 1).wake a q qs)
  /-- SYS4, the semaphore is free -/
  | take (a : ℕ) {p : Fin n} (hcur : c.cur = some p) (ha : a ≠ null)
    (hpos : ¬ (c.mem a + -1).toInt < 0) :
    Effect areas c (.passeren a) .ldst (c.add a (-1))
  /-- SYS4, the process waits -/
  | block (a : ℕ) {p : Fin n} (hcur : c.cur = some p) (ha : a ≠ null)
    (hneg : (c.mem a + -1).toInt < 0) :
    Effect areas c (.passeren a) .getNewJob ((c.add a (-1)).block p a)
  /-- SYS5 -/
  | specify (types : List TrapType) {p : Fin n} (hcur : c.cur = some p) :
    Effect areas c (.sesv types) .ldst c
  /-- SYS6 -/
  | time {p : Fin n} (hcur : c.cur = some p) (v : Word) :
    Effect areas c .getCpuTime .ldst (c.save p ((c.pS p).setReg sA1 v))
  /-- SYS7 -/
  | clock {p : Fin n} (hcur : c.cur = some p) (hneg : (c.mem (semArr clckTimer) + -1).toInt < 0) :
    Effect areas c .waitForClock .getNewJob
      (((c.add (semArr clckTimer) (-1)).block p (semArr clckTimer)).soften 1)
  /-- SYS7 on a positive clock semaphore -/
  | clockPanic (c' : Core n) (hpos : ¬ (c.mem (semArr clckTimer) + -1).toInt < 0) :
    Effect areas c .waitForClock .panic c'
  /-- SYS8, the operation has completed -/
  | ioDone {i : ℕ} {p : Fin n} (hi : i < maxSema) (hcur : c.cur = some p)
    (hpos : ¬ (c.mem (semArr i) + -1).toInt < 0) :
    Effect areas c (.waitForIo i) .ldst
      ((c.add (semArr i) (-1)).save p ((c.pS p).setReg sA1 (c.devStatus i)))
  /-- SYS8, the process waits -/
  | ioWait {i : ℕ} {p : Fin n} (hi : i < maxSema) (hcur : c.cur = some p)
    (hneg : (c.mem (semArr i) + -1).toInt < 0) :
    Effect areas c (.waitForIo i) .getNewJob
      (((c.add (semArr i) (-1)).block p (semArr i)).soften 1)
  /-- a trap is passed up -/
  | passUp (type : TrapType) {p : Fin n} (hcur : c.cur = some p) (h : (areas p).old type ≠ null)
    (old new : State) :
    Effect areas c (.trap type) .ldst ((c.fill ((areas p).old type) old).save p new)
  /-- a pseudo-clock tick -/
  | tick {c' : Core n} (h : Wakes (semArr clckTimer) c c')
    (hq : c'.lists.q (.blocked (semArr clckTimer)) = []) :
    Effect areas c .timer c.home (c'.setMem (semArr clckTimer) 0)
  /-- the end of a quantum -/
  | quantum {p : Fin n} (hcur : c.cur = some p) : Effect areas c .timer .getNewJob (c.preempt p)
  /-- the end of a quantum without a current process -/
  | quantumIdle (hcur : c.cur = none) : Effect areas c .timer .getNewJob c
  /-- a device interrupt, nobody waits or will wait -/
  | ioSignal {i : ℕ} (status : Word) (keep : Bool) (hi : i < maxSema)
    (hpos : ¬ (c.mem (semArr i) + 1).toInt ≤ 0) :
    Effect areas c (.device i status keep) c.home (c.add (semArr i) 1)
  /-- a device interrupt, and the process that waits becomes ready -/
  | ioWake {i : ℕ} (status : Word) (keep : Bool) {q : Fin n} {qs : List (Fin n)} (hi : i < maxSema)
    (hneg : (c.mem (semArr i) + 1).toInt ≤ 0) (hq : c.lists.q (.blocked (semArr i)) = q :: qs) :
    Effect areas c (.device i status keep) c.home
      ((((c.add (semArr i) 1).wake (semArr i) q qs).soften (-1)).save q
        ((c.pS q).setReg sA1 status))
  /-- a device interrupt, and the process that waited is gone -/
  | ioLost {i : ℕ} (status : Word) (keep : Bool) (hi : i < maxSema)
    (hneg : (c.mem (semArr i) + 1).toInt ≤ 0) (hq : c.lists.q (.blocked (semArr i)) = []) :
    Effect areas c (.device i status keep) c.home
      (if keep then (c.add (semArr i) 1).keep i status else c.add (semArr i) 1)

/-! ## The contracts of the handlers -/

/-- The postcondition of a handler that serves a request. -/
def Served (areas : Fin n → TrapAreas) (c : Core n) (r : Request) (exit : Exit)
    (s : Abs n) : Prop :=
  Effect areas c r exit (exit.leave s.core)

section

variable {s : Abs n} {p : Fin n} {areas : Fin n → TrapAreas} {r : Request}

/-- The contract of a kill at the end of a handler. -/
theorem wp_kill {c : Core n} (hc : s.core = c) (hinv : c.Inv) (hcur : c.cur = some p)
    (hsafe : c.KillSafe p) (hfatal : r.Fatal (areas p)) :
    (nukeItTilItPukes (nukeFuel n) p).wp NucOp.spec (fun _ => Served areas c r .getNewJob) s := by
  subst hc
  exact wp_nuke hinv hcur hsafe fun s' h => .kill r hcur hfatal h

theorem wp_passUpOrDie (type : TrapType) (hinv : s.core.Inv) (hcur : s.currentProcess = some p)
    (hsafe : (s.data.trap p).old type = null → s.core.KillSafe p) :
    (passUpOrDie (n := n) type).wp NucOp.spec (Served s.data.trap s.core (.trap type)) s := by
  simp only [passUpOrDie, Prog.wp_bind, wp_globals, hcur, wp_data, Prog.wp_ite]
  split
  case isTrue h =>
    simp only [Prog.wp_bind, wp_modifyGlobals, wp_globals, wp_setState]
    exact wp_headBackHome hcur (Effect.passUp type hcur h _ _)
  case isFalse h =>
    have hfatal : (Request.trap type).Fatal (s.data.trap p) := not_not.mp h
    exact wp_kill rfl hinv hcur (hsafe hfatal) hfatal

theorem wp_sysFiveFrom (types all : List TrapType) (hinv : s.core.Inv)
    (hcur : s.currentProcess = some p)
    (hdone : ∀ type ∈ all, (s.data.trap p).old type ≠ null ∨ type ∈ types)
    (hsafe : (Request.sesv all).Fatal (s.data.trap p) → s.core.KillSafe p) :
    (sysFiveFrom p types).wp NucOp.spec (Served s.data.trap s.core (.sesv all)) s := by
  induction types with
  | nil =>
    have hfatal : (Request.sesv all).Fatal (s.data.trap p) := fun type ht =>
      (hdone type ht).resolve_right (by simp)
    rw [sysFiveFrom, Prog.wp_bind]
    exact wp_kill rfl hinv hcur (hsafe hfatal) hfatal
  | cons type types ih =>
    simp only [sysFiveFrom, Prog.wp_bind, wp_data, Prog.wp_ite, wp_globals, wp_modifyData]
    split
    · exact wp_headBackHome hcur (Effect.specify all hcur)
    · rename_i hne
      refine ih fun t ht => ?_
      rcases hdone t ht with h | h
      · exact .inl h
      · rcases List.mem_cons.mp h with rfl | h
        · exact .inl hne
        · exact .inr h

/-! ### System calls -/

theorem wp_createProcess (a : ℕ) (hinv : s.core.Inv) (hcur : s.currentProcess = some p)
    (ha : (s.sysCallOld.sReg sA2).toNat = a) :
    (createProcess p).wp NucOp.spec (Served areas s.core (.create a)) s := by
  have hok : s.lists.Ok (some p) := hcur ▸ hinv.ok
  rw [createProcess, Prog.wp_bind, wp_allocPcb]
  refine ⟨fun hnil => ?_, fun q qs hcons => ?_⟩
  · simp only [Prog.wp_bind, wp_modifyGlobals]
    exact wp_headBackHome hcur (Effect.createNone a hcur hnil)
  · have hiso : s.lists.Isolated q := hok.free q (by simp [hcons])
    have hloose : (s.lists.setQ .free qs).Loose q := (hok.placed.pop hcons).loose q (by simp)
    refine ⟨hiso, ?_⟩
    simp only [Prog.wp_bind, wp_modifyGlobals, wp_globals, wp_setState, wp_insertChild,
      wp_insertReady]
    refine ⟨hiso.1, hloose, wp_headBackHome hcur ?_⟩
    have heffect : Effect areas s.core _ _ _ := Effect.create a hcur hcons
    subst ha
    exact heffect

theorem wp_verhogen (a : ℕ) (hinv : s.core.Inv) (hcur : s.currentProcess = some p)
    (ha : (s.sysCallOld.sReg sA2).toNat = a) :
    (verhogen (n := n)).wp NucOp.spec (Served areas s.core (.verhogen a)) s := by
  simp only [verhogen, Prog.wp_bind, wp_globals, ha, Prog.wp_ite, wp_addMem]
  split
  case isTrue hnull =>
    have hfails : s.core.Fails (.verhogen a) := Or.inl hnull
    exact .undefined hfails _
  case isFalse hne =>
    split
    case isTrue hneg =>
      have hneg : (s.core.mem a + 1).toInt ≤ 0 := by
        simpa [Globals.setMem, Abs.core] using hneg
      rw [wp_removeBlocked]
      refine ⟨fun hnil => ?_, fun q qs hcons => ?_⟩
      · have hfails : s.core.Fails (.verhogen a) := Or.inr ⟨hneg, hnil⟩
        exact .undefined hfails _
      have hloose : (s.lists.setQ (.blocked a) qs).Loose q :=
        (hinv.ok.placed.pop hcons).loose q (by simp)
      exact ⟨hloose, wp_headBackHome hcur (Effect.wake hcur hne hneg hcons)⟩
    case isFalse hpos =>
      have hpos : ¬ (s.core.mem a + 1).toInt ≤ 0 := by
        simpa [Globals.setMem, Abs.core] using hpos
      exact wp_headBackHome hcur (Effect.signal a hcur hne hpos)

theorem wp_passeren (a : ℕ) (hinv : s.core.Inv) (hcur : s.currentProcess = some p)
    (ha : (s.sysCallOld.sReg sA2).toNat = a) :
    (passeren p).wp NucOp.spec (Served areas s.core (.passeren a)) s := by
  have hok : s.lists.Ok (some p) := hcur ▸ hinv.ok
  simp only [passeren, Prog.wp_bind, wp_globals, ha, Prog.wp_ite, wp_addMem]
  split
  case isTrue hnull =>
    have hfails : s.core.Fails (.passeren a) := hnull
    exact .undefined hfails _
  case isFalse hne =>
    split
    case isTrue hneg =>
      have hneg : (s.core.mem a + -1).toInt < 0 := by
        simpa [Globals.setMem, Abs.core] using hneg
      refine wp_blockCurrent a hok.cur_loose fun s' hs' => ?_
      have heffect : Effect areas s.core _ _ _ := Effect.block a hcur hne hneg
      rw [Prog.wp_pure, Served, Exit.leave, if_pos rfl, hs']
      exact heffect
    case isFalse hpos =>
      have hpos : ¬ (s.core.mem a + -1).toInt < 0 := by
        simpa [Globals.setMem, Abs.core] using hpos
      exact wp_headBackHome hcur (Effect.take a hcur hne hpos)

theorem wp_getCpuTime (hcur : s.currentProcess = some p) :
    (getCpuTime p).wp NucOp.spec (Served areas s.core .getCpuTime) s := by
  simp only [getCpuTime, chargeTime, Prog.wp_bind, wp_globals, wp_modifyData, wp_modifyClock,
    wp_data, wp_setReturn]
  exact wp_headBackHome hcur (Effect.time hcur _)

theorem wp_waitForClock (hinv : s.core.Inv) (hcur : s.currentProcess = some p) :
    (waitForClock p).wp NucOp.spec (Served areas s.core .waitForClock) s := by
  have hok : s.lists.Ok (some p) := hcur ▸ hinv.ok
  simp only [waitForClock, Prog.wp_bind, wp_globals, Prog.wp_ite, wp_addMem]
  split
  case isTrue hneg =>
    have hneg : (s.core.mem (semArr clckTimer) + -1).toInt < 0 := by
      simpa [Globals.setMem, Abs.core] using hneg
    refine wp_blockCurrent _ hok.cur_loose fun s' hs' => ?_
    have heffect : Effect areas s.core _ _ _ := Effect.clock hcur hneg
    simp only [Prog.wp_bind, wp_modifyGlobals, Prog.wp_pure]
    have hend : (s'.setGlobals { s'.toGlobals with
        softBlockCount := s'.softBlockCount + 1 }).core.leave = s'.core.leave.soften 1 := rfl
    rw [Served, Exit.leave, if_pos rfl, hend, hs']
    exact heffect
  case isFalse hpos =>
    have hpos : ¬ (s.core.mem (semArr clckTimer) + -1).toInt < 0 := by
      simpa [Globals.setMem, Abs.core] using hpos
    exact Effect.clockPanic _ hpos

theorem wp_waitForIo (i : ℕ) (hinv : s.core.Inv) (hcur : s.currentProcess = some p)
    (hi : (ioSemDev s.sysCallOld).toNat = i) :
    (waitForIo p).wp NucOp.spec (Served areas s.core (.waitForIo i)) s := by
  have hok : s.lists.Ok (some p) := hcur ▸ hinv.ok
  simp only [waitForIo, Prog.wp_bind, wp_globals, hi, Prog.wp_ite, wp_addMem]
  split
  case isTrue hle =>
    have hfails : s.core.Fails (.waitForIo i) := hle
    exact .undefined hfails _
  case isFalse hlt =>
    have hlt : i < maxSema := not_le.mp hlt
    split
    case isTrue hneg =>
      have hneg : (s.core.mem (semArr i) + -1).toInt < 0 := by
        simpa [Globals.setMem, Abs.core] using hneg
      refine wp_blockCurrent _ hok.cur_loose fun s' hs' => ?_
      have heffect : Effect areas s.core _ _ _ := Effect.ioWait hlt hcur hneg
      simp only [Prog.wp_bind, wp_modifyGlobals, Prog.wp_pure]
      have hend : (s'.setGlobals { s'.toGlobals with
          softBlockCount := s'.softBlockCount + 1 }).core.leave = s'.core.leave.soften 1 := rfl
      rw [Served, Exit.leave, if_pos rfl, hend, hs']
      exact heffect
    case isFalse hpos =>
      have hpos : ¬ (s.core.mem (semArr i) + -1).toInt < 0 := by
        simpa [Globals.setMem, Abs.core] using hpos
      simp only [wp_setReturn]
      exact wp_headBackHome hcur (Effect.ioDone hlt hcur hpos)

/-- The contract of the system calls. -/
theorem wp_serve (call : SysCall) {old : State} (hinv : s.core.Inv)
    (hcur : s.currentProcess = some p) (hold : s.sysCallOld = old.afterCall)
    (hsafe : (call.request old).Fatal (s.data.trap p) → s.core.KillSafe p) :
    (serve p (some call)).wp NucOp.spec (Served s.data.trap s.core (call.request old)) s := by
  have ha : (s.sysCallOld.sReg sA2).toNat = (old.sReg sA2).toNat := by
    rw [hold, old.afterCall_sReg (by decide)]
  cases call with
  | createProcess => exact wp_createProcess _ hinv hcur ha
  | terminateProcess =>
    simp only [serve, terminateProcess, Prog.wp_bind]
    exact wp_nuke hinv hcur (hsafe trivial) fun s' h => Effect.kill _ hcur trivial h
  | verhogen => exact wp_verhogen _ hinv hcur ha
  | passeren => exact wp_passeren _ hinv hcur ha
  | sesv =>
    simp only [serve, Prog.wp_bind, wp_globals]
    rw [hold, old.afterCall_sReg (by decide)]
    exact wp_sysFiveFrom _ _ hinv hcur (fun _ ht => .inr ht) hsafe
  | getCpuTime => exact wp_getCpuTime hcur
  | waitForClock => exact wp_waitForClock hinv hcur
  | waitForIo =>
    refine wp_waitForIo _ hinv hcur ?_
    rw [hold, ioSemDev, ioSemDev, old.afterCall_sReg (by decide), old.afterCall_sReg (by decide),
      old.afterCall_sReg (by decide)]

/-- The state in which a system call of `p` is served: the old area has been moved into it. -/
def Abs.called (s : Abs n) (p : Fin n) (old : State) : Abs n :=
  (s.setGlobals { s.toGlobals with sysCallOld := old.afterCall }).setData
    { s.data with pS := Function.update s.data.pS p old.afterCall }

/-- The same for a privileged call in user mode, which becomes a program trap. -/
def Abs.calledAsTrap (s : Abs n) (p : Fin n) (old : State) : Abs n :=
  (s.called p old).setGlobals
    { (s.called p old).toGlobals with progTrpOld := old.afterCall.setReg sCause reserved }

/-- `sysCallHandler` decodes the mode and then the number. -/
theorem wp_sysCallHandler_cases {old : State} {Q : Exit → Abs n → Prop}
    (hcur : s.currentProcess = some p) (hold : s.sysCallOld = old)
    (hsystem : old.sReg sCpsr &&& systemMode = systemMode →
      (serve p (SysCall.ofNum (old.sReg sA1))).wp NucOp.spec Q (s.called p old))
    (hpriv : old.sReg sCpsr &&& systemMode ≠ systemMode → (SysCall.ofNum (old.sReg sA1)).isSome →
      (progTrpHandler (n := n)).wp NucOp.spec Q (s.calledAsTrap p old))
    (huser : old.sReg sCpsr &&& systemMode ≠ systemMode → ¬ (SysCall.ofNum (old.sReg sA1)).isSome →
      (passUpOrDie (n := n) .sysTrap).wp NucOp.spec Q (s.called p old)) :
    (sysCallHandler (n := n)).wp NucOp.spec Q s := by
  have hcpsr : (old.setReg sPc (old.sReg sPc + 8)).sReg sCpsr = old.sReg sCpsr :=
    old.afterCall_sReg (by decide)
  simp only [sysCallHandler, Prog.wp_bind, wp_globals, wp_modifyGlobals, hold,
    Abs.setGlobals_globals]
  split
  case h_1 hnone => exact absurd (hnone.symm.trans hcur) (by simp)
  case h_2 q hq =>
    obtain rfl : q = p := Option.some.inj (hq.symm.trans hcur)
    simp only [Prog.wp_bind, Prog.wp_ite, wp_setState, hcpsr]
    split
    case isTrue hsys => exact hsystem hsys
    case isFalse hsys =>
      split
      case isTrue hnum => exact hpriv hsys hnum
      case isFalse hnum => exact huser hsys hnum

/-- The contract of `sysCallHandler`. -/
theorem wp_sysCallHandler {old : State} (hinv : s.core.Inv) (hcur : s.currentProcess = some p)
    (hold : s.sysCallOld = old)
    (hsafe : (Trap.sysCall old).request.Fatal (s.data.trap p) → s.core.KillSafe p) :
    (sysCallHandler (n := n)).wp NucOp.spec
      (Served s.data.trap (s.core.entered (.sysCall old)) (Trap.sysCall old).request) s := by
  have hcall : s.core.cur = some p := hcur
  have hentered : s.core.entered (.sysCall old) = (s.called p old).core := by
    simp only [Core.entered, Trap.saved, hcall]
    rfl
  have hinv₁ : (s.called p old).core.Inv := hinv.save p old.afterCall
  rw [hentered]
  refine wp_sysCallHandler_cases hcur hold (fun hsys => ?_) (fun hsys hpriv => ?_)
    fun hsys huser => ?_
  · simp only [Trap.request, if_pos hsys] at hsafe ⊢
    cases hcallNum : SysCall.ofNum (old.sReg sA1) with
    | none =>
      rw [hcallNum] at hsafe
      exact wp_passUpOrDie .sysTrap hinv₁ hcur hsafe
    | some call =>
      rw [hcallNum] at hsafe
      exact wp_serve call hinv₁ hcur rfl hsafe
  · simp only [Trap.request, if_neg hsys, if_pos hpriv] at hsafe ⊢
    exact wp_passUpOrDie (s := s.calledAsTrap p old) .progTrap hinv₁ hcur hsafe
  · simp only [Trap.request, if_neg hsys, if_neg huser] at hsafe ⊢
    exact wp_passUpOrDie .sysTrap hinv₁ hcur hsafe

/-! ### Interrupts -/

theorem wp_returnFromInterrupt {c c' : Core n} (hc : s.core = c') (hcur : c'.cur = c.cur)
    (heffect : Effect areas c r c.home c') :
    (returnFromInterrupt (n := n)).wp NucOp.spec (Served areas c r) s := by
  subst hc
  rw [← Core.leave_home hcur] at heffect
  simp only [returnFromInterrupt, Prog.wp_bind, wp_globals]
  cases hs : s.currentProcess with
  | none =>
    have hhome : c.home = .getNewJob := by
      have hcore : s.core.cur = none := hs
      simp [Core.home, ← hcur, hcore]
    rw [hhome] at heffect
    exact heffect
  | some p =>
    have hhome : c.home = .ldst := by
      have hcore : s.core.cur = some p := hs
      simp [Core.home, ← hcur, hcore]
    rw [hhome] at heffect
    exact heffect

/-- The contract of the loop of a tick. -/
theorem wp_tickLoop {fuel : ℕ} {c₀ : Core n} {Q : Unit → Abs n → Prop}
    (hw : Wakes (semArr clckTimer) c₀ s.core) (hok : s.lists.Ok s.currentProcess)
    (hfuel : (s.lists.q (.blocked (semArr clckTimer))).length < fuel)
    (hQ : ∀ s' : Abs n, Wakes (semArr clckTimer) c₀ s'.core →
      s'.lists.q (.blocked (semArr clckTimer)) = [] → Q () s') :
    (tickLoop (n := n) fuel).wp NucOp.spec Q s := by
  induction fuel generalizing s with
  | zero => omega
  | succ fuel ih =>
    rw [tickLoop, Prog.wp_bind, wp_removeBlocked]
    refine ⟨fun hnil => hQ s hw hnil, fun p ps hcons => ?_⟩
    have hloose : (s.lists.setQ (.blocked (semArr clckTimer)) ps).Loose p :=
      (hok.placed.pop hcons).loose p (by simp)
    simp only [Prog.wp_bind, wp_clearSemAdd, wp_modifyGlobals, wp_insertReady]
    refine ⟨hloose, ih (hw.next hcons) (hok.wake hcons) ?_⟩
    rw [hcons, List.length_cons] at hfuel
    simpa using hfuel

theorem wp_timerInterrupt (hinv : s.core.Inv) :
    (timerInterrupt (n := n)).wp NucOp.spec (Served areas s.core .timer) s := by
  have hok : s.lists.Ok s.currentProcess := hinv.ok
  simp only [timerInterrupt, Prog.wp_bind, wp_globals, Prog.wp_ite]
  split
  case isTrue =>
    have hlen := (hok.placed.nodup (.blocked (semArr clckTimer))).length_le_card
    rw [Fintype.card_fin] at hlen
    refine wp_tickLoop .refl hok (by omega) fun s' hw hnil => ?_
    simp only [Prog.wp_bind, wp_modifyGlobals, wp_setTIMER, wp_modifyClock]
    have heffect : Effect areas s.core _ _ _ := Effect.tick hw hnil
    exact wp_returnFromInterrupt rfl hw.cur heffect
  case isFalse =>
    cases hcur : s.currentProcess with
    | none =>
      simp only [Prog.wp_bind, Prog.wp_pure, wp_setTIMER]
      have hend : s.core.leave = s.core := by simp [Core.leave, Abs.core, hcur]
      have heffect : Effect areas s.core .timer .getNewJob s.core.leave := by
        rw [hend]
        exact .quantumIdle hcur
      exact heffect
    | some p =>
      have hloose : s.lists.Loose p := by
        rw [hcur] at hok
        exact hok.cur_loose
      simp only [Prog.wp_bind, wp_insertReady, wp_modifyGlobals, wp_setTIMER, Prog.wp_pure]
      exact ⟨hloose, Effect.quantum hcur⟩

theorem wp_handleTerminal (receive : Bool) {devNumber i : ℕ} {status : Word} (hinv : s.core.Inv)
    (hreceive : receive = ((s.devReg (4 * devPerInt + devNumber)).dData0 &&& 0x0F = ready : Bool))
    (hi : i = if receive then 4 * devPerInt + devNumber else 4 * devPerInt + devNumber + devPerInt)
    (hstatus : status = if receive then (s.devReg (4 * devPerInt + devNumber)).dStatus
      else (s.devReg (4 * devPerInt + devNumber)).dData0) :
    (handleTerminal (n := n) devNumber).wp NucOp.spec
      (Served areas s.core (.device i status false)) s := by
  simp only [handleTerminal, Prog.wp_bind, wp_globals, ← hreceive, ← hi, ← hstatus, Prog.wp_ite,
    wp_addMem]
  split
  case isTrue hle =>
    have hfails : s.core.Fails (.device i status false) := hle
    exact .undefined hfails _
  case isFalse hlt =>
    have hlt : i < maxSema := not_le.mp hlt
    split
    case isTrue hneg =>
      have hneg : (s.core.mem (semArr i) + 1).toInt ≤ 0 := by
        simpa [Globals.setMem, Abs.core] using hneg
      rw [wp_removeBlocked]
      refine ⟨fun hnil => ?_, fun q qs hcons => ?_⟩
      · have heffect : Effect areas s.core _ _ _ := Effect.ioLost status false hlt hneg hnil
        exact wp_returnFromInterrupt rfl rfl heffect
      · have hloose : (s.lists.setQ (.blocked (semArr i)) qs).Loose q :=
          (hinv.ok.placed.pop hcons).loose q (by simp)
        have heffect : Effect areas s.core _ _ _ := Effect.ioWake status false hlt hneg hcons
        simp only [wakeIo, modifyDev, Prog.wp_bind, wp_clearSemAdd, wp_setReturn, wp_modifyGlobals,
          wp_insertReady]
        exact ⟨hloose, wp_returnFromInterrupt rfl rfl heffect⟩
    case isFalse hpos =>
      have hpos : ¬ (s.core.mem (semArr i) + 1).toInt ≤ 0 := by
        simpa [Globals.setMem, Abs.core] using hpos
      have heffect : Effect areas s.core _ _ _ := Effect.ioSignal status false hlt hpos
      exact wp_returnFromInterrupt rfl rfl heffect

theorem wp_deviceInterrupt {lineNum devNum i : ℕ} {status : Word} (hinv : s.core.Inv)
    (hi : devPerInt * (lineNum - 3) + devNum = i) (hstatus : (s.devReg i).dStatus = status) :
    (deviceInterrupt (n := n) lineNum devNum).wp NucOp.spec
      (Served areas s.core (.device i status true)) s := by
  simp only [deviceInterrupt, Prog.wp_bind, wp_globals, hi, hstatus, Prog.wp_ite, wp_addMem]
  split
  case isTrue hle =>
    have hfails : s.core.Fails (.device i status true) := hle
    exact .undefined hfails _
  case isFalse hlt =>
    have hlt : i < maxSema := not_le.mp hlt
    split
    case isTrue hneg =>
      have hneg : (s.core.mem (semArr i) + 1).toInt ≤ 0 := by
        simpa [Globals.setMem, Abs.core] using hneg
      rw [wp_removeBlocked]
      refine ⟨fun hnil => ?_, fun q qs hcons => ?_⟩
      · have heffect : Effect areas s.core _ _ _ := Effect.ioLost status true hlt hneg hnil
        simp only [modifyDev, Prog.wp_bind, wp_modifyGlobals]
        exact wp_returnFromInterrupt rfl rfl heffect
      · have hloose : (s.lists.setQ (.blocked (semArr i)) qs).Loose q :=
          (hinv.ok.placed.pop hcons).loose q (by simp)
        have heffect : Effect areas s.core _ _ _ := Effect.ioWake status true hlt hneg hcons
        simp only [wakeIo, modifyDev, Prog.wp_bind, wp_clearSemAdd, wp_setReturn, wp_modifyGlobals,
          wp_insertReady]
        exact ⟨hloose, wp_returnFromInterrupt rfl rfl heffect⟩
    case isFalse hpos =>
      have hpos : ¬ (s.core.mem (semArr i) + 1).toInt ≤ 0 := by
        simpa [Globals.setMem, Abs.core] using hpos
      have heffect : Effect areas s.core _ _ _ := Effect.ioSignal status true hlt hpos
      simp only [modifyDev, wp_modifyGlobals]
      exact wp_returnFromInterrupt rfl rfl heffect

/-- The contract of the branches of `interruptHandler`, once the current process is saved. -/
theorem wp_interruptBranch {old : State} {bitmap : ℕ → Word} {devReg : ℕ → Device} {c : Core n}
    (hc : s.core = c) (hinv : c.Inv) (hdev : s.devReg = devReg) :
    (interruptBranch (n := n) old bitmap).wp NucOp.spec
      (Served areas c (interruptRequest old bitmap devReg)) s := by
  subst hc hdev
  rw [interruptRequest, interruptBranch]
  by_cases htimer : pendingOn old 0x04
  · rw [if_pos htimer, if_pos htimer]
    exact wp_timerInterrupt hinv
  · rw [if_neg htimer, if_neg htimer]
    cases interruptLine old with
    | none =>
      have hfails : s.core.Fails .spurious := trivial
      exact .undefined hfails _
    | some lineNum =>
      by_cases hterm : lineNum = 7
      · simp only [if_pos hterm]
        by_cases hreceive :
            (s.devReg (4 * devPerInt + getDeviceNumber (bitmap (lineNum - 3)))).dData0 &&&
              0x0F = ready
        · rw [if_pos hreceive]
          exact wp_handleTerminal true hinv (by simpa using hreceive) rfl rfl
        · rw [if_neg hreceive]
          exact wp_handleTerminal false hinv (by simpa using hreceive) rfl rfl
      · simp only [if_neg hterm]
        exact wp_deviceInterrupt hinv rfl rfl

/-- The contract of `interruptHandler`. -/
theorem wp_interruptHandler {old : State} {bitmap : ℕ → Word} {devReg : ℕ → Device}
    (hinv : s.core.Inv) (hold : s.intOld = old) (hbitmap : s.intBitmap = bitmap)
    (hdev : s.devReg = devReg) :
    (interruptHandler (n := n)).wp NucOp.spec
      (Served s.data.trap (s.core.entered (.interrupt old bitmap devReg))
        (interruptRequest old bitmap devReg)) s := by
  rw [← old.afterInterrupt_request]
  simp only [interruptHandler, Prog.wp_bind, wp_globals, wp_modifyGlobals, Abs.setGlobals_globals,
    hold, hbitmap]
  cases hcur : s.currentProcess with
  | none =>
    have hcall : s.core.cur = none := hcur
    have hentered : s.core.entered (.interrupt old bitmap devReg) = s.core := by
      simp [Core.entered, Trap.saved, hcall]
    rw [hentered]
    refine wp_interruptBranch ?_ hinv hdev
    simp [Abs.core, hcur]
  | some p =>
    have hcall : s.core.cur = some p := hcur
    have hentered : s.core.entered (.interrupt old bitmap devReg) =
        s.core.save p old.afterInterrupt := by
      simp [Core.entered, Trap.saved, hcall]
    rw [hentered]
    simp only [chargeTime, Prog.wp_bind, wp_globals, wp_modifyData, wp_modifyClock, wp_setState]
    refine wp_interruptBranch ?_ (hinv.save p old.afterInterrupt) hdev
    simp [Abs.core, Core.save, State.afterInterrupt, hcur]

/-- The handlers that serve traps of the current process ask for it. -/
def Trap.HasCaller (t : Trap) (c : Core n) : Prop :=
  match t with
  | .interrupt _ _ _ => True
  | _ => c.cur.isSome

/-- The contract of the handlers, from the entry on. -/
theorem wp_handle (t : Trap) (todIn todOut : ℤ) (hinv : s.core.Inv) (hcaller : t.HasCaller s.core)
    (hsafe : ∀ p, s.core.cur = some p → t.request.Fatal (s.data.trap p) → s.core.KillSafe p) :
    (t.handle todIn todOut).wp NucOp.spec
      (Served s.data.trap (s.core.entered t) t.request) s := by
  simp only [Trap.handle, Prog.wp_bind, wp_modifyGlobals, wp_modifyClock]
  -- the areas and the clock are not part of the core
  generalize hg : Abs.setGlobals (s.setGlobals _) _ = s₁
  have hcore : s₁.core = s.core := by
    subst hg
    cases t <;> rfl
  have htrap : s₁.data.trap = s.data.trap := by rw [← hg]; rfl
  rw [← hcore] at hinv hcaller hsafe ⊢
  rw [← htrap] at hsafe ⊢
  cases t with
  | sysCall old =>
    obtain ⟨p, hp⟩ := Option.isSome_iff_exists.mp hcaller
    exact wp_sysCallHandler hinv hp (by rw [← hg]; rfl) (hsafe p hp)
  | progTrap old =>
    obtain ⟨p, hp⟩ := Option.isSome_iff_exists.mp hcaller
    exact wp_passUpOrDie .progTrap hinv hp (hsafe p hp)
  | tlbTrap old =>
    obtain ⟨p, hp⟩ := Option.isSome_iff_exists.mp hcaller
    exact wp_passUpOrDie .tlbTrap hinv hp (hsafe p hp)
  | interrupt old bitmap devReg =>
    exact wp_interruptHandler hinv (by rw [← hg]; rfl) (by rw [← hg]; rfl) (by rw [← hg]; rfl)

end

/-- The contract of a handler with the scheduler behind it. -/
theorem wp_react {s : Abs n} (t : Trap) (todIn todOut : ℤ) (hinv : s.core.Inv)
    (hcaller : t.HasCaller s.core)
    (hsafe : ∀ p, s.core.cur = some p → t.request.Fatal (s.data.trap p) → s.core.KillSafe p) :
    (t.react todIn todOut).wp NucOp.spec (fun r s' => ∃ c,
      Effect s.data.trap (s.core.entered t) t.request r.1 c ∧ Finish r.1 c r.2 s'.core) s := by
  rw [Trap.react, Prog.wp_bind]
  refine Prog.wp_mono NucOp.spec_mono (fun exit s₁ heffect => ?_)
    (wp_handle t todIn todOut hinv hcaller hsafe)
  rw [Prog.wp_bind]
  exact Prog.wp_mono NucOp.spec_mono (fun mode s' h => ⟨_, heffect, h⟩) (wp_finish exit)

end Jaeos
