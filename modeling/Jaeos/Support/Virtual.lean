import Jaeos.Support.Adl
import Jaeos.Support.Avsl
import Jaeos.Support.Caller
import Jaeos.Support.InitProc
import Jaeos.Lib.Transition

/-!
# Virtual semaphores and delays as a system

The processes that call SYS11, SYS12 and SYS13, the delay daemon, and what they share:
memory, `avsl.c`, `adl.c` and the queues of the nucleus. A step is a whole request
(`vmSysHandler` up to its last SYS3 or SYS4), a whole round of `delayDaemon`, or a store to
user memory. The programs are those of `phase3`; here their operations get a meaning.
-/

namespace Jaeos

variable [Support]

/-- What the requests share. -/
structure VState where
  /-- the words of memory -/
  mem : Word → Word
  /-- the processes blocked with SYS4 on the word at an address, oldest first -/
  waiting : Word → List ℤ
  /-- the data of `avsl.c` -/
  avsl : Avsl
  /-- the data of `adl.c` -/
  adl : Adl (Support.maxUserProc + 1)

namespace VState

/-- The process is blocked on its `Tp_sem`. -/
def Blocked (s : VState) (procID : ℤ) : Prop := procID ∈ s.waiting (Support.tpSem procID)

instance (s : VState) (procID : ℤ) : Decidable (s.Blocked procID) :=
  inferInstanceAs (Decidable (_ ∈ _))

/-- Write a word. -/
def store (s : VState) (a v : Word) : VState := { s with mem := Function.update s.mem a v }

@[simp] theorem store_mem_self (s : VState) (a v : Word) : (s.store a v).mem a = v :=
  Function.update_self ..

/-- SYS4 of a process. -/
def passeren (s : VState) (procID : ℤ) (a : Word) : VState :=
  if (s.mem a - 1).toInt < 0 then
    { s.store a (s.mem a - 1) with
      waiting := Function.update s.waiting a (s.waiting a ++ [procID]) }
  else
    s.store a (s.mem a - 1)

/-- SYS3. It follows a null pointer when it finds nobody to unblock. -/
def verhogen (s : VState) (a : Word) : Option VState :=
  if (s.mem a + 1).toInt ≤ 0 then
    match s.waiting a with
    | [] => none
    | _ :: rest => some { s.store a (s.mem a + 1) with
      waiting := Function.update s.waiting a rest }
  else
    some (s.store a (s.mem a + 1))

/-- Run a function of `avsl.c`. -/
def inAvsl {α : Type} (m : AvslM α) : StateT VState Option α := fun s =>
  (m.run s.avsl).map fun r => (r.1, { s with avsl := r.2 })

/-- Run a function of `adl.c`. -/
def inAdl {α : Type} (m : AdlM (Support.maxUserProc + 1) α) : StateT VState Option α := fun s =>
  (m.run s.adl).map fun r => (r.1, { s with adl := r.2 })

theorem inAvsl_run {α : Type} {m : AvslM α} {s : VState} {b : α} {a : Avsl}
    (h : m.run s.avsl = some (b, a)) : (inAvsl m).run s = some (b, { s with avsl := a }) := by
  change (m.run s.avsl).map _ = _
  rw [h]
  rfl

theorem inAdl_run {α : Type} {m : AdlM (Support.maxUserProc + 1) α} {s : VState} {b : α}
    {a : Adl (Support.maxUserProc + 1)} (h : m.run s.adl = some (b, a)) :
    (inAdl m).run s = some (b, { s with adl := a }) := by
  change (m.run s.adl).map _ = _
  rw [h]
  rfl

/-- What an operation does for the running process at a time of day. The operations that no
request and no round uses have no meaning here. -/
def sem (p : Caller) (tod : Word) : ∀ β, SupOp β → StateT VState Option β
  | _, .getEntryHi => pure (word p.procID <<< asidShift)
  | _, .readOld procID type r =>
    if procID = p.procID ∧ type = .sysTrap then pure (p.regs r) else failure
  | _, .stck => pure tod
  | _, .waitForClock => pure ()
  | _, .loadWord a => do return (← get).mem a
  | _, .storeWord a v => modify fun s => s.store a v
  | _, .passeren (.tpSem procID) => modify fun s => s.passeren p.procID (Support.tpSem procID)
  | _, .verhogen (.tpSem procID) => do
    let s ← get
    set (← s.verhogen (Support.tpSem procID))
  | _, .vInsertBlocked vSemAdd procID => inAvsl (Jaeos.vInsertBlocked vSemAdd procID)
  | _, .vRemoveBlocked vSemAdd => inAvsl (Jaeos.vRemoveBlocked vSemAdd)
  | _, .headDelaydTime => inAdl Jaeos.headDelaydTime
  | _, .insertDelay wakeTime procID => inAdl (Jaeos.insertDelay wakeTime procID)
  | _, .removeDelay => inAdl Jaeos.removeDelay
  | _, _ => failure

end VState

/-! ## Steps -/

/-- What an observer notes about a step. -/
inductive Note where
  /-- SYS3 -/
  | verhogen (s : Sem)
  /-- the result of `vInsertBlocked` -/
  | vInsertBlocked (ok : Bool)
  /-- the result of `headDelaydTime` -/
  | headDelaydTime (wakeTime : Word)
  deriving DecidableEq

/-- The semaphore of a SYS3. -/
def Note.verhogen? : Note → Option Sem
  | .verhogen s => some s
  | _ => none

/-- The note on an operation, behind those before it. -/
def Note.see : ∀ β, SupOp β → β → List Note → List Note
  | _, .verhogen s, _, g => g ++ [.verhogen s]
  | _, .vInsertBlocked _ _, ok, g => g ++ [.vInsertBlocked ok]
  | _, .headDelaydTime, wakeTime, g => g ++ [.headDelaydTime wakeTime]
  | _, _, _, g => g

/-- A step of the system. -/
inductive VEvent where
  /-- a process calls `SYSCALL`, and `STCK` gives this time -/
  | call (p : Caller) (tod : Word)
  /-- a round of `delayDaemon` at this time -/
  | round (tod : Word)
  /-- user memory changes: a store, or a page of another process -/
  | write (a v : Word)

namespace VEvent

/-- The program of a step. -/
def program : VEvent → SupM Unit
  | call _ _ => vmSysHandler 0
  | round _ => delayDaemon
  | write a v => sup (.storeWord a v)

/-- The process that runs: the daemon is not asked for its registers. -/
def caller : VEvent → Caller
  | call p _ => p
  | _ => ⟨Support.maxUserProc + 2, fun _ => 0⟩

/-- What `STCK` gives. -/
def tod : VEvent → Word
  | call _ t => t
  | round t => t
  | write _ _ => 0

/-- The state after a step. -/
def run (e : VEvent) (s : VState) : Option VState :=
  ((e.program.run.run (VState.sem e.caller e.tod)).run s).map Prod.snd

/-- The notes on a step. -/
def notes (e : VEvent) (s : VState) : List Note :=
  e.program.run.observe (VState.sem e.caller e.tod) Note.see s []

/-- The semaphores a step performs a V on, in order. -/
def verhogens (e : VEvent) (s : VState) : List Sem := (e.notes s).filterMap Note.verhogen?

/-- The number of the call. -/
def number : VEvent → ℤ
  | call p _ => (p.regs sA1).toInt
  | _ => 0

/-- The step can be taken: the caller is a user process that is not blocked and makes one of the
three calls. -/
def Enabled (s : VState) : VEvent → Prop
  | call p t => IsUser p.procID ∧ ¬ s.Blocked p.procID ∧ (call p t).number ∈ [11, 12, 13]
  | round _ => True
  | write a _ => kUseg2Addr ≤ a

end VEvent

/-- The step `e` leads from `s` to `s'`. -/
def VStep (s : VState) (e : VEvent) (s' : VState) : Prop := e.Enabled s ∧ e.run s = some s'

/-- The lists are initialised, the `Tp_sem` are 0 and nobody is blocked. -/
structure VState.Initial (s : VState) : Prop where
  /-- `initAVSL` -/
  avsl : ∃ a, initAVSL.run a = some ((), s.avsl)
  /-- `initADL` -/
  adl : ∃ a, initADL.run a = some ((), s.adl)
  /-- `Tp_sem = 0` -/
  tpSem : ∀ p, IsUser p → s.mem (Support.tpSem p) = 0
  /-- nobody is blocked -/
  waiting : ∀ a, s.waiting a = []

instance (s : VState) : ∀ e : VEvent, Decidable (e.Enabled s)
  | .call _ _ => inferInstanceAs (Decidable (_ ∧ ¬ _ ∧ _ ∈ _))
  | .round _ => inferInstanceAs (Decidable True)
  | .write _ _ => inferInstanceAs (Decidable (_ ≤ _))

/-- The `Tp_sem` are different words of the kernel, different from the one at their place in
front of `uProcs`. -/
structure Placed : Prop where
  /-- they are below the user segments -/
  kernel : ∀ p, IsUser p → Support.tpSem p < kUseg2Addr
  /-- they are different -/
  inj : ∀ p q : ℤ, IsUser p → 0 ≤ q → q ≤ Support.maxUserProc →
    Support.tpSem q = Support.tpSem p → q = p

/-! ## What a step does -/

section

variable {s s' : VState} {g : List Note} {p : Caller} {t v : Word} {a' : Avsl}
  {r : VState × List Note}

/-- The contract of the operations: what they do, and what is noted. -/
abbrev VState.contract (p : Caller) (t : Word) : Prog.Contract SupOp (VState × List Note) :=
  Prog.certain (VState.sem p t) Note.see

/-- A step whose program ends in `r`, and its notes. -/
theorem VEvent.run_of_wpx {e : VEvent}
    (h : Prog.wpx (VState.contract e.caller e.tod) e.program (fun _ x => x = r) (fun _ x => x = r)
      (s, [])) : e.run s = some r.1 ∧ e.notes s = r.2 := by
  obtain ⟨b, s', hrun, hb⟩ := Prog.run_of_certain h
  have hr : (s', e.notes s) = r := by cases b <;> exact hb
  rw [VEvent.run, hrun, ← hr]
  exact ⟨rfl, rfl⟩

/-- The contract of the operations that may have no result. -/
abbrev VState.liberally (p : Caller) (t : Word) : Prog.Contract SupOp (VState × List Note) :=
  Prog.watched (VState.sem p t) Note.see

/-- What holds of each way a step can end holds of the state after it and its notes. -/
theorem VEvent.of_run {e : VEvent} {R : VState × List Note → Prop}
    (h : Prog.wpx (VState.liberally e.caller e.tod) e.program (fun _ => R) (fun _ => R) (s, []))
    (hrun : e.run s = some s') : R (s', e.notes s) := by
  obtain ⟨⟨b, s₁⟩, hb, rfl⟩ := Option.map_eq_some_iff.mp hrun
  have hR := Prog.of_watched h hb
  cases b <;> exact hR

/-- A call does what its caller asks for. -/
theorem VEvent.run_call (h0 : 0 ≤ p.procID) (h64 : p.procID < 64)
    (h : Prog.wpx (VState.contract p t) (p.service 0) (fun _ x => x = r) (fun _ x => x = r)
      (s, [])) : (call p t).run s = some r.1 ∧ (call p t).notes s = r.2 := by
  refine VEvent.run_of_wpx (e := call p t) (Caller.handler ?_ ?_ h)
  · exact fun hQ => ⟨_, _, rfl, hQ _ (asid_word h0 h64)⟩
  · intro reg Q x hQ
    refine ⟨p.regs reg, x.1, ?_, hQ⟩
    simp [VState.sem, VEvent.caller]

/-- What holds of each way a call can end holds of the state after it and its notes. -/
theorem VEvent.of_call (h0 : 0 ≤ p.procID) (h64 : p.procID < 64)
    {R : VState × List Note → Prop}
    (h : Prog.wpx (VState.liberally p t) (p.service 0) (fun _ => R) (fun _ => R) (s, []))
    (hrun : (call p t).run s = some s') : R (s', (call p t).notes s) := by
  refine VEvent.of_run (e := call p t) (Caller.handler ?_ ?_ h) hrun
  · intro Q x hQ b x' hb
    obtain ⟨rfl, rfl⟩ := Prod.mk.inj (Option.some.inj hb)
    exact hQ _ (asid_word h0 h64)
  · intro reg Q x hQ b x' hb
    simp only [VState.sem, VEvent.caller, and_self, if_true] at hb
    obtain ⟨rfl, rfl⟩ := Prod.mk.inj (Option.some.inj hb)
    exact hQ

section

variable {α : Type} {Q : α → VState × List Note → Prop} {E : End → VState × List Note → Prop}
  {o : SupOp α} {b : α} {q : ℤ} {w : Word} {a : Avsl} {d : Adl (Support.maxUserProc + 1)}

/-- An operation with a result has no other. -/
theorem contract_iff (h : (VState.sem p t α o).run s = some (b, s')) :
    VState.contract p t α o Q (s, g) ↔ Q b (s', Note.see α o b g) := by
  constructor
  · rintro ⟨b', s₁, hrun, hQ⟩
    obtain ⟨rfl, rfl⟩ := Prod.mk.inj (Option.some.inj (h.symm.trans hrun))
    exact hQ
  · exact fun hQ => ⟨b, s', h, hQ⟩

theorem watched_iff (h : (VState.sem p t α o).run s = some (b, s')) :
    VState.liberally p t α o Q (s, g) ↔ Q b (s', Note.see α o b g) := by
  constructor
  · exact fun hQ => hQ b s' h
  · intro hQ b' s₁ hrun
    obtain ⟨rfl, rfl⟩ := Prod.mk.inj (Option.some.inj (h.symm.trans hrun))
    exact hQ

@[simp] theorem liberally_loadWord {Q : Word → VState × List Note → Prop} :
    VState.liberally p t Word (.loadWord v) Q (s, g) ↔ Q (s.mem v) (s, g) := watched_iff rfl

@[simp] theorem liberally_storeWord {Q : Unit → VState × List Note → Prop} :
    VState.liberally p t Unit (.storeWord v w) Q (s, g) ↔ Q () (s.store v w, g) := watched_iff rfl

theorem liberally_vRemoveBlocked {Q : ℤ → VState × List Note → Prop}
    (h : (vRemoveBlocked v).run s.avsl = some (q, a)) :
    VState.liberally p t ℤ (.vRemoveBlocked v) Q (s, g) ↔ Q q ({ s with avsl := a }, g) :=
  watched_iff (VState.inAvsl_run h)

theorem liberally_verhogen {Q : Unit → VState × List Note → Prop}
    (h : ∀ s', s.verhogen (Support.tpSem q) = some s' →
      Q () (s', g ++ [.verhogen (.tpSem q)])) :
    VState.liberally p t Unit (.verhogen (.tpSem q)) Q (s, g) := by
  intro b s' hrun
  refine h s' ?_
  cases hv : s.verhogen (Support.tpSem q) with
  | none => simp [VState.sem, hv] at hrun
  | some s₁ => simpa [VState.sem, hv] using hrun

@[simp] theorem contract_loadWord {Q : Word → VState × List Note → Prop} :
    VState.contract p t Word (.loadWord v) Q (s, g) ↔ Q (s.mem v) (s, g) := contract_iff rfl

@[simp] theorem contract_storeWord {Q : Unit → VState × List Note → Prop} :
    VState.contract p t Unit (.storeWord v w) Q (s, g) ↔ Q () (s.store v w, g) := contract_iff rfl

@[simp] theorem contract_stck {Q : Word → VState × List Note → Prop} :
    VState.contract p t Word .stck Q (s, g) ↔ Q t (s, g) := contract_iff rfl

@[simp] theorem contract_waitForClock {Q : Unit → VState × List Note → Prop} :
    VState.contract p t Unit .waitForClock Q (s, g) ↔ Q () (s, g) := contract_iff rfl

@[simp] theorem contract_passeren {Q : Unit → VState × List Note → Prop} :
    VState.contract p t Unit (.passeren (.tpSem q)) Q (s, g) ↔
      Q () (s.passeren p.procID (Support.tpSem q), g) := contract_iff rfl

theorem contract_verhogen {Q : Unit → VState × List Note → Prop}
    (h : s.verhogen (Support.tpSem q) = some s') :
    VState.contract p t Unit (.verhogen (.tpSem q)) Q (s, g) ↔
      Q () (s', g ++ [.verhogen (.tpSem q)]) := contract_iff (by simp [VState.sem, h])

theorem contract_vInsertBlocked {ok : Bool} {Q : Bool → VState × List Note → Prop}
    (h : (vInsertBlocked v q).run s.avsl = some (ok, a)) :
    VState.contract p t Bool (.vInsertBlocked v q) Q (s, g) ↔
      Q ok ({ s with avsl := a }, g ++ [.vInsertBlocked ok]) := contract_iff (VState.inAvsl_run h)

theorem contract_vRemoveBlocked {Q : ℤ → VState × List Note → Prop}
    (h : (vRemoveBlocked v).run s.avsl = some (q, a)) :
    VState.contract p t ℤ (.vRemoveBlocked v) Q (s, g) ↔ Q q ({ s with avsl := a }, g) :=
  contract_iff (VState.inAvsl_run h)

theorem contract_headDelaydTime {Q : Word → VState × List Note → Prop}
    (h : headDelaydTime.run s.adl = some (w, s.adl)) :
    VState.contract p t Word .headDelaydTime Q (s, g) ↔ Q w (s, g ++ [.headDelaydTime w]) :=
  contract_iff (VState.inAdl_run h)

theorem contract_insertDelay {ok : Bool} {Q : Bool → VState × List Note → Prop}
    (h : (insertDelay w q).run s.adl = some (ok, d)) :
    VState.contract p t Bool (.insertDelay w q) Q (s, g) ↔ Q ok ({ s with adl := d }, g) :=
  contract_iff (VState.inAdl_run h)

theorem contract_removeDelay {Q : ℤ → VState × List Note → Prop}
    (h : removeDelay.run s.adl = some (q, d)) :
    VState.contract p t ℤ .removeDelay Q (s, g) ↔ Q q ({ s with adl := d }, g) :=
  contract_iff (VState.inAdl_run h)

end

/-! ### The requests -/

section

variable {Q : Unit → VState × List Note → Prop} {E : End → VState × List Note → Prop} {ok : Bool}
  {q : ℤ} {d' : Adl (Support.maxUserProc + 1)}

/-- A SYS11 that finds no pair: it performs a V on the word in front of `uProcs`, if that has a
result. -/
theorem wpx_vSemVirt_absent (h : (s.mem v + 1).toInt ≤ 0)
    (hrem : (vRemoveBlocked v).run s.avsl = some (0, s.avsl))
    (hQ : ∀ s', (s.store v (s.mem v + 1)).verhogen (Support.tpSem 0) = some s' →
      Q () (s', g ++ [.verhogen (.tpSem 0)])) :
    Prog.wpx (VState.liberally p t) (vSemVirt p.procID v) Q E (s, g) := by
  have hwake : ((s.store v (s.mem v + 1)).mem v).toInt ≤ 0 := by simpa using h
  have hrem' : (vRemoveBlocked v).run (s.store v (s.mem v + 1)).avsl =
      some (0, (s.store v (s.mem v + 1)).avsl) := hrem
  simp only [vSemVirt, Prog.wpx_bind, wpx_sup, liberally_loadWord, liberally_storeWord,
    if_pos hwake, liberally_vRemoveBlocked hrem', if_neg (show (0 : ℤ) ≠ -1 by decide)]
  exact liberally_verhogen hQ

/-- A SYS12 that passes. -/
theorem wpx_pSemVirt_pass (h : 0 ≤ (s.mem v - 1).toInt) (hQ : Q () (s.store v (s.mem v - 1), g)) :
    Prog.wpx (VState.contract p t) (pSemVirt p.procID v) Q E (s, g) := by
  have hpass : ¬ ((s.store v (s.mem v - 1)).mem v).toInt < 0 := by simpa [VState.store] using h
  simp only [pSemVirt, Prog.wpx_bind, wpx_sup, contract_loadWord, contract_storeWord, if_neg hpass]
  exact hQ

/-- A SYS12 that blocks. -/
theorem wpx_pSemVirt_block (h : (s.mem v - 1).toInt < 0)
    (hins : (vInsertBlocked v p.procID).run s.avsl = some (ok, a'))
    (hQ : Q () ({ s.store v (s.mem v - 1) with avsl := a' }.passeren p.procID
      (Support.tpSem p.procID), g ++ [.vInsertBlocked ok])) :
    Prog.wpx (VState.contract p t) (pSemVirt p.procID v) Q E (s, g) := by
  have hblock : ((s.store v (s.mem v - 1)).mem v).toInt < 0 := by simpa [VState.store] using h
  have hins' : (vInsertBlocked v p.procID).run (s.store v (s.mem v - 1)).avsl = some (ok, a') :=
    hins
  simp only [pSemVirt, Prog.wpx_bind, wpx_sup, contract_loadWord, contract_storeWord, if_pos hblock,
    contract_vInsertBlocked hins', contract_passeren]
  exact hQ

/-- A SYS11 that leaves its semaphore positive. -/
theorem wpx_vSemVirt_pass (h : 0 < (s.mem v + 1).toInt) (hQ : Q () (s.store v (s.mem v + 1), g)) :
    Prog.wpx (VState.contract p t) (vSemVirt p.procID v) Q E (s, g) := by
  have hpass : ¬ ((s.store v (s.mem v + 1)).mem v).toInt ≤ 0 := by simpa [VState.store] using h
  simp only [vSemVirt, Prog.wpx_bind, wpx_sup, contract_loadWord, contract_storeWord, if_neg hpass]
  exact hQ

/-- A SYS11 that wakes a process. -/
theorem wpx_vSemVirt_wake (h : (s.mem v + 1).toInt ≤ 0)
    (hrem : (vRemoveBlocked v).run s.avsl = some (q, a')) (hq : q ≠ -1)
    (hv : { s.store v (s.mem v + 1) with avsl := a' }.verhogen (Support.tpSem q) = some s')
    (hQ : Q () (s', g ++ [.verhogen (.tpSem q)])) :
    Prog.wpx (VState.contract p t) (vSemVirt p.procID v) Q E (s, g) := by
  have hwake : ((s.store v (s.mem v + 1)).mem v).toInt ≤ 0 := by simpa [VState.store] using h
  have hrem' : (vRemoveBlocked v).run (s.store v (s.mem v + 1)).avsl = some (q, a') := hrem
  simp only [vSemVirt, Prog.wpx_bind, wpx_sup, contract_loadWord, contract_storeWord, if_pos hwake,
    contract_vRemoveBlocked hrem', if_neg hq, contract_verhogen hv]
  exact hQ

/-- A SYS13. -/
theorem wpx_delay {n : Word} {okd : Bool}
    (hins : (vInsertBlocked (Support.tpSem p.procID) p.procID).run s.avsl = some (ok, a'))
    (hdel : (insertDelay (t + n * timeScale) p.procID).run s.adl = some (okd, d'))
    (hQ : Q () ({ s with avsl := a', adl := d' }.passeren p.procID (Support.tpSem p.procID),
      g ++ [.vInsertBlocked ok])) :
    Prog.wpx (VState.contract p t) (delay p.procID n) Q E (s, g) := by
  have hdel' : (insertDelay (t + n * timeScale) p.procID).run { s with avsl := a' }.adl =
      some (okd, d') := hdel
  simp only [delay, Prog.wpx_bind, wpx_sup, contract_vInsertBlocked hins, contract_stck,
    contract_insertDelay hdel', contract_passeren]
  exact hQ

end

end

/-! ## A small system -/

/-- Three user processes. -/
abbrev threeUsers : Support where
  maxUserProc := 3
  swapSize := 2
  ramtop := 0x20100000
  tpSem procID := 0x20000000 + 4 * word procID

omit [Support] in
/-- The `Tp_sem` of the small system. -/
theorem placed_threeUsers : @Placed threeUsers := by
  let _ := threeUsers
  have hcases : ∀ p : ℤ, 0 ≤ p → p ≤ 3 → p = 0 ∨ p = 1 ∨ p = 2 ∨ p = 3 := by omega
  refine ⟨fun p hp => ?_, fun p q hp h0 h3 h => ?_⟩
  · rcases hcases p (by have := hp.1; omega) hp.2 with rfl | rfl | rfl | rfl <;> decide
  · rcases hcases p (by have := hp.1; omega) hp.2 with rfl | rfl | rfl | rfl <;>
      rcases hcases q h0 h3 with rfl | rfl | rfl | rfl <;>
      first
      | rfl
      | exact absurd h (by decide)

/-- The data of `avsl.c` before `initAVSL`. -/
def Avsl.zero : Avsl := ⟨fun _ => none, fun _ => none, fun _ => 0, fun _ => 0, none, none⟩

/-- The data of `adl.c` before `initADL`. -/
def Adl.zero {k : ℕ} : Adl k := ⟨fun _ => none, fun _ => 0, fun _ => 0, none, none⟩

/-- A system whose memory holds zeros, with the lists initialised. -/
def VState.boot : VState where
  mem _ := 0
  waiting _ := []
  avsl := ((initAVSL.run .zero).map Prod.snd).getD .zero
  adl := ((initADL.run .zero).map Prod.snd).getD .zero

theorem VState.boot_initial : VState.boot.Initial := by
  refine ⟨⟨.zero, ?_⟩, ⟨.zero, ?_⟩, fun _ _ => rfl, fun _ => rfl⟩
  · obtain ⟨a, -, hrun, -⟩ := initAVSL_run .zero
    rw [VState.boot, hrun]
    rfl
  · obtain ⟨a, -, hrun, -⟩ := initADL_run (k := Support.maxUserProc + 1) .zero
    rw [VState.boot, hrun]
    rfl

/-- A request of a process, with its number and its first argument. -/
def request (procID : ℤ) (number argument tod : Word) : VEvent :=
  .call ⟨procID, fun r => if r = sA1 then number else if r = sA2 then argument else 0⟩ tod

end Jaeos
