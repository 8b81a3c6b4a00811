import Jaeos.Lists
import Jaeos.Lib.Placement
import Mathlib.Algebra.BigOperators.Group.Finset.Basic
import Mathlib.Algebra.Order.BigOperators.Group.Finset

/-!
# The nucleus on lists

`Abs` is the nucleus with the lists in place of the store, and `NucOp.spec` the
contract of each operation on it. `nucleus_sound` says that a program that meets
its weakest precondition there does the same on the store.

`Core` is what the laws of the nucleus speak about. Its moves are what the
handlers do to the processes: create, wake, block, kill. `Core.Inv` is the
structural invariant, and each move keeps it.
-/

namespace Jaeos

open Forest

variable {n : ℕ}

/-- The nucleus, with lists in place of the store. -/
structure Abs (n : ℕ) extends Globals n where
  /-- the fields of the PCBs -/
  data : PcbData n
  /-- the queues and the process tree -/
  lists : Lists n

/-- The contract of each operation. -/
def NucOp.spec : Prog.Contract (NucOp n) (Abs n)
  | _, .globals, Q, s => Q s.toGlobals s
  | _, .modify f, Q, s => Q () { s with toGlobals := f s.toGlobals }
  | _, .store o, Q, s =>
    StoreOp.spec _ o (fun b v => Q b { s with data := v.data, lists := v.lists }) ⟨s.data, s.lists⟩
  | _, .stuck, _, _ => False

theorem NucOp.spec_mono : Prog.Monotone (NucOp.spec (n := n)) := by
  intro β o Q Q' s hQ h
  cases o with
  | globals => exact hQ _ _ h
  | modify f => exact hQ _ _ h
  | store o => exact StoreOp.spec_mono o (fun b v hb => hQ _ _ hb) h
  | stuck => exact h

/-- The nucleus represents its abstraction. -/
structure Nucleus.Rep (c : Nucleus n) (s : Abs n) : Prop where
  /-- the globals are the same -/
  globals : c.toGlobals = s.toGlobals
  /-- the store represents the lists -/
  store : Jaeos.Rep c.store s.data s.lists

/-- A program that meets its weakest precondition on the lists does the same on the store. -/
theorem nucleus_sound (hn : n ≤ maxProc) {α : Type} {p : NucM n α} {Q : α → Abs n → Prop}
    {c : Nucleus n} {s : Abs n} (hc : c.Rep s) (h : p.wp NucOp.spec Q s) :
    ∃ a c' s', (p.run NucOp.sem).run c = some (a, c') ∧ c'.Rep s' ∧ Q a s' := by
  refine Prog.run_of_wp ?_ hc h
  intro β o Q c s hc hspec
  cases o with
  | globals => exact ⟨_, c, s, rfl, hc, hc.globals ▸ hspec⟩
  | modify f =>
    exact ⟨(), { c with toGlobals := f c.toGlobals }, { s with toGlobals := f s.toGlobals }, rfl,
      ⟨congrArg f hc.globals, hc.store⟩, hspec⟩
  | store o =>
    obtain ⟨b, st, v, hrun, hrep, hQ⟩ := storeOp_sound hn o hc.store hspec
    refine ⟨b, { c with store := st }, { s with data := v.data, lists := v.lists }, ?_,
      ⟨hc.globals, hrep⟩, hQ⟩
    change ((StoreOp.sem _ o).run c.store >>= fun r => some (r.1, { c with store := r.2 })) = _
    rw [hrun]
    rfl
  | stuck => exact hspec.elim

/-! ## The rules of the operations -/

namespace Abs

/-- Replace the lists. -/
def setLists (s : Abs n) (l : Lists n) : Abs n := { s with lists := l }

/-- Replace the fields of the PCBs. -/
def setData (s : Abs n) (d : PcbData n) : Abs n := { s with data := d }

/-- Replace the globals. -/
def setGlobals (s : Abs n) (g : Globals n) : Abs n := { s with toGlobals := g }

variable (s : Abs n) (l : Lists n) (d : PcbData n) (g : Globals n)

@[simp] theorem setLists_lists : (s.setLists l).lists = l := rfl
@[simp] theorem setLists_data : (s.setLists l).data = s.data := rfl
@[simp] theorem setLists_globals : (s.setLists l).toGlobals = s.toGlobals := rfl
@[simp] theorem setData_lists : (s.setData d).lists = s.lists := rfl
@[simp] theorem setData_data : (s.setData d).data = d := rfl
@[simp] theorem setData_globals : (s.setData d).toGlobals = s.toGlobals := rfl
@[simp] theorem setGlobals_lists : (s.setGlobals g).lists = s.lists := rfl
@[simp] theorem setGlobals_data : (s.setGlobals g).data = s.data := rfl
@[simp] theorem setGlobals_globals : (s.setGlobals g).toGlobals = g := rfl

end Abs

section

variable {s : Abs n} {p r : Fin n} {ps : List (Fin n)} {a : ℕ}

@[simp] theorem wp_globals (Q : Globals n → Abs n → Prop) :
    (globals (n := n)).wp NucOp.spec Q s ↔ Q s.toGlobals s := Iff.rfl

@[simp] theorem wp_modifyGlobals (f : Globals n → Globals n) (Q : Unit → Abs n → Prop) :
    (modifyGlobals f).wp NucOp.spec Q s ↔ Q () (s.setGlobals (f s.toGlobals)) := Iff.rfl

@[simp] theorem wp_modifyClock (f : Clock → Clock) (Q : Unit → Abs n → Prop) :
    (modifyClock f).wp NucOp.spec Q s ↔
      Q () (s.setGlobals { s.toGlobals with clock := f s.clock }) := Iff.rfl

@[simp] theorem wp_setTIMER (v tod : ℤ) (Q : Unit → Abs n → Prop) :
    (setTIMER v tod).wp NucOp.spec Q s ↔ Q () (s.setGlobals { s.toGlobals with
      clock := { s.clock with timer := v, timerAt := tod } }) := Iff.rfl

@[simp] theorem wp_addMem (d : Word) (Q : Unit → Abs n → Prop) :
    (addMem a d).wp NucOp.spec Q s ↔
      Q () (s.setGlobals (s.toGlobals.setMem a (s.mem a + d))) := Iff.rfl

@[simp] theorem wp_setState (st : State) (Q : Unit → Abs n → Prop) :
    (setState p st).wp NucOp.spec Q s ↔
      Q () (s.setData { s.data with pS := Function.update s.data.pS p st }) := Iff.rfl

@[simp] theorem wp_setReturn (v : Word) (Q : Unit → Abs n → Prop) :
    (setReturn p v).wp NucOp.spec Q s ↔ Q () (s.setData { s.data with
      pS := Function.update s.data.pS p ((s.data.pS p).setReg sA1 v) }) := Iff.rfl

@[simp] theorem wp_data (Q : PcbData n → Abs n → Prop) :
    (store .data).wp NucOp.spec Q s ↔ Q s.data s := Iff.rfl

@[simp] theorem wp_modifyData (f : PcbData n → PcbData n) (Q : Unit → Abs n → Prop) :
    (store (.modifyData f)).wp NucOp.spec Q s ↔ Q () (s.setData (f s.data)) := Iff.rfl

@[simp] theorem wp_semAdd (Q : ℕ → Abs n → Prop) :
    (store (.semAdd p)).wp NucOp.spec Q s ↔ Q (s.lists.semAdd p) s := Iff.rfl

@[simp] theorem wp_clearSemAdd (Q : Unit → Abs n → Prop) :
    (store (.clearSemAdd p)).wp NucOp.spec Q s ↔ Q () (s.setLists (s.lists.setSemAdd p null)) :=
  Iff.rfl

@[simp] theorem wp_freePcb (Q : Unit → Abs n → Prop) :
    (store (.freePcb p)).wp NucOp.spec Q s ↔ s.lists.Loose p ∧ s.lists.Isolated p ∧
      Q () ((s.setData (s.data.wash p)).setLists (s.lists.append .free p)) := Iff.rfl

@[simp] theorem wp_emptyChild (Q : Bool → Abs n → Prop) :
    (store (.emptyChild p)).wp NucOp.spec Q s ↔ Q (s.lists.kids p).isEmpty s := Iff.rfl

@[simp] theorem wp_insertChild (Q : Unit → Abs n → Prop) :
    (store (.insertChild r p)).wp NucOp.spec Q s ↔
      s.lists.parent p = none ∧ Q () (s.setLists (s.lists.adopt r p)) := Iff.rfl

@[simp] theorem wp_insertReady (Q : Unit → Abs n → Prop) :
    (store (.insertReady p)).wp NucOp.spec Q s ↔
      s.lists.Loose p ∧ Q () (s.setLists (s.lists.append .ready p)) := Iff.rfl

@[simp] theorem wp_insertBlocked (Q : Bool → Abs n → Prop) :
    (store (.insertBlocked a p)).wp NucOp.spec Q s ↔ s.lists.Loose p ∧
      Q false (s.setLists ((s.lists.append (.blocked a) p).setSemAdd p a)) := Iff.rfl

/-! What these calls do depends on the list they read. -/

theorem wp_allocPcb (Q : Option (Fin n) → Abs n → Prop) :
    (store .allocPcb).wp NucOp.spec Q s ↔ (s.lists.q .free = [] → Q none s) ∧
      ∀ p ps, s.lists.q .free = p :: ps → s.lists.Isolated p ∧
        Q (some p) ((s.setData (s.data.wash p)).setLists (s.lists.setQ .free ps)) := Iff.rfl

theorem wp_removeChild (Q : Option (Fin n) → Abs n → Prop) :
    (store (.removeChild r)).wp NucOp.spec Q s ↔ (s.lists.kids r = [] → Q none s) ∧
      ∀ p ps, s.lists.kids r = p :: ps → Q (some p) (s.setLists (s.lists.orphan r p)) := Iff.rfl

theorem wp_outChild (Q : Option (Fin n) → Abs n → Prop) :
    (store (.outChild p)).wp NucOp.spec Q s ↔ (s.lists.parent p = none → Q none s) ∧
      ∀ r, s.lists.parent p = some r → Q (some p) (s.setLists (s.lists.orphan r p)) := Iff.rfl

theorem wp_removeReady (Q : Option (Fin n) → Abs n → Prop) :
    (store .removeReady).wp NucOp.spec Q s ↔ (s.lists.q .ready = [] → Q none s) ∧
      ∀ p ps, s.lists.q .ready = p :: ps → Q (some p) (s.setLists (s.lists.setQ .ready ps)) :=
  Iff.rfl

theorem wp_outReady (Q : Option (Fin n) → Abs n → Prop) :
    (store (.outReady p)).wp NucOp.spec Q s ↔ (p ∉ s.lists.q .ready → Q none s) ∧
      (p ∈ s.lists.q .ready →
        Q (some p) (s.setLists (s.lists.setQ .ready ((s.lists.q .ready).erase p)))) := Iff.rfl

theorem wp_removeBlocked (Q : Option (Fin n) → Abs n → Prop) :
    (store (.removeBlocked a)).wp NucOp.spec Q s ↔ (s.lists.q (.blocked a) = [] → Q none s) ∧
      ∀ p ps, s.lists.q (.blocked a) = p :: ps →
        Q (some p) (s.setLists (s.lists.setQ (.blocked a) ps)) := Iff.rfl

theorem wp_outBlocked (Q : Option (Fin n) → Abs n → Prop) :
    (store (.outBlocked p)).wp NucOp.spec Q s ↔
      (p ∉ s.lists.q (.blocked (s.lists.semAdd p)) → Q none s) ∧
      (p ∈ s.lists.q (.blocked (s.lists.semAdd p)) →
        Q (some p) (s.setLists (s.lists.setQ (.blocked (s.lists.semAdd p))
          ((s.lists.q (.blocked (s.lists.semAdd p))).erase p)))) := Iff.rfl

end

/-! ## The core of the state -/

/-- What the laws of the nucleus speak about. -/
structure Core (n : ℕ) where
  /-- the words of memory -/
  mem : ℕ → Word
  /-- `devStatus` -/
  devStatus : ℕ → Word
  /-- `processCount` -/
  processCount : ℤ
  /-- `softBlockCount` -/
  softBlockCount : ℤ
  /-- `currentProcess` -/
  cur : Option (Fin n)
  /-- `p_s` -/
  pS : Fin n → State
  /-- the queues and the process tree -/
  lists : Lists n

/-- The core of a state. -/
def Abs.core (s : Abs n) : Core n where
  mem := s.mem
  devStatus := s.devStatus
  processCount := s.processCount
  softBlockCount := s.softBlockCount
  cur := s.currentProcess
  pS := s.data.pS
  lists := s.lists

namespace Lists

variable (l : Lists n)

/-- Every process is in one place, with the process that runs out of all queues, and the tree
is a forest of the allocated ones. -/
structure Ok (cur : Option (Fin n)) : Prop where
  /-- each PCB is in exactly one place -/
  placed : Placed l.q cur.toList
  /-- the process tree is a forest -/
  forest : IsForest l.parent l.kids
  /-- without cycles -/
  acyclic : Acyclic l.parent
  /-- a free PCB is not in the tree -/
  free : ∀ p ∈ l.q .free, l.Isolated p
  /-- a blocked process has the address of its semaphore -/
  blocked : ∀ a, ∀ p ∈ l.q (.blocked a), l.semAdd p = a
  /-- no process is blocked on a null address -/
  null : l.q (.blocked null) = []

end Lists

namespace Lists

variable {l : Lists n} {cur : Option (Fin n)} {p r : Fin n} {ps : List (Fin n)} {a : ℕ} {i : Place}

@[simp] theorem setQ_q (xs : List (Fin n)) :
    (l.setQ i xs).q = Function.update l.q i xs := rfl

@[simp] theorem setQ_semAdd (xs : List (Fin n)) : (l.setQ i xs).semAdd = l.semAdd := rfl

@[simp] theorem setQ_parent (xs : List (Fin n)) : (l.setQ i xs).parent = l.parent := rfl

@[simp] theorem append_q (p : Fin n) :
    (l.append i p).q = Function.update l.q i (l.q i ++ [p]) := rfl

@[simp] theorem setSemAdd_q (p : Fin n) (a : ℕ) : (l.setSemAdd p a).q = l.q := rfl

@[simp] theorem setSemAdd_semAdd (p : Fin n) (a : ℕ) :
    (l.setSemAdd p a).semAdd = Function.update l.semAdd p a := rfl

@[simp] theorem adopt_q (r p : Fin n) : (l.adopt r p).q = l.q := rfl

@[simp] theorem orphan_q (r p : Fin n) : (l.orphan r p).q = l.q := rfl

namespace Ok

/-- A free PCB has no children. -/
theorem parent_ne_of_free (h : l.Ok cur) (hp : p ∈ l.q .free) (b : Fin n) :
    l.parent b ≠ some p := fun hb => by
  have := (h.forest.mem p b).mpr hb
  rw [(h.free p hp).2] at this
  cases this

/-- The process that runs is in no queue. -/
theorem cur_loose (h : l.Ok (some p)) : l.Loose p := h.placed.loose p (by simp)

/-- Nobody is blocked on a null address. -/
theorem ne_null (h : l.Ok cur) (hp : p ∈ l.q (.blocked a)) : a ≠ Jaeos.null := by
  rintro rfl
  rw [h.null] at hp
  cases hp

/-- Moving processes between queues keeps the tree and the addresses. -/
theorem move (h : l.Ok cur) {l' : Lists n} {cur' : Option (Fin n)}
    (hplaced : Placed l'.q cur'.toList) (hparent : l'.parent = l.parent) (hkids : l'.kids = l.kids)
    (hfree : ∀ x ∈ l'.q .free, l.Isolated x)
    (hblocked : ∀ a, ∀ x ∈ l'.q (.blocked a), l'.semAdd x = a ∧ a ≠ Jaeos.null) : l'.Ok cur' where
  placed := hplaced
  forest := by rw [hparent, hkids]; exact h.forest
  acyclic := by rw [hparent]; exact h.acyclic
  free p hp := by rw [Isolated, hparent, hkids]; exact hfree p hp
  blocked a p hp := (hblocked a p hp).1
  null := List.eq_nil_iff_forall_not_mem.mpr fun p hp => (hblocked _ p hp).2 rfl

/-- A PCB comes off the free list, into the tree and onto the ready queue. -/
theorem create (h : l.Ok (some r)) (hq : l.q .free = p :: ps) :
    (((l.setQ .free ps).adopt r p).append .ready p).Ok (some r) := by
  have hp : p ∈ l.q .free := by simp [hq]
  have hpr : p ≠ r := by
    rintro rfl
    exact h.cur_loose _ hp
  refine ⟨(h.placed.pop hq).put .ready, h.forest.adopt (h.free p hp).1,
    h.acyclic.adopt (h.parent_ne_of_free hp) hpr, ?_, ?_, ?_⟩
  · intro x hx
    have hxps : x ∈ ps := by simpa using hx
    have hxf : x ∈ l.q .free := by simp [hq, hxps]
    have hxp : x ≠ p := by
      rintro rfl
      have hnd := h.placed.nodup .free
      rw [hq] at hnd
      exact (List.nodup_cons.mp hnd).1 hxps
    have hxr : x ≠ r := by
      rintro rfl
      exact h.cur_loose _ hxf
    obtain ⟨hpx, hkx⟩ := h.free x hxf
    exact ⟨by simpa [append, adopt, setQ, hxp] using hpx,
      by simpa [append, adopt, setQ, pushKid, hxr] using hkx⟩
  · intro a x hx
    exact h.blocked a x (by simpa using hx)
  · simpa using h.null

/-- The oldest process of a semaphore becomes ready. -/
theorem wake (h : l.Ok cur) (hq : l.q (.blocked a) = p :: ps) :
    (((l.setQ (.blocked a) ps).setSemAdd p Jaeos.null).append .ready p).Ok cur := by
  have hp : p ∈ l.q (.blocked a) := by simp [hq]
  refine h.move ((h.placed.pop hq).put .ready) rfl rfl ?_ ?_
  · intro x hx
    exact h.free x (by simpa using hx)
  · intro b x hx
    have hxb : x ∈ l.q (.blocked b) ∧ x ≠ p := by
      have hold := (h.placed.pop hq).loose p (by simp) (.blocked b)
      have hx' : x ∈ Function.update l.q (.blocked a) ps (.blocked b) := by simpa using hx
      refine ⟨?_, fun e => hold (e ▸ hx')⟩
      by_cases hb : b = a
      · subst hb
        rw [Function.update_self] at hx'
        rw [hq]
        exact List.mem_cons_of_mem _ hx'
      · rwa [Function.update_of_ne (by simpa using hb)] at hx'
    refine ⟨?_, h.ne_null hxb.1⟩
    change Function.update l.semAdd p _ x = b
    rw [Function.update_of_ne hxb.2]
    exact h.blocked b x hxb.1

/-- The process that runs is blocked. -/
theorem block (h : l.Ok (some p)) (ha : a ≠ Jaeos.null) :
    ((l.append (.blocked a) p).setSemAdd p a).Ok none := by
  refine h.move (h.placed.put (.blocked a)) rfl rfl ?_ ?_
  · intro x hx
    exact h.free x (by simpa using hx)
  · intro b x hx
    have hx' : x ∈ Function.update l.q (.blocked a) (l.q (.blocked a) ++ [p]) (.blocked b) := by
      simpa using hx
    change Function.update l.semAdd p a x = b ∧ _
    by_cases hxp : x = p
    · subst hxp
      have hba : b = a := by
        by_contra hne
        rw [Function.update_of_ne (by simpa using hne)] at hx'
        exact h.cur_loose _ hx'
      rw [Function.update_self, hba]
      exact ⟨rfl, ha⟩
    · have hxb : x ∈ l.q (.blocked b) := by
        by_cases hb : b = a
        · subst hb
          rw [Function.update_self] at hx'
          simpa [hxp] using hx'
        · rwa [Function.update_of_ne (by simpa using hb)] at hx'
      rw [Function.update_of_ne hxp]
      exact ⟨h.blocked b x hxb, h.ne_null hxb⟩

/-- The process that runs becomes ready. -/
theorem preempt (h : l.Ok (some p)) : (l.append .ready p).Ok none := by
  refine h.move (h.placed.put .ready) rfl rfl ?_ ?_
  · intro x hx
    exact h.free x (by simpa using hx)
  · intro b x hx
    have hxb : x ∈ l.q (.blocked b) := by simpa using hx
    exact ⟨h.blocked b x hxb, h.ne_null hxb⟩

/-- The oldest ready process runs. -/
theorem dispatch (h : l.Ok none) (hq : l.q .ready = p :: ps) :
    (l.setQ .ready ps).Ok (some p) := by
  refine h.move (h.placed.pop hq) rfl rfl ?_ ?_
  · intro x hx
    exact h.free x (by simpa using hx)
  · intro b x hx
    have hxb : x ∈ l.q (.blocked b) := by simpa using hx
    exact ⟨h.blocked b x hxb, h.ne_null hxb⟩

/-- A child becomes a root. -/
theorem orphan (h : l.Ok cur) (hp : l.parent p = some r) : (l.orphan r p).Ok cur := by
  refine ⟨h.placed, h.forest.orphan hp, h.acyclic.orphan p, ?_, h.blocked, h.null⟩
  intro x hx
  obtain ⟨hpx, hkx⟩ := h.free x hx
  refine ⟨?_, ?_⟩
  · change Function.update l.parent p none x = none
    by_cases hxp : x = p
    · simp [hxp]
    · rw [Function.update_of_ne hxp, hpx]
  · change Function.update l.kids r ((l.kids r).erase p) x = []
    by_cases hxr : x = r
    · have hmem := (h.forest.mem r p).mpr hp
      rw [← hxr, hkx] at hmem
      cases hmem
    · rw [Function.update_of_ne hxr, hkx]

/-- A process without parent and children that waits in a queue is freed. -/
theorem free_queued (h : l.Ok cur) (hp : p ∈ l.q i) (hiso : l.Isolated p) :
    ((l.setQ i ((l.q i).erase p)).append .free p).Ok cur := by
  refine h.move ((h.placed.take hp).put .free) rfl rfl ?_ ?_
  · intro x hx
    have hx' : x ∈ Function.update l.q i ((l.q i).erase p) .free ∨ x = p := by simpa using hx
    rcases hx' with hx' | rfl
    · refine h.free x ?_
      by_cases hi : i = .free
      · subst hi
        rw [Function.update_self] at hx'
        exact List.mem_of_mem_erase hx'
      · rwa [Function.update_of_ne (Ne.symm hi)] at hx'
    · exact hiso
  · intro b x hx
    have hx' : x ∈ Function.update l.q i ((l.q i).erase p) (.blocked b) := by simpa using hx
    have hxb : x ∈ l.q (.blocked b) := by
      by_cases hi : i = .blocked b
      · subst hi
        rw [Function.update_self] at hx'
        exact List.mem_of_mem_erase hx'
      · rwa [Function.update_of_ne (Ne.symm hi)] at hx'
    exact ⟨h.blocked b x hxb, h.ne_null hxb⟩

/-- A process without parent and children that runs is freed. -/
theorem free_cur (h : l.Ok (some p)) (hiso : l.Isolated p) : (l.append .free p).Ok none := by
  refine h.move (h.placed.put .free) rfl rfl ?_ ?_
  · intro x hx
    have hx' : x ∈ l.q .free ∨ x = p := by simpa using hx
    rcases hx' with hx' | rfl
    · exact h.free x hx'
    · exact hiso
  · intro b x hx
    have hxb : x ∈ l.q (.blocked b) := by simpa using hx
    exact ⟨h.blocked b x hxb, h.ne_null hxb⟩

end Ok

end Lists

end Jaeos
