import Jaeos.Abstract
import Jaeos.Exceptions
import Mathlib.Tactic.Ring

/-!
# The structural invariant

The moves are what the handlers do to the processes. `Core.Inv` is the structural
invariant: every PCB is in one place, and `processCount` counts the PCBs that are
not free. `Core.Soft` says that `softBlockCount` counts those blocked on a
semaphore of `semaphoreArray`; it asks that nobody is blocked on another address
in there. The moves keep both.
-/

namespace Jaeos

open Forest

variable {n : ℕ}

/-! ## Moves -/

namespace Core

variable (c : Core n)

/-- Save the state of a process. -/
def save (p : Fin n) (st : State) : Core n := { c with pS := Function.update c.pS p st }

/-- Write a word of memory. -/
def setMem (a : ℕ) (v : Word) : Core n := { c with mem := Function.update c.mem a v }

/-- Change `softBlockCount`. -/
def soften (d : ℤ) : Core n := { c with softBlockCount := c.softBlockCount + d }

/-- Forget the current process. -/
def leave : Core n := { c with cur := none }

/-- The oldest free PCB `p` becomes a ready child of `r`. -/
def create (r p : Fin n) (ps : List (Fin n)) : Core n := { c with
  processCount := c.processCount + 1
  lists := ((c.lists.setQ .free ps).adopt r p).append .ready p }

/-- The oldest process `p` of the queue of `a` becomes ready. -/
def wake (a : ℕ) (p : Fin n) (ps : List (Fin n)) : Core n := { c with
  lists := ((c.lists.setQ (.blocked a) ps).setSemAdd p null).append .ready p }

/-- The current process `p` is blocked on `a`. -/
def block (p : Fin n) (a : ℕ) : Core n := { c with
  cur := none
  lists := (c.lists.append (.blocked a) p).setSemAdd p a }

/-- The current process `p` becomes ready. -/
def preempt (p : Fin n) : Core n := { c with cur := none, lists := c.lists.append .ready p }

/-- The oldest ready process `p` becomes the current one. -/
def dispatch (p : Fin n) (ps : List (Fin n)) : Core n := { c with
  cur := some p
  lists := c.lists.setQ .ready ps }

/-- The child `p` of `r` becomes a root. -/
def orphan (r p : Fin n) : Core n := { c with lists := c.lists.orphan r p }

/-- A process that waits in the queue of `j` is freed. -/
def reap (j : Place) (p : Fin n) : Core n := { c with
  processCount := c.processCount - 1
  lists := (c.lists.setQ j ((c.lists.q j).erase p)).append .free p }

/-- The current process is freed. -/
def reapCur (p : Fin n) : Core n := { c with
  cur := none
  processCount := c.processCount - 1
  lists := c.lists.append .free p }

/-- The structural invariant. -/
structure Inv : Prop where
  /-- every PCB is in one place -/
  ok : c.lists.Ok c.cur
  /-- `processCount` counts the PCBs that are not free -/
  count : c.processCount + (c.lists.q .free).length = n

end Core

variable {c : Core n} {p r : Fin n} {ps : List (Fin n)} {a i : ℕ}

/-! ## The moves keep the structural invariant -/

namespace Core.Inv

/-- Memory, device status, `softBlockCount` and saved states do not matter. -/
theorem congr {c' : Core n} (h : c.Inv) (hlists : c'.lists = c.lists) (hcur : c'.cur = c.cur)
    (hcount : c'.processCount = c.processCount) : c'.Inv :=
  ⟨by rw [hlists, hcur]; exact h.ok, by rw [hlists, hcount]; exact h.count⟩

theorem save (h : c.Inv) (p : Fin n) (st : State) : (c.save p st).Inv := h.congr rfl rfl rfl

theorem setMem (h : c.Inv) (a : ℕ) (v : Word) : (c.setMem a v).Inv := h.congr rfl rfl rfl

theorem soften (h : c.Inv) (d : ℤ) : (c.soften d).Inv := h.congr rfl rfl rfl

theorem create (h : c.Inv) (hcur : c.cur = some r) (hq : c.lists.q .free = p :: ps) :
    (c.create r p ps).Inv := by
  have hok := h.ok
  rw [hcur] at hok
  refine ⟨by rw [Core.create, hcur]; exact hok.create hq, ?_⟩
  have hcount := h.count
  rw [hq, List.length_cons] at hcount
  simp only [Core.create, Lists.append_q, Lists.adopt_q, Lists.setQ_q]
  rw [Function.update_of_ne (by simp), Function.update_self]
  push_cast at hcount
  omega

theorem wake (h : c.Inv) (hq : c.lists.q (.blocked a) = p :: ps) : (c.wake a p ps).Inv :=
  ⟨h.ok.wake hq, by simpa [Core.wake] using h.count⟩

theorem block (h : c.Inv) (hcur : c.cur = some p) (hne : a ≠ null) : (c.block p a).Inv := by
  have hok := h.ok
  rw [hcur] at hok
  exact ⟨hok.block hne, by simpa [Core.block] using h.count⟩

theorem preempt (h : c.Inv) (hcur : c.cur = some p) : (c.preempt p).Inv := by
  have hok := h.ok
  rw [hcur] at hok
  exact ⟨hok.preempt, by simpa [Core.preempt] using h.count⟩

theorem dispatch (h : c.Inv) (hcur : c.cur = none) (hq : c.lists.q .ready = p :: ps) :
    (c.dispatch p ps).Inv := by
  have hok := h.ok
  rw [hcur] at hok
  exact ⟨hok.dispatch hq, by simpa [Core.dispatch] using h.count⟩

theorem orphan (h : c.Inv) (hp : c.lists.parent p = some r) : (c.orphan r p).Inv :=
  ⟨h.ok.orphan hp, h.count⟩

/-- A process that waits in a queue is freed. -/
theorem reap {j : Place} (h : c.Inv) (hj : j ≠ .free) (hp : p ∈ c.lists.q j)
    (hiso : c.lists.Isolated p) : (c.reap j p).Inv := by
  refine ⟨h.ok.free_queued hp hiso, ?_⟩
  have hcount := h.count
  simp only [Core.reap, Lists.append_q, Lists.setQ_q, Function.update_self, List.length_append,
    List.length_singleton]
  rw [Function.update_of_ne hj.symm]
  push_cast
  omega

/-- The current process is freed. -/
theorem reapCur (h : c.Inv) (hcur : c.cur = some p) (hiso : c.lists.Isolated p) :
    (c.reapCur p).Inv := by
  have hok := h.ok
  rw [hcur] at hok
  refine ⟨hok.free_cur hiso, ?_⟩
  have hcount := h.count
  simp only [Core.reapCur, Lists.append_q, Function.update_self, List.length_append,
    List.length_singleton]
  push_cast
  omega

end Core.Inv

variable [Layout]

/-! ## Who is blocked on a device or the clock -/

/-- The number of processes blocked on the semaphores of `semaphoreArray`. -/
def Lists.devBlocked (l : Lists n) : ℤ :=
  ∑ i ∈ Finset.range maxSema, ((l.q (.blocked (semArr i))).length : ℤ)

namespace Lists

variable {l : Lists n} {i : ℕ} {j : Place} {xs : List (Fin n)} {a : ℕ}

theorem devBlocked_congr {l' : Lists n}
    (h : ∀ i < maxSema, l'.q (.blocked (semArr i)) = l.q (.blocked (semArr i))) :
    l'.devBlocked = l.devBlocked :=
  Finset.sum_congr rfl fun i hi => by rw [h i (Finset.mem_range.mp hi)]

/-- Replacing the queue of one semaphore of the array. -/
theorem devBlocked_setQ (hi : i < maxSema) : (l.setQ (.blocked (semArr i)) xs).devBlocked =
    l.devBlocked - (l.q (.blocked (semArr i))).length + xs.length := by
  have hmem : i ∈ Finset.range maxSema := Finset.mem_range.mpr hi
  rw [devBlocked, devBlocked, ← Finset.add_sum_erase _ _ hmem, ← Finset.add_sum_erase _ _ hmem]
  have hrest : ∀ x ∈ (Finset.range maxSema).erase i,
      (((l.setQ (.blocked (semArr i)) xs).q (.blocked (semArr x))).length : ℤ) =
        (l.q (.blocked (semArr x))).length := by
    intro x hx
    have hne : (Place.blocked (semArr x)) ≠ .blocked (semArr i) := fun e =>
      (Finset.mem_erase.mp hx).1 (semArr_inj.mp (Place.blocked.inj e))
    rw [setQ_q, Function.update_of_ne hne]
  rw [Finset.sum_congr rfl hrest, setQ_q, Function.update_self]
  ring

end Lists

/-- An address a process may be blocked on: in `semaphoreArray` only that of a semaphore. -/
def AddrOk (a : ℕ) : Prop := InSemaphoreArray a → ∃ i < maxSema, a = semArr i

theorem addrOk_semArr {i : ℕ} (hi : i < maxSema) : AddrOk (semArr i) := fun _ => ⟨i, hi, rfl⟩

theorem AddrOk.of_isDevSem {a : ℕ} (h : AddrOk a) (ha : IsDevSem a) : ∃ i < maxSema, a = semArr i :=
  h ha.inSemaphoreArray

theorem ne_semArr {a : ℕ} (ha : ¬ IsDevSem a) {i : ℕ} (hi : i < maxSema) : a ≠ semArr i := by
  rintro rfl
  exact ha (isDevSem_semArr hi)

namespace Core

variable (c : Core n)

/-- What the recursive kill does for a process that was blocked on `a`. -/
def compensate (a : ℕ) : Core n :=
  if IsDevSem a then c.soften (-1) else c.setMem a (c.mem a + 1)

/-- The invariant of `softBlockCount`. -/
structure Soft : Prop where
  /-- `softBlockCount` counts the processes blocked on a device or the clock -/
  soft : c.softBlockCount = c.lists.devBlocked
  /-- no process is blocked on another word of `semaphoreArray` -/
  addrs : ∀ a, c.lists.q (.blocked a) ≠ [] → AddrOk a

end Core

theorem Core.Inv.compensate (h : c.Inv) (a : ℕ) : (c.compensate a).Inv := by
  rw [Core.compensate]
  split
  · exact h.soften _
  · exact h.setMem _ _

/-! ## The moves keep the count of the blocked -/

namespace Core.Soft

/-- Only `softBlockCount` and the queues of the semaphores matter. -/
theorem congr {c' : Core n} (h : c.Soft) (hsoft : c'.softBlockCount = c.softBlockCount)
    (hq : ∀ a, c'.lists.q (.blocked a) = c.lists.q (.blocked a)) : c'.Soft :=
  ⟨by rw [hsoft, h.soft]; exact (Lists.devBlocked_congr fun i _ => hq _).symm,
    fun a ha => h.addrs a (hq a ▸ ha)⟩

theorem save (h : c.Soft) (p : Fin n) (st : State) : (c.save p st).Soft := h.congr rfl fun _ => rfl

theorem setMem (h : c.Soft) (a : ℕ) (v : Word) : (c.setMem a v).Soft := h.congr rfl fun _ => rfl

/-- A change of the queue of one semaphore of the array, with `softBlockCount` adjusted. -/
theorem setQ {c' : Core n} (h : c.Soft) (hi : i < maxSema)
    (hq : ∀ b, b ≠ semArr i → c'.lists.q (.blocked b) = c.lists.q (.blocked b))
    (hsoft : c'.softBlockCount = c.softBlockCount - (c.lists.q (.blocked (semArr i))).length +
      (c'.lists.q (.blocked (semArr i))).length) : c'.Soft := by
  have hset : c'.lists.devBlocked =
      (c.lists.setQ (.blocked (semArr i)) (c'.lists.q (.blocked (semArr i)))).devBlocked := by
    refine Lists.devBlocked_congr fun j _ => ?_
    by_cases hj : semArr j = semArr i
    · simp [hj]
    · simp [hj, hq _ hj]
  refine ⟨by rw [hset, Lists.devBlocked_setQ hi, hsoft, h.soft], fun b hb => ?_⟩
  by_cases hbi : b = semArr i
  · exact hbi ▸ addrOk_semArr hi
  · exact h.addrs b (hq b hbi ▸ hb)

/-- A change of the queue of another word. -/
theorem setQ_of_ne {c' : Core n} (h : c.Soft) (ha : ¬ IsDevSem a)
    (hq : ∀ b, b ≠ a → c'.lists.q (.blocked b) = c.lists.q (.blocked b)) (haddr : AddrOk a)
    (hsoft : c'.softBlockCount = c.softBlockCount) : c'.Soft := by
  refine ⟨?_, fun b hb => ?_⟩
  · rw [hsoft, h.soft]
    exact (Lists.devBlocked_congr fun j hj => hq _ (ne_semArr ha hj).symm).symm
  · by_cases hba : b = a
    · exact hba ▸ haddr
    · exact h.addrs b (hq b hba ▸ hb)

/-- A wakeup from a semaphore of the array. -/
theorem wakeDev (h : c.Soft) (hi : i < maxSema) (hq : c.lists.q (.blocked (semArr i)) = p :: ps) :
    ((c.wake (semArr i) p ps).soften (-1)).Soft := by
  refine h.setQ hi (fun b hb => by simp [Core.wake, Core.soften, hb]) ?_
  simp only [Core.soften, Core.wake, Lists.append_q, Lists.setSemAdd_q, Lists.setQ_q, hq,
    List.length_cons]
  rw [Function.update_of_ne (by simp), Function.update_self]
  omega

/-- A wakeup from a word outside the array. -/
theorem wake (h : c.Soft) (ha : ¬ IsDevSem a) (hq : c.lists.q (.blocked a) = p :: ps) :
    (c.wake a p ps).Soft :=
  h.setQ_of_ne ha (fun b hb => by simp [Core.wake, hb]) (h.addrs a (by rw [hq]; simp)) rfl

/-- The current process is blocked on a semaphore of the array. -/
theorem blockDev (h : c.Soft) (hi : i < maxSema) : ((c.block p (semArr i)).soften 1).Soft := by
  refine h.setQ hi (fun b hb => by simp [Core.block, Core.soften, hb]) ?_
  simp only [Core.soften, Core.block, Lists.append_q, Lists.setSemAdd_q, Function.update_self,
    List.length_append, List.length_singleton]
  push_cast
  omega

/-- The current process is blocked on a word outside the array. -/
theorem block (h : c.Soft) (ha : ¬ InSemaphoreArray a) : (c.block p a).Soft :=
  h.setQ_of_ne (fun hd => ha hd.inSemaphoreArray) (fun b hb => by simp [Core.block, hb])
    (fun hin => absurd hin ha) rfl

/-- A blocked process is freed. -/
theorem reapBlocked (h : c.Soft) (hp : p ∈ c.lists.q (.blocked a)) :
    ((c.reap (.blocked a) p).compensate a).Soft := by
  have hpos : 0 < (c.lists.q (.blocked a)).length := List.length_pos_of_mem hp
  have haddr := h.addrs a (List.ne_nil_of_mem hp)
  by_cases ha : IsDevSem a
  · obtain ⟨i, hi, rfl⟩ := haddr.of_isDevSem ha
    rw [Core.compensate, if_pos ha]
    refine h.setQ hi (fun b hb => by simp [Core.reap, Core.soften, hb]) ?_
    simp only [Core.soften, Core.reap, Lists.append_q, Lists.setQ_q]
    rw [Function.update_of_ne (by simp), Function.update_self, List.length_erase_of_mem hp]
    omega
  · rw [Core.compensate, if_neg ha]
    exact h.setQ_of_ne ha (fun b hb => by simp [Core.reap, Core.setMem, hb]) haddr rfl

end Core.Soft

end Jaeos
