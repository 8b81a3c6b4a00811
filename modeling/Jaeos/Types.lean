import Mathlib.Algebra.Group.Int.Defs
import Mathlib.Algebra.GroupWithZero.Nat
import Mathlib.Data.Int.Notation
import Mathlib.Data.Nat.Notation
import Mathlib.Logic.Function.Basic

/-!
# Constants and types

The parts of `h/const.h` and `h/types.h` that the nucleus works with. A machine
word is a `BitVec 32`; an address is a natural number, with `0` for `NULL`, so
that the order of addresses is the unsigned order the ASL sorts by. Times
(`cpu_t`) are unbounded integers: the clock does not wrap here.
-/

namespace Jaeos

/-- A 32-bit machine word. -/
abbrev Word := BitVec 32

/-- `NULL`. -/
abbrev null : ℕ := 0

/-! ## Constants -/

/-- `WORDLEN` -/
abbrev wordLen : ℕ := 4

/-- `MAXPROC` -/
abbrev maxProc : ℕ := 20

/-- `MAXSEMA` -/
abbrev maxSema : ℕ := 49

/-- `CLCKTIMER`, the index of the pseudo-clock semaphore. -/
abbrev clckTimer : ℕ := 48

/-- `DEVPERINT` -/
abbrev devPerInt : ℕ := 8

/-- `QUANTUM` -/
abbrev quantum : ℤ := 5000

/-- `INTERVALTIME` -/
abbrev intervalTime : ℤ := 100000

/-- `SYSTEMMODE` -/
abbrev systemMode : Word := 0x1F

/-- `RESERVED`, the cause code of a privileged instruction. -/
abbrev reserved : Word := 20

/-- `SUCCESS` -/
abbrev success : Word := 0

/-- `FAILURE` -/
abbrev failed : Word := -1

/-- `READY`, a device status. -/
abbrev ready : Word := 1

/-- `ACK`, a device command. -/
abbrev ack : Word := 1

/-! ## Processor states -/

/-- `STATEREGNUM` -/
abbrev stateRegNum : ℕ := 22

/-- There are registers. -/
instance : NeZero stateRegNum := ⟨by decide⟩

/-- `state_t`: the saved registers. -/
@[ext] structure State where
  /-- `s_reg` -/
  sReg : Fin stateRegNum → Word

/-- `s_a1` -/
abbrev sA1 : Fin stateRegNum := 0
/-- `s_a2` -/
abbrev sA2 : Fin stateRegNum := 1
/-- `s_a3` -/
abbrev sA3 : Fin stateRegNum := 2
/-- `s_a4` -/
abbrev sA4 : Fin stateRegNum := 3
/-- `s_sp` -/
abbrev sSp : Fin stateRegNum := 13
/-- `s_pc` -/
abbrev sPc : Fin stateRegNum := 15
/-- `s_cpsr` -/
abbrev sCpsr : Fin stateRegNum := 16
/-- `s_CP15_Cause` -/
abbrev sCause : Fin stateRegNum := 19

/-- All registers zero. -/
def State.zero : State := ⟨fun _ => 0⟩

/-- Write one register. -/
def State.setReg (st : State) (r : Fin stateRegNum) (v : Word) : State :=
  ⟨Function.update st.sReg r v⟩

@[simp] theorem State.setReg_self (st : State) (r : Fin stateRegNum) (v : Word) :
    (st.setReg r v).sReg r = v := Function.update_self ..

@[simp] theorem State.setReg_ne (st : State) {r q : Fin stateRegNum} (v : Word) (h : q ≠ r) :
    (st.setReg r v).sReg q = st.sReg q := Function.update_of_ne h ..

/-- The state area at an address of memory. -/
def readState (mem : ℕ → Word) (a : ℕ) : State := ⟨fun i => mem (a + wordLen * i.val)⟩

/-- `moveState` into a state area in memory: copy the 22 registers one by one. -/
def writeState (mem : ℕ → Word) (a : ℕ) (st : State) : ℕ → Word :=
  (List.finRange stateRegNum).foldl
    (fun m i => Function.update m (a + wordLen * i.val) (st.sReg i)) mem

/-- The words a state area occupies. -/
def InArea (a b : ℕ) : Prop := ∃ i : Fin stateRegNum, b = a + wordLen * i.val

instance (a b : ℕ) : Decidable (InArea a b) :=
  inferInstanceAs (Decidable (∃ i : Fin stateRegNum, b = a + wordLen * i.val))

/-- Moving a state into an area leaves the rest of memory alone. -/
theorem writeState_of_not_inArea {mem : ℕ → Word} {a b : ℕ} {st : State}
    (h : ¬ InArea a b) : writeState mem a st b = mem b := by
  have hfold : ∀ (is : List (Fin stateRegNum)) (m : ℕ → Word),
      is.foldl (fun m i => Function.update m (a + wordLen * i.val) (st.sReg i)) m b = m b := by
    intro is
    induction is with
    | nil => intro m; rfl
    | cons i is ih =>
      intro m
      rw [List.foldl_cons, ih]
      exact Function.update_of_ne (fun e => h ⟨i, e⟩) _ _
  exact hfold _ mem

/-- What is moved into an area is read from it. -/
theorem readState_writeState (mem : ℕ → Word) (a : ℕ) (st : State) :
    readState (writeState mem a st) a = st := by
  ext i : 2
  have hfold : ∀ (is : List (Fin stateRegNum)) (m : ℕ → Word),
      (i ∈ is ∨ m (a + wordLen * i.val) = st.sReg i) →
        is.foldl (fun m i => Function.update m (a + wordLen * i.val) (st.sReg i)) m
          (a + wordLen * i.val) = st.sReg i := by
    intro is
    induction is with
    | nil => exact fun m h => h.resolve_left (by simp)
    | cons j is ih =>
      intro m h
      rw [List.foldl_cons]
      apply ih
      by_cases hij : i = j
      · subst hij
        exact .inr (Function.update_self ..)
      · refine h.imp (fun hmem => (List.mem_cons.mp hmem).resolve_left hij) fun hm => ?_
        rwa [Function.update_of_ne fun e => hij (Fin.ext ?_)]
        exact Nat.eq_of_mul_eq_mul_left (by decide) (Nat.add_left_cancel e)
  exact hfold _ _ (.inl (List.mem_finRange i))

/-- The trap types of SYS5, `TLBTRAP`, `PROGTRAP` and `SYSTRAP`. -/
inductive TrapType where
  /-- `TLBTRAP` -/
  | tlbTrap
  /-- `PROGTRAP` -/
  | progTrap
  /-- `SYSTRAP` -/
  | sysTrap
  deriving DecidableEq

/-- The old and new areas a process has specified with SYS5; `NULL` when it has not. -/
structure TrapAreas where
  /-- `oldSys` -/
  oldSys : ℕ
  /-- `newSys` -/
  newSys : ℕ
  /-- `oldPrgm` -/
  oldPrgm : ℕ
  /-- `newPrgm` -/
  newPrgm : ℕ
  /-- `oldTlb` -/
  oldTlb : ℕ
  /-- `newTlb` -/
  newTlb : ℕ

namespace TrapAreas

/-- No area specified. -/
def none : TrapAreas := ⟨null, null, null, null, null, null⟩

/-- The old area for a trap type. -/
def old (t : TrapAreas) : TrapType → ℕ
  | .tlbTrap => t.oldTlb
  | .progTrap => t.oldPrgm
  | .sysTrap => t.oldSys

/-- The new area for a trap type. -/
def new (t : TrapAreas) : TrapType → ℕ
  | .tlbTrap => t.newTlb
  | .progTrap => t.newPrgm
  | .sysTrap => t.newSys

/-- Record both areas for a trap type. -/
def install (t : TrapAreas) (ty : TrapType) (o n : ℕ) : TrapAreas :=
  match ty with
  | .tlbTrap => { t with oldTlb := o, newTlb := n }
  | .progTrap => { t with oldPrgm := o, newPrgm := n }
  | .sysTrap => { t with oldSys := o, newSys := n }

end TrapAreas

/-- `device_t`: the registers of one device. A terminal uses the first two for its
receiver and the last two for its transmitter. -/
structure Device where
  /-- `d_status`, `t_recv_status` -/
  dStatus : Word
  /-- `d_command`, `t_recv_command` -/
  dCommand : Word
  /-- `d_data0`, `t_transm_status` -/
  dData0 : Word
  /-- `d_data1`, `t_transm_command` -/
  dData1 : Word

/-! ## Where the linker puts the semaphore array -/

/-- The address of `semaphoreArray`, which the linker chooses. -/
class Layout where
  /-- `&semaphoreArray[0]` -/
  semaphoreArray : ℕ
  /-- it is not `NULL` -/
  pos : 0 < semaphoreArray

section

variable [Layout]

/-- `&semaphoreArray[i]` -/
def semArr (i : ℕ) : ℕ := Layout.semaphoreArray + wordLen * i

/-- The comparison by which the recursive kill recognises a device semaphore. -/
def IsDevSem (a : ℕ) : Prop := semArr 0 ≤ a ∧ a ≤ semArr clckTimer

instance (a : ℕ) : Decidable (IsDevSem a) :=
  inferInstanceAs (Decidable (_ ∧ _))

/-- The bytes of `semaphoreArray`. -/
def InSemaphoreArray (a : ℕ) : Prop := semArr 0 ≤ a ∧ a < semArr maxSema

instance (a : ℕ) : Decidable (InSemaphoreArray a) :=
  inferInstanceAs (Decidable (_ ∧ _))

theorem semArr_ne_null (i : ℕ) : semArr i ≠ null := by
  have := Layout.pos
  simp only [semArr, null]
  omega

theorem semArr_inj {i j : ℕ} : semArr i = semArr j ↔ i = j := by
  simp only [semArr, wordLen]
  omega

theorem isDevSem_semArr {i : ℕ} (h : i < maxSema) : IsDevSem (semArr i) := by
  simp only [maxSema] at h
  simp only [IsDevSem, semArr, wordLen, clckTimer]
  omega

theorem IsDevSem.inSemaphoreArray {a : ℕ} (h : IsDevSem a) : InSemaphoreArray a := by
  simp only [IsDevSem, InSemaphoreArray, semArr, wordLen, clckTimer, maxSema] at *
  omega

end

/-- Processes are told apart by their numbers. -/
instance lawfulBEqFin (n : ℕ) : LawfulBEq (Fin n) := inferInstance

/-! ## Words as integers -/

theorem toInt_add_one {x : Word} (h : x.toInt < 2 ^ 31 - 1) : (x + 1).toInt = x.toInt + 1 := by
  have hlow := BitVec.le_toInt x
  have hone : (1 : Word).toInt = 1 := rfl
  rw [BitVec.toInt_add, hone, Int.bmod_def]
  omega

theorem toInt_add_neg_one {x : Word} (h : -2 ^ 31 < x.toInt) :
    (x + -1).toInt = x.toInt - 1 := by
  have hhigh := BitVec.toInt_lt (x := x)
  have hone : (-1 : Word).toInt = -1 := rfl
  rw [BitVec.toInt_add, hone, Int.bmod_def]
  omega

theorem toInt_sub_one {x : Word} (h : -2 ^ 31 < x.toInt) : (x - 1).toInt = x.toInt - 1 := by
  rw [BitVec.sub_eq_add_neg]
  exact toInt_add_neg_one h

end Jaeos
