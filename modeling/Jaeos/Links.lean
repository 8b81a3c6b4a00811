import Jaeos.Asl
import Jaeos.Lib.Keeps

/-!
# The calls of `pcb.c` and `asl.c` write links

Apart from `washPcb`, the functions of `pcb.c` and `asl.c` write pointers between
PCBs and descriptors and nothing else. What reads none of them (`Blind`) is the same
before and after. The functions on queues write no pointers of the process tree and
no `p_semAdd`, so what reads these only (`QueueBlind`) is the same after them.
-/

namespace Jaeos

variable {n : ℕ} {γ : Type}

/-- What `f` reads of the store depends on no link of a queue. -/
structure QueueBlind (f : Store n → γ) : Prop where
  /-- `p_next` -/
  next : ∀ st v, f { st with pNext := v } = f st
  /-- `p_prev` -/
  prev : ∀ st v, f { st with pPrev := v } = f st
  /-- the static data of `asl.c` -/
  asl : ∀ (st : Store n) (d : AslData n), f { st with toAslData := d } = f st

namespace QueueBlind

open Keeps

variable {f : Store n → γ} (hf : QueueBlind f)

include hf

/-! ## Field writes -/

theorem setNext (p : Fin n) (v : Option (Fin n)) : Keeps f (Jaeos.setNext p v) :=
  of_modify fun _ => hf.next _ _

theorem setPrev (p : Fin n) (v : Option (Fin n)) : Keeps f (Jaeos.setPrev p v) :=
  of_modify fun _ => hf.prev _ _

theorem setSNext (d : SemdPtr) (v : Option SemdPtr) : Keeps f (Jaeos.setSNext (n := n) d v) :=
  of_modify fun _ => hf.asl _ _

theorem setSSemAdd (d : SemdPtr) (v : ℕ) : Keeps f (Jaeos.setSSemAdd (n := n) d v) :=
  of_modify fun _ => hf.asl _ _

theorem setSProcQ (d : SemdPtr) (v : Option (Fin n)) : Keeps f (Jaeos.setSProcQ d v) :=
  of_modify fun _ => hf.asl _ _

theorem setSemdListH (v : Option SemdPtr) :
    Keeps f (modify fun st : Store n => { st with semdListH := v }) :=
  of_modify fun _ => hf.asl _ _

/-! ## Process queues -/

theorem insertProcQ (tp : Option (Fin n)) (p : Fin n) : Keeps f (Jaeos.insertProcQ tp p) := by
  rw [Jaeos.insertProcQ.eq_def]
  split
  · exact of_bind (hf.setNext _ _) fun _ => of_bind (hf.setPrev _ _) fun _ => of_pure _
  · refine of_get_bind fun _ => of_bind (hf.setNext _ _) fun _ => of_get_bind fun _ => ?_
    refine of_lift_bind fun _ => of_bind (hf.setPrev _ _) fun _ => ?_
    exact of_bind (hf.setNext _ _) fun _ => of_bind (hf.setPrev _ _) fun _ => of_pure _

theorem outProcQLoop (t p : Fin n) (fuel : ℕ) (q : Option (Fin n)) :
    Keeps f (Jaeos.outProcQLoop t p fuel q) := by
  induction fuel generalizing q with
  | zero => exact of_failure
  | succ fuel ih =>
    rw [Jaeos.outProcQLoop]
    split
    · exact of_pure _
    · split
      · refine of_get_bind fun _ => of_lift_bind fun _ => of_get_bind fun _ => ?_
        refine of_bind (hf.setNext _ _) fun _ => of_get_bind fun _ => of_lift_bind fun _ => ?_
        refine of_get_bind fun _ => of_bind (hf.setPrev _ _) fun _ => ?_
        refine of_bind (hf.setPrev _ _) fun _ => of_bind (hf.setNext _ _) fun _ => ?_
        exact of_pure _
      · exact of_get_bind fun _ => of_lift_bind fun _ => ih _

theorem outProcQ (tp : Option (Fin n)) (p : Fin n) : Keeps f (Jaeos.outProcQ tp p) := by
  rw [Jaeos.outProcQ.eq_def]
  split
  · exact of_pure _
  · split
    · refine of_get_bind fun _ => ?_
      split
      · refine of_get_bind fun _ => of_lift_bind fun _ => of_get_bind fun _ => ?_
        refine of_bind (hf.setNext _ _) fun _ => of_get_bind fun _ => of_lift_bind fun _ => ?_
        refine of_get_bind fun _ => of_bind (hf.setPrev _ _) fun _ => ?_
        exact of_get_bind fun _ => of_pure _
      · exact of_pure _
    · exact of_get_bind fun _ => of_bind (hf.outProcQLoop _ _ _ _) fun _ => of_pure _

theorem removeProcQ (tp : Option (Fin n)) : Keeps f (Jaeos.removeProcQ tp) := by
  rw [Jaeos.removeProcQ.eq_def]
  split
  · exact of_pure _
  · exact of_get_bind fun _ => of_lift_bind fun _ => hf.outProcQ _ _

/-! ## The active semaphore list -/

theorem freeSemd (d : SemdPtr) : Keeps f (Jaeos.freeSemd (n := n) d) := by
  refine of_get_bind fun _ => ?_
  split
  · exact of_bind (hf.setSemdListH _) fun _ => hf.setSNext _ _
  · exact of_bind (hf.setSNext _ _) fun _ => hf.setSemdListH _

theorem allocSemd : Keeps f (Jaeos.allocSemd (n := n)) := by
  have hrest : ∀ d, Keeps f (do
      Jaeos.setSProcQ (n := n) d none
      Jaeos.setSNext d none
      Jaeos.setSSemAdd d null
      return some d) := fun d =>
    of_bind (hf.setSProcQ _ _) fun _ => of_bind (hf.setSNext _ _) fun _ =>
      of_bind (hf.setSSemAdd _ _) fun _ => of_pure _
  refine of_get_bind fun _ => ?_
  split
  · exact of_pure _
  · refine of_get_bind fun _ => ?_
    split
    · exact of_bind (hf.setSemdListH _) fun _ => hrest _
    · exact of_bind (hf.setSemdListH _) fun _ => of_bind (hf.setSNext _ _) fun _ => hrest _

omit hf in
theorem getPrevSemd (a : ℕ) : Keeps f (Jaeos.getPrevSemd (n := n) a) :=
  of_get_bind fun _ => of_lift_bind fun _ => of_lift _

omit hf in
theorem foundSemd (d : SemdPtr) (a : ℕ) : Keeps f (Jaeos.foundSemd (n := n) d a) := by
  refine of_get_bind fun _ => ?_
  split
  · exact of_pure _
  · refine of_get_bind fun _ => ?_
    split
    · exact of_pure _
    · exact of_pure _

theorem unweaveEmpty (d d' : SemdPtr) : Keeps f (Jaeos.unweaveEmpty (n := n) d d') := by
  refine of_get_bind fun _ => ?_
  split
  · exact of_get_bind fun _ => of_bind (hf.setSNext _ _) fun _ => of_bind (hf.setSNext _ _) fun _ =>
      hf.freeSemd _
  · exact of_pure _

theorem removeBlocked (a : ℕ) : Keeps f (Jaeos.removeBlocked (n := n) a) := by
  refine of_bind (getPrevSemd _) fun _ => of_bind (foundSemd _ _) fun found => ?_
  cases found with
  | none => exact of_pure _
  | some d =>
    refine of_get_bind fun _ => of_bind (hf.removeProcQ _) fun r => ?_
    exact of_bind (hf.setSProcQ _ _) fun _ => of_bind (hf.unweaveEmpty _ _) fun _ => of_pure _

theorem outBlocked (p : Fin n) : Keeps f (Jaeos.outBlocked p) := by
  refine of_get_bind fun _ => of_bind (getPrevSemd _) fun _ => of_get_bind fun _ => ?_
  refine of_bind (foundSemd _ _) fun found => ?_
  cases found with
  | none => exact of_pure _
  | some d =>
    refine of_get_bind fun _ => of_bind (hf.outProcQ _ _) fun r => ?_
    refine of_bind (hf.setSProcQ _ _) fun _ => ?_
    split
    · exact of_pure _
    · exact of_bind (hf.unweaveEmpty _ _) fun _ => of_pure _

end QueueBlind

/-- What `f` reads of the store depends on no link. -/
structure Blind (f : Store n → γ) : Prop where
  /-- `p_next` -/
  next : ∀ st v, f { st with pNext := v } = f st
  /-- `p_prev` -/
  prev : ∀ st v, f { st with pPrev := v } = f st
  /-- `p_prnt` -/
  prnt : ∀ st v, f { st with pPrnt := v } = f st
  /-- `p_child` -/
  child : ∀ st v, f { st with pChild := v } = f st
  /-- `p_nextSib` -/
  nextSib : ∀ st v, f { st with pNextSib := v } = f st
  /-- `p_prevSib` -/
  prevSib : ∀ st v, f { st with pPrevSib := v } = f st
  /-- `p_semAdd` -/
  semAdd : ∀ st v, f { st with pSemAdd := v } = f st
  /-- `pcbList_h` -/
  free : ∀ st v, f { st with pcbListH := v } = f st
  /-- the static data of `asl.c` -/
  asl : ∀ (st : Store n) (d : AslData n), f { st with toAslData := d } = f st

theorem Blind.readyQueue : Blind (n := n) (·.readyQueue) :=
  ⟨fun _ _ => rfl, fun _ _ => rfl, fun _ _ => rfl, fun _ _ => rfl, fun _ _ => rfl, fun _ _ => rfl,
    fun _ _ => rfl, fun _ _ => rfl, fun _ _ => rfl⟩

theorem Blind.data : Blind (n := n) (·.toPcbData) :=
  ⟨fun _ _ => rfl, fun _ _ => rfl, fun _ _ => rfl, fun _ _ => rfl, fun _ _ => rfl, fun _ _ => rfl,
    fun _ _ => rfl, fun _ _ => rfl, fun _ _ => rfl⟩

namespace Blind

open Keeps

variable {f : Store n → γ} (hf : Blind f)

include hf

theorem queue : QueueBlind f := ⟨hf.next, hf.prev, hf.asl⟩

/-! ## Field writes -/

theorem setPrnt (p : Fin n) (v : Option (Fin n)) : Keeps f (Jaeos.setPrnt p v) :=
  of_modify fun _ => hf.prnt _ _

theorem setChild (p : Fin n) (v : Option (Fin n)) : Keeps f (Jaeos.setChild p v) :=
  of_modify fun _ => hf.child _ _

theorem setNextSib (p : Fin n) (v : Option (Fin n)) : Keeps f (Jaeos.setNextSib p v) :=
  of_modify fun _ => hf.nextSib _ _

theorem setPrevSib (p : Fin n) (v : Option (Fin n)) : Keeps f (Jaeos.setPrevSib p v) :=
  of_modify fun _ => hf.prevSib _ _

theorem setSemAdd (p : Fin n) (v : ℕ) : Keeps f (Jaeos.setSemAdd p v) :=
  of_modify fun _ => hf.semAdd _ _

/-! ## The process tree -/

omit hf in
theorem emptyChild (p : Fin n) : Keeps f (Jaeos.emptyChild p) := of_get_bind fun _ => of_pure _

theorem insertChild (prnt p : Fin n) : Keeps f (Jaeos.insertChild prnt p) := by
  have hrest : Keeps f (do
      Jaeos.setNextSib p none
      Jaeos.setChild prnt (some p)
      Jaeos.setPrnt p (some prnt)) :=
    of_bind (hf.setNextSib _ _) fun _ => of_bind (hf.setChild _ _) fun _ => hf.setPrnt _ _
  refine of_bind (emptyChild _) fun b => ?_
  cases b with
  | true => exact of_bind (hf.setPrevSib _ _) fun _ => hrest
  | false =>
    refine of_get_bind fun _ => of_lift_bind fun _ => of_bind (hf.setNextSib _ _) fun _ => ?_
    exact of_get_bind fun _ => of_bind (hf.setPrevSib _ _) fun _ => hrest

theorem removeChild (prnt : Fin n) : Keeps f (Jaeos.removeChild prnt) := by
  refine of_get_bind fun _ => ?_
  split
  · exact of_pure _
  · refine of_get_bind fun _ => ?_
    split
    · exact of_bind (hf.setPrnt _ _) fun _ => of_bind (hf.setChild _ _) fun _ => of_pure _
    · refine of_bind (hf.setChild _ _) fun _ => of_bind (hf.setNextSib _ _) fun _ => ?_
      exact of_bind (hf.setPrevSib _ _) fun _ => of_bind (hf.setPrnt _ _) fun _ => of_pure _

theorem outChild (p : Fin n) : Keeps f (Jaeos.outChild p) := by
  have hrest : Keeps f (do
      Jaeos.setNextSib p none
      Jaeos.setPrnt p none
      return some p) :=
    of_bind (hf.setNextSib _ _) fun _ => of_bind (hf.setPrnt _ _) fun _ => of_pure _
  refine of_get_bind fun _ => ?_
  split
  · exact of_pure _
  · refine of_get_bind fun _ => ?_
    split
    · exact hf.removeChild _
    · refine of_get_bind fun _ => ?_
      split
      · exact of_get_bind fun _ => of_lift_bind fun _ => of_bind (hf.setPrevSib _ _) fun _ => hrest
      · refine of_get_bind fun _ => of_lift_bind fun _ => of_bind (hf.setPrevSib _ _) fun _ => ?_
        exact of_get_bind fun _ => of_bind (hf.setNextSib _ _) fun _ =>
          of_bind (hf.setPrevSib _ _) fun _ => hrest

/-! ## The active semaphore list -/

theorem insertBlocked (a : ℕ) (p : Fin n) : Keeps f (Jaeos.insertBlocked a p) := by
  refine of_bind (QueueBlind.getPrevSemd _) fun _ => ?_
  refine of_bind (QueueBlind.foundSemd _ _) fun found => ?_
  cases found with
  | none =>
    refine of_bind hf.queue.allocSemd fun semd => ?_
    cases semd with
    | none => exact of_pure _
    | some newSemd =>
      refine of_bind (hf.queue.setSSemAdd _ _) fun _ => of_bind (hf.queue.setSProcQ _ _) fun _ => ?_
      refine of_get_bind fun _ => of_bind (hf.setSemAdd _ _) fun _ => of_get_bind fun _ => ?_
      refine of_bind (hf.queue.insertProcQ _ _) fun _ => ?_
      refine of_bind (hf.queue.setSProcQ _ _) fun _ => ?_
      refine of_get_bind fun _ => of_bind (hf.queue.setSNext _ _) fun _ => ?_
      exact of_bind (hf.queue.setSNext _ _) fun _ => of_pure _
  | some d =>
    refine of_get_bind fun _ => of_bind (hf.queue.insertProcQ _ _) fun _ => ?_
    exact of_bind (hf.queue.setSProcQ _ _) fun _ => of_bind (hf.setSemAdd _ _) fun _ => of_pure _

end Blind

end Jaeos
