import Jaeos.Boot

/-!
# The process queues refine disjoint lists

`Fifos` says what `pcb.c` offers its clients: any number of queues of PCBs and a
free list, as lists without duplicates that share no PCB. `QueueRun` relates the
store and the clients' tail pointers to the lists after any sequence of calls
from `initPcbs`, and `queues_refine_fifos` is the refinement.
-/

namespace Jaeos

open LinkedRing

variable {ι : Type} {n : ℕ}

/-! ## The abstract queues -/

/-- Queues and a free list. -/
structure Fifos (ι : Type) (n : ℕ) where
  /-- the clients' queues, oldest first -/
  queue : ι → List (Fin n)
  /-- the free list, oldest first -/
  free : List (Fin n)
  /-- the PCBs that were handed out and not freed since -/
  out : Finset (Fin n)
  /-- no PCB is twice in a queue -/
  nodup : ∀ i, (queue i).Nodup
  /-- no PCB is in two queues -/
  disjoint : ∀ i j, ∀ p ∈ queue i, p ∈ queue j → i = j
  /-- no PCB is twice in the free list -/
  nodup_free : free.Nodup
  /-- the free list has the PCBs that are not out -/
  mem_free : ∀ p, p ∈ free ↔ p ∉ out
  /-- the PCBs in the queues are out -/
  mem_out : ∀ i, ∀ p ∈ queue i, p ∈ out

/-- A call of `pcb.c`, with the queue it works on. -/
inductive QueueCall (ι : Type) (n : ℕ) where
  /-- `insertProcQ` -/
  | insertProcQ (i : ι) (p : Fin n)
  /-- `removeProcQ` -/
  | removeProcQ (i : ι)
  /-- `outProcQ` -/
  | outProcQ (i : ι) (p : Fin n)
  /-- `headProcQ` -/
  | headProcQ (i : ι)
  /-- `allocPcb` -/
  | allocPcb
  /-- `freePcb` -/
  | freePcb (p : Fin n)

/-- The store, and the tail pointers of the clients. -/
structure QueueState (ι : Type) (n : ℕ) where
  /-- the store -/
  store : Store n
  /-- the tail pointers -/
  tails : ι → Option (Fin n)

namespace Fifos

variable [DecidableEq ι]

/-- All PCBs are free. -/
def init : Fifos ι n where
  queue _ := []
  free := List.finRange n
  out := ∅
  nodup _ := List.nodup_nil
  disjoint _ _ p hp _ := by cases hp
  nodup_free := List.nodup_finRange n
  mem_free := by simp
  mem_out _ p hp := by cases hp

/-- The PCB is in no queue and not in the free list. -/
def Loose (m : Fifos ι n) (p : Fin n) : Prop := p ∉ m.free ∧ ∀ i, p ∉ m.queue i

/-- `insertProcQ` and `freePcb` are given PCBs in no queue. -/
def Legal (m : Fifos ι n) : QueueCall ι n → Prop
  | .insertProcQ _ p | .freePcb p => m.Loose p
  | _ => True

/-- A queue gets another list. -/
def set (m : Fifos ι n) (i : ι) (l : List (Fin n)) (hl : l.Nodup)
    (hmem : ∀ p ∈ l, p ∈ m.out ∧ ∀ j, p ∈ m.queue j → j = i) : Fifos ι n where
  queue := Function.update m.queue i l
  free := m.free
  out := m.out
  nodup j := by
    by_cases hj : j = i
    · rw [hj, Function.update_self]
      exact hl
    · rw [Function.update_of_ne hj]
      exact m.nodup j
  disjoint j₁ j₂ p h₁ h₂ := by
    by_cases hj₁ : j₁ = i <;> by_cases hj₂ : j₂ = i
    · rw [hj₁, hj₂]
    · rw [hj₁, Function.update_self] at h₁
      rw [Function.update_of_ne hj₂] at h₂
      exact absurd ((hmem p h₁).2 j₂ h₂) hj₂
    · rw [hj₂, Function.update_self] at h₂
      rw [Function.update_of_ne hj₁] at h₁
      exact absurd ((hmem p h₂).2 j₁ h₁) hj₁
    · rw [Function.update_of_ne hj₁] at h₁
      rw [Function.update_of_ne hj₂] at h₂
      exact m.disjoint j₁ j₂ p h₁ h₂
  nodup_free := m.nodup_free
  mem_free := m.mem_free
  mem_out j p hp := by
    by_cases hj : j = i
    · rw [hj, Function.update_self] at hp
      exact (hmem p hp).1
    · rw [Function.update_of_ne hj] at hp
      exact m.mem_out j p hp

/-- A queue loses members, if any. -/
def shrink (m : Fifos ι n) (i : ι) (l : List (Fin n)) (hl : l.Sublist (m.queue i)) : Fifos ι n :=
  m.set i l (hl.nodup (m.nodup i)) fun p hp =>
    ⟨m.mem_out i p (hl.subset hp), fun j hj => m.disjoint j i p hj (hl.subset hp)⟩

/-- A queue gets one more member. -/
def append (m : Fifos ι n) (i : ι) (p : Fin n) (hp : m.Loose p) : Fifos ι n :=
  m.set i (m.queue i ++ [p])
    (List.nodup_append.mpr ⟨m.nodup i, List.nodup_singleton p, fun x hx y hy e =>
      hp.2 i (List.mem_singleton.mp hy ▸ e ▸ hx)⟩)
    fun x hx => by
      rcases List.mem_append.mp hx with hx | hx
      · exact ⟨m.mem_out i x hx, fun j hj => m.disjoint j i x hj hx⟩
      · obtain rfl := List.mem_singleton.mp hx
        exact ⟨not_not.mp fun h => hp.1 ((m.mem_free x).mpr h), fun j hj => absurd hj (hp.2 j)⟩

/-- The first PCB of the free list is handed out. -/
def alloc (m : Fifos ι n) (p : Fin n) (ps : List (Fin n)) (hfree : m.free = p :: ps) :
    Fifos ι n where
  queue := m.queue
  free := ps
  out := insert p m.out
  nodup := m.nodup
  disjoint := m.disjoint
  nodup_free := (List.nodup_cons.mp (hfree ▸ m.nodup_free)).2
  mem_free x := by
    have hp := (List.nodup_cons.mp (hfree ▸ m.nodup_free)).1
    have hx := m.mem_free x
    rw [hfree, List.mem_cons] at hx
    rw [Finset.mem_insert, not_or, ← hx]
    exact ⟨fun h => ⟨fun e => hp (e ▸ h), .inr h⟩, fun h => h.2.resolve_left h.1⟩
  mem_out i x hx := Finset.mem_insert_of_mem (m.mem_out i x hx)

/-- A PCB is freed. -/
def release (m : Fifos ι n) (p : Fin n) (hp : m.Loose p) : Fifos ι n where
  queue := m.queue
  free := m.free ++ [p]
  out := m.out.erase p
  nodup := m.nodup
  disjoint := m.disjoint
  nodup_free := List.nodup_append.mpr ⟨m.nodup_free, List.nodup_singleton p, fun x hx y hy e =>
    hp.1 (List.mem_singleton.mp hy ▸ e ▸ hx)⟩
  mem_free x := by
    rw [List.mem_append, List.mem_singleton, Finset.mem_erase, not_and_or, not_not, m.mem_free x,
      or_comm]
  mem_out i x hx := Finset.mem_erase.mpr ⟨fun e => hp.2 i (e ▸ hx), m.mem_out i x hx⟩

/-- What a call returns. -/
def result (m : Fifos ι n) : QueueCall ι n → Option (Fin n)
  | .insertProcQ _ _ | .freePcb _ => none
  | .removeProcQ i | .headProcQ i => (m.queue i).head?
  | .outProcQ i p => if p ∈ m.queue i then some p else none
  | .allocPcb => m.free.head?

/-- What a call does to the queues. -/
def next (m : Fifos ι n) : (c : QueueCall ι n) → m.Legal c → Fifos ι n
  | .insertProcQ i p, hp => m.append i p hp
  | .removeProcQ i, _ => m.shrink i (m.queue i).tail (List.tail_sublist _)
  | .outProcQ i p, _ => m.shrink i ((m.queue i).erase p) List.erase_sublist
  | .headProcQ _, _ => m
  | .allocPcb, _ =>
    match hfree : m.free with
    | [] => m
    | p :: ps => m.alloc p ps hfree
  | .freePcb p, hp => m.release p hp

/-- The PCBs whose queue links a call may change. -/
def touched (m : Fifos ι n) : QueueCall ι n → List (Fin n)
  | .insertProcQ i p => m.queue i ++ [p]
  | .removeProcQ i | .outProcQ i _ => m.queue i
  | .headProcQ _ => []
  | .allocPcb => m.free
  | .freePcb p => m.free ++ [p]

/-- The calls that only look, and those that find nothing to do. -/
def Idle (m : Fifos ι n) : QueueCall ι n → Prop
  | .insertProcQ _ _ | .freePcb _ => False
  | .headProcQ _ => True
  | c => m.result c = none

end Fifos

/-! ## The code -/

section

variable [DecidableEq ι]

/-- The state after a call on the queue `i`. -/
def QueueState.setTail (s : QueueState ι n) (i : ι) (st : Store n) (tail : Option (Fin n)) :
    QueueState ι n := ⟨st, Function.update s.tails i tail⟩

/-- The call, made by the code. -/
def QueueCall.exec (c : QueueCall ι n) (s : QueueState ι n) :
    Option (Option (Fin n) × QueueState ι n) :=
  match c with
  | .insertProcQ i p => do
    let (tail, st) ← (Jaeos.insertProcQ (s.tails i) p).run s.store
    return (none, s.setTail i st tail)
  | .removeProcQ i => do
    let ((r, tail), st) ← (Jaeos.removeProcQ (s.tails i)).run s.store
    return (r, s.setTail i st tail)
  | .outProcQ i p => do
    let ((r, tail), st) ← (Jaeos.outProcQ (s.tails i) p).run s.store
    return (r, s.setTail i st tail)
  | .headProcQ i => do
    let (r, st) ← (Jaeos.headProcQ (s.tails i)).run s.store
    return (r, ⟨st, s.tails⟩)
  | .allocPcb => do
    let (r, st) ← Jaeos.allocPcb.run s.store
    return (r, ⟨st, s.tails⟩)
  | .freePcb p => do
    let (_, st) ← (Jaeos.freePcb p).run s.store
    return (none, ⟨st, s.tails⟩)

/-- The rings of the store are the queues. -/
structure Fifos.Rep (s : QueueState ι n) (m : Fifos ι n) : Prop where
  /-- the queues of the clients -/
  queue : ∀ i, IsQueue s.store (s.tails i) (m.queue i)
  /-- the free list -/
  free : IsQueue s.store s.store.pcbListH m.free

variable {s s' : QueueState ι n} {m : Fifos ι n} {i : ι} {p : Fin n}

namespace Fifos

omit [DecidableEq ι] in
theorem notMem_free (m : Fifos ι n) (hp : p ∈ m.queue i) : p ∉ m.free :=
  fun hf => (m.mem_free p).mp hf (m.mem_out i p hp)

omit [DecidableEq ι] in
/-- The representation only depends on the lists. -/
theorem Rep.congr {m' : Fifos ι n} (hm : Rep s m) (hqueue : m'.queue = m.queue)
    (hfree : m'.free = m.free) : Rep s m' :=
  ⟨fun j => hqueue ▸ hm.queue j, hfree ▸ hm.free⟩

/-- A change of the links of one queue. -/
theorem Rep.set {m' : Fifos ι n} {l touched : List (Fin n)} {k : Links (Fin n)} (hm : Rep s m)
    (hqueue : m'.queue = Function.update m.queue i l) (hfree : m'.free = m.free)
    (hring : IsRing k l) (heq : s.store.queueLinks.EqOff k touched)
    (htouched : ∀ x ∈ touched, x ∉ m.free ∧ ∀ j, x ∈ m.queue j → j = i) :
    Rep (s.setTail i (s.store.withLinks k) l.getLast?) m' := by
  refine ⟨fun j => ?_, ?_⟩
  · rw [hqueue]
    by_cases hj : j = i
    · subst hj
      simp only [QueueState.setTail, Function.update_self]
      exact ⟨hring, rfl⟩
    · simp only [QueueState.setTail, Function.update_of_ne hj]
      exact (hm.queue j).of_eqOff heq fun x hx hxt => hj ((htouched x hxt).2 j hx)
  · rw [hfree]
    exact hm.free.of_eqOff heq fun x hx hxt => (htouched x hxt).1 hx

omit [DecidableEq ι] in
/-- A change of the links of the free list. -/
theorem Rep.setFree {m' : Fifos ι n} {st : Store n} {touched : List (Fin n)} (hm : Rep s m)
    (hqueue : m'.queue = m.queue) (hfree : IsQueue st st.pcbListH m'.free)
    (heq : s.store.queueLinks.EqOff st.queueLinks touched)
    (htouched : ∀ x ∈ touched, ∀ j, x ∉ m.queue j) : Rep ⟨st, s.tails⟩ m' :=
  ⟨fun j => by
    rw [hqueue]
    exact (hm.queue j).of_eqOff heq fun x hx hxt => htouched x hxt j hx, hfree⟩

omit [DecidableEq ι] in
theorem next_allocPcb [DecidableEq ι] (m : Fifos ι n) (hc : m.Legal .allocPcb) :
    (m.next .allocPcb hc).queue = m.queue ∧ (m.next .allocPcb hc).free = m.free.tail := by
  rw [next]
  split
  · rename_i hfree
    simp [hfree]
  · rename_i hfree
    simp [alloc, hfree]

/-- One call: it returns what the lists say, does what they do, and changes no link of a PCB
outside the queue it works on. -/
theorem Rep.exec (hm : Rep s m) (c : QueueCall ι n) (hc : m.Legal c) :
    ∃ s', c.exec s = some (m.result c, s') ∧ Rep s' (m.next c hc) ∧
      s.store.queueLinks.EqOff s'.store.queueLinks (m.touched c) ∧ (m.Idle c → s' = s) := by
  have hown : ∀ i, ∀ x ∈ m.queue i, x ∉ m.free ∧ ∀ j, x ∈ m.queue j → j = i := fun i x hx =>
    ⟨m.notMem_free hx, fun j hj => m.disjoint j i x hj hx⟩
  have hsame : ∀ i, s.setTail i s.store (s.tails i) = s := fun i => by simp [QueueState.setTail]
  cases c with
  | insertProcQ i p =>
    have hp : m.Loose p := hc
    obtain ⟨k, hrun, hring, heq⟩ := insertProcQ_run (hm.queue i) (hp.2 i)
    have htail : some p = (m.queue i ++ [p]).getLast? := by simp
    rw [htail] at hrun
    refine ⟨s.setTail i (s.store.withLinks k) (m.queue i ++ [p]).getLast?, ?_, ?_, heq,
      fun h => h.elim⟩
    · simp only [QueueCall.exec, hrun]
      rfl
    · refine hm.set rfl rfl hring heq fun x hx => ?_
      rcases List.mem_append.mp hx with hx | hx
      · exact hown i x hx
      · obtain rfl := List.mem_singleton.mp hx
        exact ⟨hp.1, fun j hj => absurd hj (hp.2 j)⟩
  | removeProcQ i =>
    have hqueue := hm.queue i
    cases hq : m.queue i with
    | nil =>
      rw [hq] at hqueue
      have hnone : s.tails i = none := hqueue.eq_nil_iff.mpr rfl
      have hrun := removeProcQ_nil hqueue
      refine ⟨s, ?_, hm.congr ?_ rfl, fun _ _ => ⟨rfl, rfl⟩, fun _ => rfl⟩
      · have hs := hsame i
        rw [hnone] at hs
        simp [QueueCall.exec, hrun, Fifos.result, hq, hs]
      · simp [Fifos.next, shrink, Fifos.set, hq]
    | cons x l =>
      rw [hq] at hqueue
      obtain ⟨k, hrun, hring, heq⟩ := removeProcQ_cons hqueue
      rw [← hq] at heq
      refine ⟨s.setTail i (s.store.withLinks k) l.getLast?, ?_, ?_, heq, fun h => ?_⟩
      · simp [QueueCall.exec, hrun, Fifos.result, hq]
      · refine hm.set ?_ rfl hring heq (hown i)
        simp [Fifos.next, shrink, Fifos.set, hq]
      · simp [Idle, Fifos.result, hq] at h
  | outProcQ i p =>
    by_cases hp : p ∈ m.queue i
    · obtain ⟨l₁, l₂, hl₁, hq, herase⟩ := List.exists_erase_eq hp
      have hqueue := hm.queue i
      rw [hq] at hqueue
      obtain ⟨k, hrun, hring, heq⟩ := outProcQ_mem hqueue
      rw [← herase] at hrun hring
      rw [← hq] at heq
      refine ⟨s.setTail i (s.store.withLinks k) ((m.queue i).erase p).getLast?, ?_,
        hm.set rfl rfl hring heq (hown i), heq, fun h => ?_⟩
      · simp [QueueCall.exec, hrun, Fifos.result, hp]
      · simp [Idle, Fifos.result, hp] at h
    · have hrun := outProcQ_not_mem (hm.queue i) hp
      refine ⟨s, ?_, hm.congr ?_ rfl, fun _ _ => ⟨rfl, rfl⟩, fun _ => rfl⟩
      · simp [QueueCall.exec, hrun, Fifos.result, hp, hsame]
      · simp [Fifos.next, shrink, Fifos.set, List.erase_of_not_mem hp]
  | headProcQ i =>
    refine ⟨s, ?_, hm, fun _ _ => ⟨rfl, rfl⟩, fun _ => rfl⟩
    simp [QueueCall.exec, headProcQ_run (hm.queue i), Fifos.result]
  | allocPcb =>
    have hqueue := hm.free
    obtain ⟨hnextq, hnextf⟩ := m.next_allocPcb hc
    cases hfree : m.free with
    | nil =>
      rw [hfree] at hqueue hnextf
      refine ⟨s, ?_, hm.congr hnextq (hnextf.trans hfree.symm), fun _ _ => ⟨rfl, rfl⟩, fun _ => rfl⟩
      simp [QueueCall.exec, allocPcb_none hqueue, Fifos.result, hfree]
    | cons x l =>
      rw [hfree] at hqueue hnextf
      have hx : x ∉ l := (List.nodup_cons.mp hqueue.nodup).1
      obtain ⟨k, hrun, hring, heq⟩ := allocPcb_some hqueue
      generalize hst : ({ s.store.withLinks k with pcbListH := l.getLast? } : Store n) = st at hrun
      have hrest : IsQueue st st.pcbListH l := by
        rw [← hst]
        exact ⟨hring, rfl⟩
      have heq' : s.store.queueLinks.EqOff (st.clean x).queueLinks (x :: l) := fun y hy => by
        have hclean := st.clean_eqOff x y fun h => hy (by simp_all)
        have hoff := heq y hy
        rw [← hst] at hclean ⊢
        exact ⟨hclean.1.trans hoff.1, hclean.2.trans hoff.2⟩
      refine ⟨⟨st.clean x, s.tails⟩, ?_, hm.setFree hnextq ?_ heq' fun y hy j hj => ?_, ?_,
        fun h => ?_⟩
      · simp [QueueCall.exec, hrun, Fifos.result, hfree]
      · rw [hnextf]
        exact hrest.clean hx
      · exact m.notMem_free hj (hfree ▸ hy)
      · rw [touched, hfree]
        exact heq'
      · simp [Idle, Fifos.result, hfree] at h
  | freePcb p =>
    have hp : m.Loose p := hc
    obtain ⟨k, hrun, hring, heq⟩ := freePcb_queue hm.free hp.1
    have hqueue : IsQueue { (s.store.clean p).withLinks k with pcbListH := some p } (some p)
        (m.next (.freePcb p) hc).free := ⟨hring, by simp [Fifos.next, release]⟩
    refine ⟨⟨{ (s.store.clean p).withLinks k with pcbListH := some p }, s.tails⟩, ?_,
      hm.setFree rfl hqueue heq fun x hx j hj => ?_, heq, fun h => h.elim⟩
    · simp only [QueueCall.exec, hrun]
      rfl
    · rcases List.mem_append.mp hx with hx | hx
      · exact m.notMem_free hj hx
      · exact hp.2 j (List.mem_singleton.mp hx ▸ hj)

end Fifos

/-! ## Runs from `initPcbs` -/

/-- The states and lists that a sequence of calls reaches from `initPcbs` and empty queues. -/
inductive QueueRun : QueueState ι n → Fifos ι n → Prop
  /-- `initPcbs`, from any store -/
  | init {st₀ st : Store n} (h : initPcbs.run st₀ = some ((), st)) :
    QueueRun ⟨st, fun _ => mkEmptyProcQ⟩ .init
  /-- one more call -/
  | call {s s' : QueueState ι n} {m : Fifos ι n} {r : Option (Fin n)} (c : QueueCall ι n)
      (hc : m.Legal c) (h : c.exec s = some (r, s')) (hrun : QueueRun s m) :
          QueueRun s' (m.next c hc)

theorem QueueRun.rep (hrun : QueueRun s m) : m.Rep s := by
  induction hrun with
  | @init st₀ st h =>
    obtain ⟨st', hinit, hfreed, -⟩ := initPcbs_run st₀
    rw [h] at hinit
    obtain ⟨-, rfl⟩ := Prod.mk.inj (Option.some.inj hinit)
    exact ⟨fun _ => ⟨IsRing.nil, rfl⟩, hfreed.queue⟩
  | call c hc h hrun ih =>
    obtain ⟨s', hexec, hrep, -⟩ := ih.exec c hc
    rw [h] at hexec
    obtain ⟨-, rfl⟩ := Prod.mk.inj (Option.some.inj hexec)
    exact hrep

/-- What a reader of the store sees: each tail pointer leads to a ring whose list is the queue,
and the free list to the PCBs that are not out. -/
structure Fifos.Seen (s : QueueState ι n) (m : Fifos ι n) : Prop extends m.Rep s where
  /-- the queues -/
  procQ : ∀ i, s.store.procQ (s.tails i) = m.queue i
  /-- the free list -/
  freeList : s.store.freeList = m.free
  /-- `allocPcb` finds nothing exactly when all PCBs are out -/
  full : m.result .allocPcb = none ↔ m.out = Finset.univ
  /-- and otherwise a PCB that is not out -/
  fresh : ∀ p, m.result .allocPcb = some p → p ∉ m.out

omit [DecidableEq ι] in
theorem Fifos.Rep.seen (hm : m.Rep s) : m.Seen s := by
  refine ⟨hm, fun i => (hm.queue i).procQ_eq, hm.free.procQ_eq, ?_, fun p hp => ?_⟩
  · rw [Fifos.result, List.head?_eq_none_iff, Finset.eq_univ_iff_forall]
    constructor
    · intro hfree p
      have hp := m.mem_free p
      rw [hfree] at hp
      simpa using hp
    · intro hall
      exact List.eq_nil_iff_forall_not_mem.mpr fun p hp => (m.mem_free p).mp hp (hall p)
  · exact (m.mem_free p).mp (List.mem_of_head? hp)

/-- The queues and the free list refine the lists: after any sequence of calls the reader of the
store sees the lists, and each further call ends, returns what the lists say, has their effect
and changes no link outside the queue it works on. -/
theorem queues_refine_fifos (hrun : QueueRun s m) : m.Seen s ∧ ∀ c (hc : m.Legal c), ∃ s',
    c.exec s = some (m.result c, s') ∧ (m.next c hc).Seen s' ∧
    s.store.queueLinks.EqOff s'.store.queueLinks (m.touched c) ∧ (m.Idle c → s' = s) := by
  refine ⟨hrun.rep.seen, fun c hc => ?_⟩
  obtain ⟨s', hexec, hrep, heq, hidle⟩ := hrun.rep.exec c hc
  exact ⟨s', hexec, hrep.seen, heq, hidle⟩

end

/-- The first PCB is handed out and put in a queue. -/
theorem queues_refine_fifos_insert : ∃ (s s' s'' : QueueState Unit 2) (m : Fifos Unit 2),
    QueueRun s' m ∧ QueueCall.exec .allocPcb s = some (some 0, s') ∧
      QueueCall.exec (.insertProcQ () 0) s' = some (none, s'') := by
  obtain ⟨st, hinit, -⟩ := initPcbs_run (Store.zero : Store 2)
  have hrun : QueueRun (⟨st, fun _ => mkEmptyProcQ⟩ : QueueState Unit 2) .init := .init hinit
  have hc : (Fifos.init : Fifos Unit 2).Legal .allocPcb := trivial
  obtain ⟨-, hcalls⟩ := queues_refine_fifos hrun
  obtain ⟨s', hexec, -⟩ := hcalls .allocPcb hc
  have hrun' := QueueRun.call .allocPcb hc hexec hrun
  have hloose : (Fifos.init.next .allocPcb hc).Loose 0 := by
    refine ⟨?_, fun i => ?_⟩
    · rw [(Fifos.next_allocPcb _ hc).2]
      decide
    · rw [(Fifos.next_allocPcb _ hc).1]
      simp [Fifos.init]
  obtain ⟨-, hcalls'⟩ := queues_refine_fifos hrun'
  obtain ⟨s'', hexec', -⟩ := hcalls' (.insertProcQ () 0) hloose
  exact ⟨_, s', s'', _, hrun', hexec, hexec'⟩

end Jaeos
