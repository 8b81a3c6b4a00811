import Jaeos.Pcb
import Mathlib.Data.Fintype.Card

/-!
# Process queues are lists

`IsQueue st tp l` says that the ring with tail pointer `tp` holds the processes
`l`, oldest first. Under it, `insertProcQ` appends, `removeProcQ` takes the
head, `headProcQ` reads it, and `outProcQ` takes out any member and leaves the
order of the others. Each lemma also names the nodes whose links may have
changed, so that rings on other nodes carry over.
-/

namespace Jaeos

open LinkedRing

variable {n : ℕ}

/-- The links of the process queues. -/
def Store.queueLinks (st : Store n) : Links (Fin n) := ⟨st.pNext, st.pPrev⟩

/-- The store with other queue links. -/
def Store.withLinks (st : Store n) (k : Links (Fin n)) : Store n :=
  { st with pNext := k.next, pPrev := k.prev }

@[simp] theorem Store.queueLinks_withLinks (st : Store n) (k : Links (Fin n)) :
    (st.withLinks k).queueLinks = k := rfl

/-- The processes of the queue with tail pointer `tp`, oldest first. -/
def Store.procQ (st : Store n) (tp : Option (Fin n)) : List (Fin n) :=
  ringList st.queueLinks n tp

/-- The queue with tail pointer `tp` holds `l`, oldest first. -/
structure IsQueue (st : Store n) (tp : Option (Fin n)) (l : List (Fin n)) : Prop where
  /-- the processes form a ring -/
  ring : IsRing st.queueLinks l
  /-- the tail pointer points at the youngest -/
  tail : tp = l.getLast?

variable {st st' : Store n} {tp : Option (Fin n)} {l l₁ l₂ : List (Fin n)} {p t x : Fin n}

namespace IsQueue

theorem nodup (h : IsQueue st tp l) : l.Nodup := h.ring.nodup

theorem length_le (h : IsQueue st tp l) : l.length ≤ n := by
  simpa using h.nodup.length_le_card

/-- Reading the queue from its tail pointer gives its list. -/
theorem procQ_eq (h : IsQueue st tp l) : st.procQ tp = l := by
  rw [Store.procQ, h.tail]
  exact h.ring.ringList_eq h.length_le

/-- A queue does not notice writes to the links of other nodes. -/
theorem of_eqOff (h : IsQueue st tp l) (he : st.queueLinks.EqOff st'.queueLinks l₁)
    (hd : ∀ x ∈ l, x ∉ l₁) : IsQueue st' tp l :=
  ⟨h.ring.of_eqOff he hd, h.tail⟩

/-- A queue is empty exactly when its tail pointer is null. -/
theorem eq_nil_iff (h : IsQueue st tp l) : tp = none ↔ l = [] := by
  rw [h.tail, List.getLast?_eq_none_iff]

theorem tail_eq (h : IsQueue st (some t) (x :: l)) : t = (x :: l).getLast (by simp) := by
  have := h.tail
  rw [List.getLast?_eq_some_getLast (by simp)] at this
  exact Option.some.inj this

/-- The tail of a non-empty queue points at the oldest process. -/
theorem next_tail (h : IsQueue st (some t) (x :: l)) : st.pNext t = some x := by
  have := h.ring.next_getLast (by simp)
  rw [← h.tail_eq] at this
  exact this

end IsQueue

/-- `headProcQ` reads the oldest process. -/
theorem headProcQ_run (h : IsQueue st tp l) : (headProcQ tp).run st = some (l.head?, st) := by
  cases l with
  | nil =>
    rw [h.eq_nil_iff.mpr rfl]
    rfl
  | cons x l =>
    obtain ⟨t, rfl⟩ : ∃ t, tp = some t := by
      cases htp : tp with
      | none => cases h.eq_nil_iff.mp htp
      | some t => exact ⟨t, rfl⟩
    simp [headProcQ, h.next_tail]

/-- `insertProcQ` appends. -/
theorem insertProcQ_run (h : IsQueue st tp l) (hp : p ∉ l) :
    ∃ k, (insertProcQ tp p).run st = some (some p, st.withLinks k) ∧
      IsRing k (l ++ [p]) ∧ st.queueLinks.EqOff k (l ++ [p]) := by
  cases tp with
  | none =>
    obtain rfl := h.eq_nil_iff.mp rfl
    refine ⟨⟨Function.update st.pNext p (some p), Function.update st.pPrev p (some p)⟩, rfl,
      IsRing.singleton (by simp) (by simp), ?_⟩
    intro y hy
    have hyp : y ≠ p := by simpa using hy
    exact ⟨Function.update_of_ne hyp _ _, Function.update_of_ne hyp _ _⟩
  | some t =>
    obtain ⟨x, l, rfl⟩ : ∃ x l', l = x :: l' := List.exists_cons_of_ne_nil fun e => by
      rw [e] at h
      cases h.eq_nil_iff.mpr rfl
    have ht := h.tail_eq
    have htp : t ≠ p := fun e => hp (e ▸ ht ▸ List.getLast_mem _)
    refine ⟨⟨Function.update (Function.update st.pNext p (some x)) t (some p),
      Function.update (Function.update st.pPrev x (some p)) p (some t)⟩, ?_,
      h.ring.snoc hp ht, ?_⟩
    · simp [insertProcQ, setNext, setPrev, h.next_tail, htp, Store.withLinks]
    · intro y hy
      have hyp : y ≠ p := fun e => hy (by simp [e])
      have hyt : y ≠ t :=
        fun e => hy (by rw [e, ht]; exact List.mem_append_left _ (List.getLast_mem _))
      have hyx : y ≠ x := fun e => hy (by simp [e])
      exact ⟨by simp [hyp, hyt, Store.queueLinks], by simp [hyp, hyx, Store.queueLinks]⟩

/-! ## Taking a process out -/

/-- The search finds `p` before it comes to the tail, and unlinks it. -/
theorem outProcQLoop_mem {q r : Fin n} (hpt : p ≠ t) (hq : st.pPrev p = some q)
    (hr : st.pNext p = some r) (hqp : q ≠ p) :
    ∀ {l₁ : List (Fin n)} {fuel : ℕ}, (l₁ ++ [p]).IsChain st.queueLinks.Adj → t ∉ l₁ → p ∉ l₁ →
      l₁.length < fuel →
      (outProcQLoop t p fuel (l₁ ++ [p]).head?).run st = some (some p, st.withLinks
        ⟨Function.update (Function.update st.pNext q (some r)) p none,
          Function.update (Function.update st.pPrev r (some q)) p none⟩) := by
  intro l₁
  induction l₁ with
  | nil =>
    intro fuel _ _ _ hf
    obtain ⟨m, rfl⟩ : ∃ m, fuel = m + 1 := ⟨fuel - 1, by omega⟩
    simp [outProcQLoop, hpt, hq, hr, setNext, setPrev, Store.withLinks, hqp.symm]
  | cons y l₁ ih =>
    intro fuel hch ht hp hf
    obtain ⟨m, rfl⟩ : ∃ m, fuel = m + 1 := ⟨fuel - 1, by omega⟩
    have hyt : y ≠ t := fun e => ht (by simp [e])
    have hyp : y ≠ p := fun e => hp (by simp [e])
    have hnext : st.pNext y = (l₁ ++ [p]).head? := by
      cases l₁ with
      | nil => exact hch.rel.1
      | cons z l₁ => exact hch.rel.1
    have hrest := @ih m hch.tail (fun hm => ht (List.mem_cons_of_mem _ hm))
      (fun hm => hp (List.mem_cons_of_mem _ hm)) (by simpa using hf)
    rw [← hnext] at hrest
    simpa [outProcQLoop, hyt, hyp] using hrest

/-- The search passes every process and stops at the tail when `p` is not there. -/
theorem outProcQLoop_not_mem :
    ∀ {l : List (Fin n)} {fuel : ℕ}, (l ++ [t]).IsChain st.queueLinks.Adj → t ∉ l → p ∉ l →
      l.length < fuel → (outProcQLoop t p fuel (l ++ [t]).head?).run st = some (none, st) := by
  intro l
  induction l with
  | nil =>
    intro fuel _ _ _ hf
    obtain ⟨m, rfl⟩ : ∃ m, fuel = m + 1 := ⟨fuel - 1, by omega⟩
    simp [outProcQLoop]
  | cons y l ih =>
    intro fuel hch ht hp hf
    obtain ⟨m, rfl⟩ : ∃ m, fuel = m + 1 := ⟨fuel - 1, by omega⟩
    have hyt : y ≠ t := fun e => ht (by simp [e])
    have hyp : y ≠ p := fun e => hp (by simp [e])
    have hnext : st.pNext y = (l ++ [t]).head? := by
      cases l with
      | nil => exact hch.rel.1
      | cons z l => exact hch.rel.1
    have hrest := @ih m hch.tail (fun hm => ht (List.mem_cons_of_mem _ hm))
      (fun hm => hp (List.mem_cons_of_mem _ hm)) (by simpa using hf)
    rw [← hnext] at hrest
    simpa [outProcQLoop, hyt, hyp] using hrest

/-- A queue with a tail is its other processes, then the tail. -/
theorem IsQueue.eq_concat (h : IsQueue st (some t) l) :
    ∃ m, l = m ++ [t] ∧ st.pNext t = (m ++ [t]).head? ∧ (m ++ [t]).IsChain st.queueLinks.Adj ∧
      t ∉ m := by
  obtain ⟨m, rfl⟩ : ∃ m, l = m ++ [t] := List.getLast?_eq_some_iff.mp h.tail.symm
  refine ⟨m, rfl, ?_, h.ring.chain.left_of_append, ?_⟩
  · cases m with
    | nil => exact h.next_tail
    | cons y m => exact h.next_tail
  · have := h.nodup
    intro hm
    exact (List.nodup_append.mp this).2.2 t hm t (by simp) rfl

/-- `outProcQ` of the only process: the queue becomes empty. -/
theorem outProcQ_only (h : IsQueue st (some p) [p]) :
    (outProcQ (some p) p).run st = some ((some p, none), st) := by
  have hnext : st.pNext p = some p := h.next_tail
  simp [outProcQ, hnext]

/-- The processes before one of a queue follow each other up to it. -/
theorem IsQueue.chain_prefix (h : IsQueue st tp (l₁ ++ p :: l₂)) :
    (l₁ ++ [p]).IsChain st.queueLinks.Adj := by
  have hall := h.ring.chain.left_of_append
  rw [List.append_cons] at hall
  exact hall.left_of_append

/-- A process of a queue occurs only once in it. -/
theorem IsQueue.notMem_rest (h : IsQueue st tp (l₁ ++ p :: l₂)) : p ∉ l₁ ++ l₂ := by
  have hnd : (p :: (l₁ ++ l₂)).Nodup := List.perm_middle.nodup_iff.mp h.nodup
  exact (List.nodup_cons.mp hnd).1

/-- What is not in a queue is none of its processes. -/
theorem ne_of_notMem {y q r : Fin n} (hq : q ∈ l₁ ++ l₂) (hr : r ∈ l₁ ++ l₂)
    (hy : y ∉ l₁ ++ p :: l₂) : y ≠ q ∧ y ≠ r ∧ y ≠ p := by
  have hsub : ∀ z ∈ l₁ ++ l₂, z ∈ l₁ ++ p :: l₂ := fun z hz => by
    simp only [List.mem_append, List.mem_cons] at hz ⊢
    tauto
  exact ⟨fun e => hy (e ▸ hsub q hq), fun e => hy (e ▸ hsub r hr), fun e => hy (by simp [e])⟩

/-- `outProcQ` of the tail: its predecessor becomes the tail. -/
theorem outProcQ_tail (h : IsQueue st (some p) (l₁ ++ [p])) (hl₁ : l₁ ≠ []) :
    ∃ k, (outProcQ (some p) p).run st = some ((some p, l₁.getLast?), st.withLinks k) ∧
      IsRing k l₁ ∧ st.queueLinks.EqOff k (l₁ ++ [p]) := by
  obtain ⟨q, r, hq, hr, hqm, hrm, hring⟩ := h.ring.remove (by simpa using hl₁)
  have hpm := h.notMem_rest
  have hqp : q ≠ p := fun e => hpm (e ▸ hqm)
  have hrp : r ≠ p := fun e => hpm (e ▸ hrm)
  have hlast : l₁.getLast? = some q := by
    rw [List.getLast?_eq_some_getLast hl₁]
    have hadj := h.chain_prefix.rel_getLast_head_of_append hl₁ (by simp)
    exact congrArg some (Option.some.inj (hadj.2.symm.trans hq))
  rw [List.append_nil] at hring
  refine ⟨_, ?_, hring, ?_⟩
  · have hq' : st.pPrev p = some q := hq
    have hr' : st.pNext p = some r := hr
    simp [outProcQ, setNext, setPrev, hq', hr', hrp, hlast, hqp.symm, hrp.symm,
      Store.withLinks, Store.queueLinks]
  · intro y hy
    obtain ⟨hyq, hyr, -⟩ := ne_of_notMem hqm hrm hy
    exact ⟨Function.update_of_ne hyq _ _, Function.update_of_ne hyr _ _⟩

/-- `outProcQ` of a process ahead of the tail: the search finds it. -/
theorem outProcQ_inner (h : IsQueue st (some t) (l₁ ++ p :: l₂)) (hl₂ : l₂ ≠ []) :
    ∃ k, (outProcQ (some t) p).run st = some ((some p, (l₁ ++ l₂).getLast?), st.withLinks k) ∧
      IsRing k (l₁ ++ l₂) ∧ st.queueLinks.EqOff k (l₁ ++ p :: l₂) := by
  obtain ⟨q, r, hq, hr, hqm, hrm, hring⟩ := h.ring.remove (by simp [hl₂])
  have hpm := h.notMem_rest
  have hqp : q ≠ p := fun e => hpm (e ▸ hqm)
  have htl : l₂.getLast? = some t := by
    have htail := h.tail
    rw [List.getLast?_append, List.getLast?_cons_of_ne_nil hl₂] at htail
    rw [List.getLast?_eq_some_getLast hl₂] at htail ⊢
    simpa using htail.symm
  have htm : t ∈ l₂ := List.mem_of_getLast? htl
  have hpt : p ≠ t := by
    rintro rfl
    exact hpm (List.mem_append_right _ htm)
  have htl₁ : t ∉ l₁ := fun hm => (List.nodup_append.mp h.nodup).2.2 t hm t (by simp [htm]) rfl
  have hpl₁ : p ∉ l₁ := fun hm => hpm (List.mem_append_left _ hm)
  have hlen : l₁.length < n := by
    have hle := h.length_le
    simp only [List.length_append, List.length_cons] at hle
    omega
  have hstart : st.pNext t = (l₁ ++ [p]).head? := by
    cases l₁ with
    | nil => exact h.next_tail
    | cons y l₁ => exact h.next_tail
  have hloop := outProcQLoop_mem hpt hq hr hqp h.chain_prefix htl₁ hpl₁ hlen
  rw [← hstart] at hloop
  have htail : (l₁ ++ l₂).getLast? = some t := by
    rw [List.getLast?_append, htl]
    rfl
  refine ⟨⟨Function.update (Function.update st.pNext q (some r)) p none,
    Function.update (Function.update st.pPrev r (some q)) p none⟩, ?_, hring.congr ?_ ?_, ?_⟩
  · simp only [outProcQ, hpt, if_false, htail]
    simp [hloop]
  · intro y hy
    have hyp : y ≠ p := fun e => hpm (e ▸ hy)
    exact Function.update_of_ne hyp _ _
  · intro y hy
    have hyp : y ≠ p := fun e => hpm (e ▸ hy)
    exact Function.update_of_ne hyp _ _
  · intro y hy
    obtain ⟨hyq, hyr, hyp⟩ := ne_of_notMem hqm hrm hy
    exact ⟨by simp [hyq, hyp, Store.queueLinks], by simp [hyr, hyp, Store.queueLinks]⟩

/-- `outProcQ` takes out any member and keeps the order of the others. -/
theorem outProcQ_mem (h : IsQueue st tp (l₁ ++ p :: l₂)) :
    ∃ k, (outProcQ tp p).run st = some ((some p, (l₁ ++ l₂).getLast?), st.withLinks k) ∧
      IsRing k (l₁ ++ l₂) ∧ st.queueLinks.EqOff k (l₁ ++ p :: l₂) := by
  obtain ⟨t, rfl⟩ : ∃ t, tp = some t := by
    cases htp : tp with
    | none => simpa using h.eq_nil_iff.mp htp
    | some t => exact ⟨t, rfl⟩
  by_cases hl₂ : l₂ = []
  · subst hl₂
    obtain rfl : p = t := by simpa using h.tail.symm
    rw [List.append_nil]
    by_cases hl₁ : l₁ = []
    · subst hl₁
      exact ⟨st.queueLinks, outProcQ_only h, IsRing.nil, fun _ _ => ⟨rfl, rfl⟩⟩
    · exact outProcQ_tail h hl₁
  · exact outProcQ_inner h hl₂

/-- `outProcQ` on a process that is not in the queue changes nothing. -/
theorem outProcQ_not_mem (h : IsQueue st tp l) (hp : p ∉ l) :
    (outProcQ tp p).run st = some ((none, tp), st) := by
  cases tp with
  | none => rfl
  | some t =>
    obtain ⟨m, rfl, hnext, hch, htm⟩ := h.eq_concat
    have hpt : p ≠ t := fun e => hp (by simp [e])
    have hpm : p ∉ m := fun hm => hp (List.mem_append_left _ hm)
    have hlen : m.length < n := by
      have := h.length_le
      simp only [List.length_append, List.length_singleton] at this
      omega
    have hloop := outProcQLoop_not_mem hch htm hpm hlen
    rw [← hnext] at hloop
    simp only [outProcQ, hpt, if_false]
    simp [hloop]

/-- `removeProcQ` takes the oldest process. -/
theorem removeProcQ_cons (h : IsQueue st tp (x :: l)) :
    ∃ k, (removeProcQ tp).run st = some ((some x, l.getLast?), st.withLinks k) ∧
      IsRing k l ∧ st.queueLinks.EqOff k (x :: l) := by
  obtain ⟨t, rfl⟩ : ∃ t, tp = some t := by
    cases htp : tp with
    | none => cases h.eq_nil_iff.mp htp
    | some t => exact ⟨t, rfl⟩
  have hsplit : IsQueue st (some t) ([] ++ x :: l) := h
  obtain ⟨k, hrun, hring, heq⟩ := outProcQ_mem hsplit
  refine ⟨k, ?_, hring, heq⟩
  simp only [removeProcQ]
  simpa [h.next_tail] using hrun

/-- `removeProcQ` on an empty queue. -/
theorem removeProcQ_nil (h : IsQueue st tp []) :
    (removeProcQ tp).run st = some ((none, none), st) := by
  rw [h.eq_nil_iff.mpr rfl]
  rfl

/-! ## The PCB free list -/

/-- The store after a PCB has been washed. -/
def Store.clean (st : Store n) (p : Fin n) : Store n := { st with
  pNext := Function.update st.pNext p none
  pPrev := Function.update st.pPrev p none
  pPrnt := Function.update st.pPrnt p none
  pChild := Function.update st.pChild p none
  pNextSib := Function.update st.pNextSib p none
  pPrevSib := Function.update st.pPrevSib p none
  pTime := Function.update st.pTime p 0
  trap := Function.update st.trap p TrapAreas.none }

theorem washPcb_clean : (washPcb p).run st = some ((), st.clean p) := by
  simp [washPcb, setNext, setPrev, setPrnt, setChild, setNextSib, setPrevSib, Store.clean]

theorem Store.clean_eqOff (st : Store n) (p : Fin n) :
    st.queueLinks.EqOff (st.clean p).queueLinks [p] := fun x hx => by
  have hxp : x ≠ p := by simpa using hx
  exact ⟨Function.update_of_ne hxp _ _, Function.update_of_ne hxp _ _⟩

/-- A ring does not notice that a PCB outside it is washed. -/
theorem IsQueue.clean (h : IsQueue st tp l) (hp : p ∉ l) : IsQueue (st.clean p) tp l :=
  h.of_eqOff (st.clean_eqOff p) fun _ hx hxp => hp (List.mem_singleton.mp hxp ▸ hx)

/-- `freePcb` appends to the free list. -/
theorem freePcb_queue (h : IsQueue st st.pcbListH l) (hp : p ∉ l) :
    ∃ k, (freePcb p).run st = some ((), { (st.clean p).withLinks k with pcbListH := some p }) ∧
      IsRing k (l ++ [p]) ∧ st.queueLinks.EqOff k (l ++ [p]) := by
  obtain ⟨k, hrun, hring, heq⟩ := insertProcQ_run (h.clean hp) hp
  refine ⟨k, ?_, hring, fun x hx => ?_⟩
  · have htail : (st.clean p).pcbListH = st.pcbListH := rfl
    simp [freePcb, washPcb_clean, htail, hrun]
  · have hclean := st.clean_eqOff p x fun hxp => hx (List.mem_append_right _ hxp)
    exact ⟨(heq x hx).1.trans hclean.1, (heq x hx).2.trans hclean.2⟩

/-- `allocPcb` on an empty free list. -/
theorem allocPcb_none (h : IsQueue st st.pcbListH []) : allocPcb.run st = some (none, st) := by
  have hnone : st.pcbListH = none := h.eq_nil_iff.mpr rfl
  have hst : { st with pcbListH := none } = st := by rw [← hnone]
  simp [allocPcb, removeProcQ_nil h, hst]

/-- `allocPcb` takes the first PCB of the free list. -/
theorem allocPcb_some (h : IsQueue st st.pcbListH (p :: l)) :
    ∃ k, allocPcb.run st = some (some p,
        Store.clean { st.withLinks k with pcbListH := l.getLast? } p) ∧
      IsRing k l ∧ st.queueLinks.EqOff k (p :: l) := by
  obtain ⟨k, hrun, hring, heq⟩ := removeProcQ_cons h
  refine ⟨k, ?_, hring, heq⟩
  simp [allocPcb, hrun, washPcb_clean]

end Jaeos
