import Jaeos.AslRep
import Jaeos.ProcTree
import Jaeos.Nucleus
import Mathlib.Data.Fintype.Option

/-!
# The store as lists

`Lists` is the store without links: a FIFO queue for each place a PCB can wait
in, the forest of processes, and the semaphore addresses. `View` adds the fields
of the PCBs. `StoreOp.spec` says in these terms what each call of the nucleus
does and what it asks for, and `storeOp_sound` is the simulation: on a store that
represents the lists (`Rep`), each call does what its contract says.
-/

namespace Jaeos

open LinkedRing LinkedList Forest

variable {n : ℕ}

/-- Where a PCB can wait. -/
inductive Place where
  /-- the PCB free list -/
  | free
  /-- the ready queue -/
  | ready
  /-- the process queue of a semaphore -/
  | blocked (a : ℕ)
  deriving DecidableEq

/-- The queues and the process tree, without links. -/
structure Lists (n : ℕ) where
  /-- the queue of each place, oldest first -/
  q : Place → List (Fin n)
  /-- the parent of each process -/
  parent : Fin n → Option (Fin n)
  /-- the children of each process, youngest first -/
  kids : Fin n → List (Fin n)
  /-- `p_semAdd` -/
  semAdd : Fin n → ℕ

namespace Lists

variable (l : Lists n)

/-- Replace one queue. -/
def setQ (i : Place) (xs : List (Fin n)) : Lists n := { l with q := Function.update l.q i xs }

/-- Append to one queue. -/
def append (i : Place) (p : Fin n) : Lists n := l.setQ i (l.q i ++ [p])

/-- Set one `p_semAdd`. -/
def setSemAdd (p : Fin n) (a : ℕ) : Lists n := { l with semAdd := Function.update l.semAdd p a }

/-- Make `p` the youngest child of `r`. -/
def adopt (r p : Fin n) : Lists n :=
  { l with parent := Function.update l.parent p (some r), kids := pushKid l.kids r p }

/-- Take `p` out of the children of `r`. -/
def orphan (r p : Fin n) : Lists n :=
  { l with parent := Function.update l.parent p none, kids := eraseKid l.kids r p }

/-- The process is in no queue. -/
def Loose (p : Fin n) : Prop := ∀ i, p ∉ l.q i

/-- The process has neither parent nor children. -/
def Isolated (p : Fin n) : Prop := l.parent p = none ∧ l.kids p = []

end Lists

/-- Clear the time and the trap areas of a PCB. -/
def PcbData.wash (d : PcbData n) (p : Fin n) : PcbData n :=
  { d with pTime := Function.update d.pTime p 0, trap := Function.update d.trap p TrapAreas.none }

/-- The store without links. -/
structure View (n : ℕ) where
  /-- the fields of the PCBs -/
  data : PcbData n
  /-- the queues and the process tree -/
  lists : Lists n

/-- The contract of each call: what it asks of the lists, and what it does to them. -/
def StoreOp.spec : Prog.Contract (StoreOp n) (View n)
  | _, .data, Q, ⟨d, l⟩ => Q d ⟨d, l⟩
  | _, .modifyData f, Q, ⟨d, l⟩ => Q () ⟨f d, l⟩
  | _, .semAdd p, Q, ⟨d, l⟩ => Q (l.semAdd p) ⟨d, l⟩
  | _, .clearSemAdd p, Q, ⟨d, l⟩ => Q () ⟨d, l.setSemAdd p null⟩
  | _, .allocPcb, Q, ⟨d, l⟩ =>
    (l.q .free = [] → Q none ⟨d, l⟩) ∧
      ∀ p ps, l.q .free = p :: ps → l.Isolated p ∧ Q (some p) ⟨d.wash p, l.setQ .free ps⟩
  | _, .freePcb p, Q, ⟨d, l⟩ => l.Loose p ∧ l.Isolated p ∧ Q () ⟨d.wash p, l.append .free p⟩
  | _, .emptyChild p, Q, ⟨d, l⟩ => Q (l.kids p).isEmpty ⟨d, l⟩
  | _, .insertChild r p, Q, ⟨d, l⟩ => l.parent p = none ∧ Q () ⟨d, l.adopt r p⟩
  | _, .removeChild r, Q, ⟨d, l⟩ =>
    (l.kids r = [] → Q none ⟨d, l⟩) ∧ ∀ p ps, l.kids r = p :: ps → Q (some p) ⟨d, l.orphan r p⟩
  | _, .outChild p, Q, ⟨d, l⟩ =>
    (l.parent p = none → Q none ⟨d, l⟩) ∧ ∀ r, l.parent p = some r → Q (some p) ⟨d, l.orphan r p⟩
  | _, .insertReady p, Q, ⟨d, l⟩ => l.Loose p ∧ Q () ⟨d, l.append .ready p⟩
  | _, .removeReady, Q, ⟨d, l⟩ =>
    (l.q .ready = [] → Q none ⟨d, l⟩) ∧
      ∀ p ps, l.q .ready = p :: ps → Q (some p) ⟨d, l.setQ .ready ps⟩
  | _, .outReady p, Q, ⟨d, l⟩ =>
    (p ∉ l.q .ready → Q none ⟨d, l⟩) ∧
      (p ∈ l.q .ready → Q (some p) ⟨d, l.setQ .ready ((l.q .ready).erase p)⟩)
  | _, .insertBlocked a p, Q, ⟨d, l⟩ =>
    l.Loose p ∧ Q false ⟨d, (l.append (.blocked a) p).setSemAdd p a⟩
  | _, .removeBlocked a, Q, ⟨d, l⟩ =>
    (l.q (.blocked a) = [] → Q none ⟨d, l⟩) ∧
      ∀ p ps, l.q (.blocked a) = p :: ps → Q (some p) ⟨d, l.setQ (.blocked a) ps⟩
  | _, .outBlocked p, Q, ⟨d, l⟩ =>
    (p ∉ l.q (.blocked (l.semAdd p)) → Q none ⟨d, l⟩) ∧
      (p ∈ l.q (.blocked (l.semAdd p)) →
        Q (some p) ⟨d, l.setQ (.blocked (l.semAdd p)) ((l.q (.blocked (l.semAdd p))).erase p)⟩)

theorem StoreOp.spec_mono : Prog.Monotone (StoreOp.spec (n := n)) := by
  intro β o Q Q' v hQ h
  cases o <;> simp only [StoreOp.spec] at h ⊢ <;> grind

/-- The store represents the lists. -/
structure Rep (st : Store n) (d : PcbData n) (l : Lists n) : Prop where
  /-- the fields of the PCBs -/
  data : st.toPcbData = d
  /-- `p_semAdd` -/
  semAdd : st.pSemAdd = l.semAdd
  /-- the queues are rings -/
  rings : ∀ i, IsRing st.queueLinks (l.q i)
  /-- no PCB is in two queues -/
  disjoint : ∀ i j, ∀ p ∈ l.q i, p ∈ l.q j → i = j
  /-- the tail of the free list -/
  free : st.pcbListH = (l.q .free).getLast?
  /-- the tail of the ready queue -/
  ready : st.readyQueue = (l.q .ready).getLast?
  /-- the active semaphore list -/
  asl : AslRep st.toAslData fun a => l.q (.blocked a)
  /-- the process tree -/
  tree : TreeRep st l.parent l.kids

variable {st : Store n} {d : PcbData n} {l : Lists n} {p r : Fin n} {a : ℕ} {i : Place}
  {xs : List (Fin n)}

/-! ## Queues -/

namespace Rep

/-- The rings after a change of one queue. -/
theorem rings_setQ {k : Links (Fin n)} {m : List (Fin n)} (h : Rep st d l) (hk : IsRing k xs)
    (he : st.queueLinks.EqOff k m) (hm : ∀ x ∈ m, ∀ j, x ∈ l.q j → j = i) (j : Place) :
    IsRing k ((l.setQ i xs).q j) := by
  by_cases hj : j = i
  · simpa [Lists.setQ, hj] using hk
  · simp only [Lists.setQ, Function.update_of_ne hj]
    exact (h.rings j).of_eqOff he fun x hx hxm => hj (hm x hxm j hx)

/-- The queues stay disjoint when one of them takes in processes of no other queue. -/
theorem disjoint_setQ (h : Rep st d l) (hxs : ∀ x ∈ xs, ∀ j, x ∈ l.q j → j = i) (j₁ j₂ : Place) :
    ∀ x ∈ (l.setQ i xs).q j₁, x ∈ (l.setQ i xs).q j₂ → j₁ = j₂ := by
  intro x hx₁ hx₂
  by_cases hj₁ : j₁ = i <;> by_cases hj₂ : j₂ = i
  · exact hj₁.trans hj₂.symm
  · simp only [Lists.setQ, hj₁, Function.update_self, Function.update_of_ne hj₂] at hx₁ hx₂
    exact absurd (hxs x hx₁ j₂ hx₂) hj₂
  · simp only [Lists.setQ, hj₂, Function.update_self, Function.update_of_ne hj₁] at hx₁ hx₂
    exact absurd (hxs x hx₂ j₁ hx₁) hj₁
  · simp only [Lists.setQ, Function.update_of_ne hj₁, Function.update_of_ne hj₂] at hx₁ hx₂
    exact h.disjoint j₁ j₂ x hx₁ hx₂

theorem isQueue_free (h : Rep st d l) : IsQueue st st.pcbListH (l.q .free) := ⟨h.rings _, h.free⟩

theorem isQueue_ready (h : Rep st d l) : IsQueue st st.readyQueue (l.q .ready) :=
    ⟨h.rings _, h.ready⟩

/-- A reader of the store sees the free list. -/
theorem freeList_eq (h : Rep st d l) : st.freeList = l.q .free := h.isQueue_free.procQ_eq

/-- A reader of the store sees the ready queue. -/
theorem readyList_eq (h : Rep st d l) : st.readyList = l.q .ready := h.isQueue_ready.procQ_eq

/-- A reader of the store sees the queues of the semaphores. -/
theorem blockedOn_eq (h : Rep st d l) (a : ℕ) : st.blockedOn a = l.q (.blocked a) := by
  obtain ⟨hd, ds, fs, hs⟩ := h.asl
  exact hs.blockedOn_eq (h.rings _)

/-- A process of one queue is in no other. -/
theorem eq_of_mem (h : Rep st d l) (hx : r ∈ l.q i) (j : Place) (hj : r ∈ l.q j) : j = i :=
  h.disjoint j i r hj hx

end Rep

namespace Lists

theorem setQ_blocked_of_ne (hi : ∀ a, i ≠ .blocked a) :
    (fun a => (l.setQ i xs).q (.blocked a)) = fun a => l.q (.blocked a) := by
  funext a
  exact Function.update_of_ne (hi a).symm _ _

theorem setQ_blocked :
    (fun b => (l.setQ (.blocked a) xs).q (.blocked b)) =
      Function.update (fun b => l.q (.blocked b)) a xs := by
  funext b
  by_cases hb : b = a
  · simp [setQ, hb]
  · simp [setQ, hb]

end Lists

/-! ## The calls on the ready queue -/

theorem insertReady_run (h : Rep st d l) (hp : l.Loose p) :
    ∃ st', (StoreOp.sem _ (.insertReady p)).run st = some ((), st') ∧
        Rep st' d (l.append .ready p) := by
  obtain ⟨k, hrun, hring, heq⟩ := insertProcQ_run h.isQueue_ready (hp .ready)
  have hm : ∀ x ∈ l.q .ready ++ [p], ∀ j, x ∈ l.q j → j = .ready := by
    intro x hx j hj
    rcases List.mem_append.mp hx with hx | hx
    · exact h.eq_of_mem hx j hj
    · exact absurd (List.mem_singleton.mp hx ▸ hj) (hp j)
  refine ⟨{ st.withLinks k with readyQueue := some p }, ?_, h.data, h.semAdd,
    h.rings_setQ hring heq hm, h.disjoint_setQ hm, ?_, ?_, ?_,
    h.tree.congr rfl rfl rfl rfl⟩
  · simp [StoreOp.sem, hrun]
  · exact h.free
  · simp [Lists.append, Lists.setQ]
  · rw [Lists.append, Lists.setQ_blocked_of_ne (by simp)]
    exact h.asl

theorem removeReady_nil (h : Rep st d l) (hq : l.q .ready = []) :
    ∃ st', (StoreOp.sem _ .removeReady).run st = some (none, st') ∧ Rep st' d l := by
  have hqueue := h.isQueue_ready
  rw [hq] at hqueue
  refine ⟨{ st with readyQueue := none }, ?_, h.data, h.semAdd, h.rings, h.disjoint, h.free,
    by simp [hq], h.asl, h.tree.congr rfl rfl rfl rfl⟩
  simp [StoreOp.sem, removeProcQ_nil hqueue]

theorem removeReady_cons (h : Rep st d l) (hq : l.q .ready = p :: xs) :
    ∃ st', (StoreOp.sem _ .removeReady).run st = some (some p, st') ∧
        Rep st' d (l.setQ .ready xs) := by
  have hqueue := h.isQueue_ready
  rw [hq] at hqueue
  obtain ⟨k, hrun, hring, heq⟩ := removeProcQ_cons hqueue
  have hm : ∀ x ∈ p :: xs, ∀ j, x ∈ l.q j → j = .ready := fun x hx j hj =>
    h.eq_of_mem (hq ▸ hx) j hj
  refine ⟨{ st.withLinks k with readyQueue := xs.getLast? }, ?_, h.data, h.semAdd,
    h.rings_setQ hring heq hm, h.disjoint_setQ fun x hx => hm x (List.mem_cons_of_mem _ hx),
    h.free, ?_, ?_, h.tree.congr rfl rfl rfl rfl⟩
  · simp [StoreOp.sem, hrun]
  · simp [Lists.setQ]
  · rw [Lists.setQ_blocked_of_ne (by simp)]
    exact h.asl

theorem outReady_mem (h : Rep st d l) (hp : p ∈ l.q .ready) :
    ∃ st', (StoreOp.sem _ (.outReady p)).run st = some (some p, st') ∧
      Rep st' d (l.setQ .ready ((l.q .ready).erase p)) := by
  obtain ⟨l₁, l₂, -, hq, herase⟩ := List.exists_erase_eq hp
  have hqueue := h.isQueue_ready
  rw [hq] at hqueue
  obtain ⟨k, hrun, hring, heq⟩ := outProcQ_mem hqueue
  rw [← herase] at hrun hring
  rw [← hq] at heq
  have hm : ∀ x ∈ l.q .ready, ∀ j, x ∈ l.q j → j = .ready := fun x hx j hj => h.eq_of_mem hx j hj
  refine ⟨{ st.withLinks k with readyQueue := ((l.q .ready).erase p).getLast? }, ?_, h.data,
    h.semAdd, h.rings_setQ hring heq hm, h.disjoint_setQ fun x hx =>
      hm x (List.mem_of_mem_erase hx),
    h.free, ?_, ?_, h.tree.congr rfl rfl rfl rfl⟩
  · simp [StoreOp.sem, hrun]
  · simp [Lists.setQ]
  · rw [Lists.setQ_blocked_of_ne (by simp)]
    exact h.asl

theorem outReady_notMem (h : Rep st d l) (hp : p ∉ l.q .ready) :
    (StoreOp.sem _ (.outReady p)).run st = some (none, st) := by
  simp [StoreOp.sem, outProcQ_not_mem h.isQueue_ready hp]

/-! ## The calls on the active semaphore list -/

/-- The store after a step of the ASL. -/
theorem Rep.of_aslStep {k : Links (Fin n)} {asl : AslData n} {m : List (Fin n)} (h : Rep st d l)
    (hstep : AslStep st k asl (fun b => l.q (.blocked b)) a m xs)
    (hm : ∀ x ∈ m, ∀ j, x ∈ l.q j → j = .blocked a) (hxs : ∀ x ∈ xs, x ∈ m) :
    Rep ((st.withLinks k).withAsl asl) d (l.setQ (.blocked a) xs) := by
  refine ⟨h.data, h.semAdd, h.rings_setQ hstep.ring hstep.frame hm,
    h.disjoint_setQ fun x hx => hm x (hxs x hx), ?_, ?_, ?_, h.tree.congr rfl rfl rfl rfl⟩
  · exact h.free
  · exact h.ready
  · rw [Lists.setQ_blocked]
    exact hstep.rep

theorem removeBlocked_cons (h : Rep st d l) (hq : l.q (.blocked a) = p :: xs) :
    ∃ st', (StoreOp.sem _ (.removeBlocked a)).run st = some (some p, st') ∧
      Rep st' d (l.setQ (.blocked a) xs) := by
  obtain ⟨k, asl, hrun, hstep⟩ := removeBlocked_run h.asl (h.rings (.blocked a))
  simp only [hq, List.head?_cons, List.tail_cons] at hrun hstep
  exact ⟨_, hrun, h.of_aslStep hstep (fun x hx => h.eq_of_mem (hq ▸ hx))
    fun x hx => List.mem_cons_of_mem _ hx⟩

theorem outBlocked_run (h : Rep st d l) (hp : p ∈ l.q (.blocked (l.semAdd p))) :
    ∃ st', (StoreOp.sem _ (.outBlocked p)).run st = some (some p, st') ∧
      Rep st' d (l.setQ (.blocked (l.semAdd p)) ((l.q (.blocked (l.semAdd p))).erase p)) := by
  obtain ⟨l₁, l₂, -, hq, herase⟩ := List.exists_erase_eq hp
  obtain ⟨k, asl, hrun, hstep⟩ :=
    outBlocked_mem h.asl (h.rings _) (congrFun h.semAdd p) hq
  rw [← herase] at hstep
  exact ⟨_, hrun, h.of_aslStep hstep (fun x hx => h.eq_of_mem hx)
    fun x hx => List.mem_of_mem_erase hx⟩

/-- While a PCB is in no queue, a descriptor is free for a new address. -/
theorem exists_free_semd (hn : n ≤ maxProc) (h : Rep st d l) (hp : l.Loose p) {hd : SemdPtr}
    {ds fs : List SemdPtr} (hs : AslShape st.toAslData (fun b => l.q (.blocked b)) hd ds fs) :
    fs ≠ [] := by
  -- the oldest processes of the active nodes are distinct, and `p` is none of them
  obtain ⟨head, hhead⟩ : ∃ f : SemdPtr → Option (Fin n),
    f = fun d => (l.q (.blocked (st.sSemAdd d))).head? := ⟨_, rfl⟩
  have hmem : ∀ d ∈ ds, ∃ x, head d = some x ∧ x ∈ l.q (.blocked (st.sSemAdd d)) := by
    intro d hd
    obtain ⟨x, xs, hq⟩ := List.exists_cons_of_ne_nil (hs.nonempty d hd)
    exact ⟨x, by simp [hhead, hq], by rw [hq]; simp⟩
  have hinj : ∀ d ∈ ds, ∀ e ∈ ds, head d = head e → d = e := by
    intro d hd e he heq
    obtain ⟨x, hx, hxq⟩ := hmem d hd
    obtain ⟨y, hy, hyq⟩ := hmem e he
    obtain rfl : x = y := Option.some.inj (hx.symm.trans (heq.trans hy))
    exact hs.semAdd_inj hd he (Place.blocked.inj (h.disjoint _ _ x hxq hyq))
  have hds : ds.Nodup := (List.nodup_cons.mp (List.nodup_append.mp hs.nodup).1).2
  have hnd : (none :: some p :: ds.map head).Nodup := by
    refine List.nodup_cons.mpr ⟨?_, List.nodup_cons.mpr ⟨?_, hds.map_on hinj⟩⟩
    · intro hm
      obtain ⟨d, hd, hdn⟩ := List.mem_map.mp ((List.mem_cons.mp hm).resolve_left (by simp))
      obtain ⟨x, hx, -⟩ := hmem d hd
      rw [hx] at hdn
      cases hdn
    · intro hm
      obtain ⟨d, hd, hdp⟩ := List.mem_map.mp hm
      obtain ⟨x, hx, hxq⟩ := hmem d hd
      obtain rfl : x = p := Option.some.inj (hx.symm.trans hdp)
      exact hp _ hxq
  have hlen := hnd.length_le_card
  simp only [List.length_cons, List.length_map, Fintype.card_option, Fintype.card_fin] at hlen
  have htotal := hs.length_add_length
  rintro rfl
  simp only [List.length_nil] at htotal
  omega

theorem insertBlocked_rep (hn : n ≤ maxProc) (h : Rep st d l) (hp : l.Loose p) :
    ∃ st', (StoreOp.sem _ (.insertBlocked a p)).run st = some (false, st') ∧
      Rep st' d ((l.append (.blocked a) p).setSemAdd p a) := by
  obtain ⟨hd, ds, fs, hs⟩ := h.asl
  obtain ⟨k, asl, hrun, hstep⟩ := insertBlocked_run hs (h.rings (.blocked a)) (hp (.blocked a))
    fun _ => exists_free_semd hn h hp hs
  have hm : ∀ x ∈ l.q (.blocked a) ++ [p], ∀ j, x ∈ l.q j → j = .blocked a := by
    intro x hx j hj
    rcases List.mem_append.mp hx with hx | hx
    · exact h.eq_of_mem hx j hj
    · exact absurd (List.mem_singleton.mp hx ▸ hj) (hp j)
  have hrep := h.of_aslStep hstep hm fun x hx => hx
  refine ⟨_, hrun, hrep.data, ?_, hrep.rings, hrep.disjoint, hrep.free, hrep.ready, hrep.asl,
    hrep.tree.congr rfl rfl rfl rfl⟩
  simp [Store.withSemAdd, Store.withAsl, Store.withLinks, Lists.setSemAdd, Lists.append,
    Lists.setQ, h.semAdd]

/-! ## The calls on the free list -/

/-- The store with an isolated process washed. -/
def Store.washed (st : Store n) (p : Fin n) : Store n := { st with
  pNext := Function.update st.pNext p none
  pPrev := Function.update st.pPrev p none
  pTime := Function.update st.pTime p 0
  trap := Function.update st.trap p TrapAreas.none }

/-- Washing an isolated process changes nothing but its queue links, time and areas. -/
theorem washPcb_run (h : TreeRep st l.parent l.kids) (hp : l.Isolated p) :
    (washPcb p).run st = some ((), st.washed p) := by
  have hprnt : Function.update st.pPrnt p none = st.pPrnt := by
    rw [Function.update_eq_self_iff, h.prnt, hp.1]
  have hchild : Function.update st.pChild p none = st.pChild := by
    rw [Function.update_eq_self_iff, h.child, hp.2]
    rfl
  have hsib := h.root p hp.1
  have hnext : Function.update st.pNextSib p none = st.pNextSib := by
    rw [Function.update_eq_self_iff, hsib.2]
  have hprev : Function.update st.pPrevSib p none = st.pPrevSib := by
    rw [Function.update_eq_self_iff, hsib.1]
  rw [washPcb_clean]
  simp [Store.clean, Store.washed, hprnt, hchild, hnext, hprev]

/-- Washing a process that is in no queue leaves the queues as they are. -/
theorem Rep.wash (h : Rep st d l) (hp : l.Loose p) : Rep (st.washed p) (d.wash p) l := by
  refine ⟨?_, h.semAdd, ?_, h.disjoint, h.free, h.ready, h.asl, h.tree.congr rfl rfl rfl rfl⟩
  · have hd := h.data
    simp only [PcbData.wash, Store.washed, ← hd]
  · intro i
    refine (h.rings i).congr ?_ ?_ <;>
    · intro x hx
      have hxp : x ≠ p := fun e => hp i (e ▸ hx)
      exact Function.update_of_ne hxp _ _

theorem freePcb_run (h : Rep st d l) (hp : l.Loose p) (hiso : l.Isolated p) :
    ∃ st', (StoreOp.sem _ (.freePcb p)).run st = some ((), st') ∧
      Rep st' (d.wash p) (l.append .free p) := by
  have hw := h.wash hp
  obtain ⟨k, hrun, hring, heq⟩ := insertProcQ_run hw.isQueue_free (hp .free)
  have hm : ∀ x ∈ l.q .free ++ [p], ∀ j, x ∈ l.q j → j = .free := by
    intro x hx j hj
    rcases List.mem_append.mp hx with hx | hx
    · exact h.eq_of_mem hx j hj
    · exact absurd (List.mem_singleton.mp hx ▸ hj) (hp j)
  refine ⟨{ (st.washed p).withLinks k with pcbListH := some p }, ?_, hw.data, hw.semAdd,
    hw.rings_setQ hring heq hm, hw.disjoint_setQ hm, ?_, ?_, ?_, hw.tree.congr rfl rfl rfl rfl⟩
  · simp [StoreOp.sem, freePcb, washPcb_run h.tree hiso, hrun]
  · simp [Lists.append, Lists.setQ]
  · exact hw.ready
  · rw [Lists.append, Lists.setQ_blocked_of_ne (by simp)]
    exact hw.asl

theorem allocPcb_nil (h : Rep st d l) (hq : l.q .free = []) :
    ∃ st', (StoreOp.sem _ .allocPcb).run st = some (none, st') ∧ Rep st' d l := by
  have hqueue := h.isQueue_free
  rw [hq] at hqueue
  refine ⟨{ st with pcbListH := none }, ?_, h.data, h.semAdd, h.rings, h.disjoint, by simp [hq],
    h.ready, h.asl, h.tree.congr rfl rfl rfl rfl⟩
  simp [StoreOp.sem, allocPcb, removeProcQ_nil hqueue]

theorem allocPcb_cons (h : Rep st d l) (hq : l.q .free = p :: xs) (hiso : l.Isolated p) :
    ∃ st', (StoreOp.sem _ .allocPcb).run st = some (some p, st') ∧
      Rep st' (d.wash p) (l.setQ .free xs) := by
  have hqueue := h.isQueue_free
  rw [hq] at hqueue
  obtain ⟨k, hrun, hring, heq⟩ := removeProcQ_cons hqueue
  have hm : ∀ x ∈ p :: xs, ∀ j, x ∈ l.q j → j = .free := fun x hx j hj =>
    h.eq_of_mem (hq ▸ hx) j hj
  have hrep : Rep { st.withLinks k with pcbListH := xs.getLast? } d (l.setQ .free xs) := by
    refine ⟨h.data, h.semAdd, h.rings_setQ hring heq hm,
      h.disjoint_setQ fun x hx => hm x (List.mem_cons_of_mem _ hx), ?_, h.ready, ?_,
      h.tree.congr rfl rfl rfl rfl⟩
    · simp [Lists.setQ]
    · rw [Lists.setQ_blocked_of_ne (by simp)]
      exact h.asl
  have hloose : (l.setQ .free xs).Loose p := by
    intro j hj
    by_cases hjf : j = .free
    · have hnd := hqueue.nodup
      simp only [Lists.setQ, hjf, Function.update_self] at hj
      exact (List.nodup_cons.mp hnd).1 hj
    · simp only [Lists.setQ, Function.update_of_ne hjf] at hj
      exact hjf (hm p (by simp) j hj)
  have hw : (washPcb p).run { st.withLinks k with pcbListH := xs.getLast? } = _ :=
    washPcb_run (l := l.setQ .free xs) hrep.tree hiso
  refine ⟨_, ?_, hrep.wash hloose⟩
  simp [StoreOp.sem, allocPcb, hrun, hw]

/-! ## The calls on the process tree -/

/-- The store after a change of the tree links. -/
theorem Rep.withTree (h : Rep st d l) {t : TreeLinks n} {parent : Fin n → Option (Fin n)}
    {kids : Fin n → List (Fin n)} (ht : TreeRep (st.withTree t) parent kids) :
    Rep (st.withTree t) d { l with parent := parent, kids := kids } :=
  ⟨h.data, h.semAdd, h.rings, h.disjoint, h.free, h.ready, h.asl, ht⟩

/-! ## Every call meets its contract -/

/-- The simulation: on a store that represents the lists, each call does what its contract
says. -/
theorem storeOp_sound (hn : n ≤ maxProc) {β : Type} (o : StoreOp n β) {Q : β → View n → Prop}
    (h : Rep st d l) (hspec : StoreOp.spec _ o Q ⟨d, l⟩) :
    ∃ b st' v, (StoreOp.sem _ o).run st = some (b, st') ∧ Rep st' v.data v.lists ∧ Q b v := by
  cases o with
  | data => exact ⟨_, st, ⟨d, l⟩, rfl, h, h.data ▸ hspec⟩
  | modifyData f =>
    refine ⟨(), _, ⟨f d, l⟩, rfl, ⟨?_, h.semAdd, h.rings, h.disjoint, h.free, h.ready, h.asl,
      h.tree.congr rfl rfl rfl rfl⟩, hspec⟩
    exact congrArg f h.data
  | semAdd p => exact ⟨_, st, ⟨d, l⟩, rfl, h, congrFun h.semAdd p ▸ hspec⟩
  | clearSemAdd p =>
    refine ⟨(), _, ⟨d, l.setSemAdd p null⟩, rfl, ⟨h.data, ?_, h.rings, h.disjoint, h.free, h.ready,
      h.asl, h.tree.congr rfl rfl rfl rfl⟩, hspec⟩
    simp [Lists.setSemAdd, h.semAdd]
  | allocPcb =>
    cases hq : l.q .free with
    | nil =>
      obtain ⟨st', hrun, hrep⟩ := allocPcb_nil h hq
      exact ⟨none, st', _, hrun, hrep, hspec.1 hq⟩
    | cons p ps =>
      obtain ⟨hiso, hQ⟩ := hspec.2 p ps hq
      obtain ⟨st', hrun, hrep⟩ := allocPcb_cons h hq hiso
      exact ⟨some p, st', _, hrun, hrep, hQ⟩
  | freePcb p =>
    obtain ⟨hp, hiso, hQ⟩ := hspec
    obtain ⟨st', hrun, hrep⟩ := freePcb_run h hp hiso
    exact ⟨(), st', _, hrun, hrep, hQ⟩
  | emptyChild p => exact ⟨_, st, _, emptyChild_run h.tree, h, hspec⟩
  | insertChild r p =>
    obtain ⟨t, hrun, ht⟩ := insertChild_run h.tree hspec.1
    exact ⟨(), _, _, hrun, h.withTree ht, hspec.2⟩
  | removeChild r =>
    cases hk : l.kids r with
    | nil => exact ⟨none, st, _, removeChild_nil h.tree hk, h, hspec.1 hk⟩
    | cons p ps =>
      obtain ⟨t, hrun, ht⟩ := removeChild_cons h.tree hk
      exact ⟨some p, _, _, hrun, h.withTree ht, hspec.2 p ps hk⟩
  | outChild p =>
    cases hp : l.parent p with
    | none => exact ⟨none, st, _, outChild_root h.tree hp, h, hspec.1 hp⟩
    | some r =>
      obtain ⟨t, hrun, ht⟩ := outChild_child h.tree hp
      exact ⟨some p, _, _, hrun, h.withTree ht, hspec.2 r hp⟩
  | insertReady p =>
    obtain ⟨st', hrun, hrep⟩ := insertReady_run h hspec.1
    exact ⟨(), st', _, hrun, hrep, hspec.2⟩
  | removeReady =>
    cases hq : l.q .ready with
    | nil =>
      obtain ⟨st', hrun, hrep⟩ := removeReady_nil h hq
      exact ⟨none, st', _, hrun, hrep, hspec.1 hq⟩
    | cons p ps =>
      obtain ⟨st', hrun, hrep⟩ := removeReady_cons h hq
      exact ⟨some p, st', _, hrun, hrep, hspec.2 p ps hq⟩
  | outReady p =>
    by_cases hp : p ∈ l.q .ready
    · obtain ⟨st', hrun, hrep⟩ := outReady_mem h hp
      exact ⟨some p, st', _, hrun, hrep, hspec.2 hp⟩
    · exact ⟨none, st, _, outReady_notMem h hp, h, hspec.1 hp⟩
  | insertBlocked a p =>
    obtain ⟨st', hrun, hrep⟩ := insertBlocked_rep hn h hspec.1
    exact ⟨false, st', _, hrun, hrep, hspec.2⟩
  | removeBlocked a =>
    cases hq : l.q (.blocked a) with
    | nil => exact ⟨none, st, _, removeBlocked_nil h.asl hq, h, hspec.1 hq⟩
    | cons p ps =>
      obtain ⟨st', hrun, hrep⟩ := removeBlocked_cons h hq
      exact ⟨some p, st', _, hrun, hrep, hspec.2 p ps hq⟩
  | outBlocked p =>
    by_cases hp : p ∈ l.q (.blocked (l.semAdd p))
    · obtain ⟨st', hrun, hrep⟩ := outBlocked_run h hp
      exact ⟨some p, st', _, hrun, hrep, hspec.2 hp⟩
    · have hsem : st.pSemAdd p = l.semAdd p := congrFun h.semAdd p
      refine ⟨none, st, _, outBlocked_notMem h.asl (h.rings _) ?_, h, hspec.1 hp⟩
      rw [hsem]
      exact hp

end Jaeos
