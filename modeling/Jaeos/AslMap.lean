import Jaeos.AslRep
import Mathlib.Data.Finset.Basic

/-!
# The active semaphore list refines a finite map

`SemMap` says what the ASL is for: a finite map from semaphore addresses to
non-empty FIFO queues, with the address each process was last blocked on. It
is stated without descriptors or links. `AslRun` relates a store to the map
after any sequence of calls from `initASL`, and `asl_refines_map` is the
refinement.
-/

namespace Jaeos

open LinkedRing

variable {n : ℕ}

/-- A finite map from semaphore addresses to non-empty queues of processes. -/
structure SemMap (n : ℕ) where
  /-- the queue of an address, oldest first; empty off `keys` -/
  queue : ℕ → List (Fin n)
  /-- the addresses in the map -/
  keys : Finset ℕ
  /-- the address each process was last blocked on -/
  semAdd : Fin n → ℕ
  /-- exactly the addresses in the map have a queue -/
  mem_keys : ∀ a, a ∈ keys ↔ queue a ≠ []
  /-- a process is in the queue of its own address only -/
  semAdd_eq : ∀ a, ∀ p ∈ queue a, semAdd p = a

/-- A call of the ASL. -/
inductive AslCall (n : ℕ) where
  /-- `insertBlocked(a, p)` -/
  | insertBlocked (a : ℕ) (p : Fin n)
  /-- `removeBlocked(a)` -/
  | removeBlocked (a : ℕ)
  /-- `outBlocked(p)` -/
  | outBlocked (p : Fin n)
  /-- `headBlocked(a)` -/
  | headBlocked (a : ℕ)

/-- What a call returns: `TRUE` or `FALSE`, or a PCB. -/
inductive AslResult (n : ℕ) where
  /-- the result of `insertBlocked` -/
  | bool (b : Bool)
  /-- the result of the other calls -/
  | pcb (p : Option (Fin n))

/-- The call, made by the code. -/
def AslCall.exec : AslCall n → StoreM n (AslResult n)
  | .insertBlocked a p => .bool <$> Jaeos.insertBlocked a p
  | .removeBlocked a => .pcb <$> Jaeos.removeBlocked a
  | .outBlocked p => .pcb <$> Jaeos.outBlocked p
  | .headBlocked a => .pcb <$> Jaeos.headBlocked a

namespace SemMap

/-- The empty map. -/
def empty (semAdd : Fin n → ℕ) : SemMap n := ⟨fun _ => [], ∅, semAdd, by simp, by simp⟩

/-- Replace the queue of `a`; an empty one takes `a` out of the map. -/
def set (m : SemMap n) (a : ℕ) (l : List (Fin n)) (hl : ∀ p ∈ l, m.semAdd p = a) : SemMap n where
  queue := Function.update m.queue a l
  keys := if l = [] then m.keys.erase a else insert a m.keys
  semAdd := m.semAdd
  mem_keys b := by
    by_cases hb : b = a
    · subst hb
      split <;> simp_all
    · rw [Function.update_of_ne hb, ← m.mem_keys b]
      split <;> simp [hb]
  semAdd_eq b p hp := by
    by_cases hb : b = a
    · subst hb
      exact hl p (by simpa using hp)
    · rw [Function.update_of_ne hb] at hp
      exact m.semAdd_eq b p hp

/-- Set the address of a process that is in no queue. -/
def block (m : SemMap n) (p : Fin n) (a : ℕ) (hp : ∀ b, p ∉ m.queue b) : SemMap n where
  queue := m.queue
  keys := m.keys
  semAdd := Function.update m.semAdd p a
  mem_keys := m.mem_keys
  semAdd_eq b q hq := by
    have hqp : q ≠ p := fun e => hp b (e ▸ hq)
    rw [Function.update_of_ne hqp]
    exact m.semAdd_eq b q hq

/-- A process passed to `insertBlocked` is in no queue. -/
def Legal (m : SemMap n) : AslCall n → Prop
  | .insertBlocked _ p => ∀ b, p ∉ m.queue b
  | _ => True

/-- A new address finds every descriptor in use. -/
def Full (m : SemMap n) (a : ℕ) : Prop := a ∉ m.keys ∧ m.keys.card = maxProc

instance (m : SemMap n) (a : ℕ) : Decidable (m.Full a) := inferInstanceAs (Decidable (_ ∧ _))

/-- What a call returns. -/
def result (m : SemMap n) : AslCall n → AslResult n
  | .insertBlocked a _ => .bool (decide (m.Full a))
  | .removeBlocked a => .pcb (m.queue a).head?
  | .outBlocked p => .pcb (if p ∈ m.queue (m.semAdd p) then some p else none)
  | .headBlocked a => .pcb (m.queue a).head?

/-- What a call does to the map. -/
def next (m : SemMap n) : (c : AslCall n) → m.Legal c → SemMap n
  | .insertBlocked a p, hp =>
    if m.Full a then m else (m.block p a hp).set a (m.queue a ++ [p]) (by
      intro q hq
      rcases List.mem_append.mp hq with hq | hq
      · exact (m.block p a hp).semAdd_eq a q hq
      · simp [block, List.mem_singleton.mp hq])
  | .removeBlocked a, _ =>
    m.set a (m.queue a).tail fun q hq => m.semAdd_eq a q (List.mem_of_mem_tail hq)
  | .outBlocked p, _ =>
    m.set (m.semAdd p) ((m.queue (m.semAdd p)).erase p) fun q hq =>
      m.semAdd_eq _ q (List.mem_of_mem_erase hq)
  | .headBlocked _, _ => m

/-- The calls that only look, and those that find nothing to do. -/
def Idle (m : SemMap n) (c : AslCall n) : Prop :=
  match c with
  | .headBlocked _ => True
  | c => m.result c = .bool true ∨ m.result c = .pcb none

end SemMap

/-! ## The representation -/

/-- The store holds the map. -/
structure SemMap.Rep (st : Store n) (m : SemMap n) : Prop where
  /-- the descriptors hold the queues -/
  asl : AslRep st.toAslData m.queue
  /-- the queues are rings -/
  rings : ∀ a, IsRing st.queueLinks (m.queue a)
  /-- the addresses are the PCBs' own -/
  semAdd : st.pSemAdd = m.semAdd

/-- The descriptors and the PCBs, as a reader of the store sees them. -/
structure Store.AslWellFormed (st : Store n) : Prop where
  /-- each descriptor is the dummy, active or free, and only one of them -/
  places : ∃ h, st.activeSemdListH = some h ∧
    (h :: st.activeSemds ++ st.freeSemds).Perm (List.finRange (maxProc + 1))
  /-- the active list is strictly increasing -/
  sorted : st.activeSemds.Pairwise fun d e => st.sSemAdd d < st.sSemAdd e
  /-- each active node has a non-empty queue -/
  nonempty : ∀ d ∈ st.activeSemds, st.procQ (st.sProcQ d) ≠ []
  /-- whose members all have its address -/
  semAdd : ∀ d ∈ st.activeSemds, ∀ p ∈ st.procQ (st.sProcQ d), st.pSemAdd p = st.sSemAdd d

/-- The reader of the store sees the map. -/
structure SemMap.Seen (st : Store n) (m : SemMap n) : Prop extends Store.AslWellFormed st where
  /-- the queues are the map's -/
  blockedOn : ∀ a, st.blockedOn a = m.queue a
  /-- and so are the addresses -/
  pSemAdd : st.pSemAdd = m.semAdd

variable {st st' : Store n} {m : SemMap n} {a : ℕ} {p : Fin n}

/-- The map has as many addresses as there are active nodes. -/
theorem AslShape.card_keys {h : SemdPtr} {ds fs : List SemdPtr}
    (hs : AslShape st.toAslData m.queue h ds fs) : m.keys.card = ds.length := by
  have hkeys : m.keys = (ds.map st.sSemAdd).toFinset := by
    ext a
    rw [m.mem_keys, List.mem_toFinset, List.mem_map]
    constructor
    · exact hs.complete a
    · rintro ⟨d, hd, rfl⟩
      exact hs.nonempty d hd
  have hnd : (ds.map st.sSemAdd).Nodup :=
    (List.pairwise_map.mpr hs.sorted).imp fun hlt => Nat.ne_of_lt hlt
  rw [hkeys, List.toFinset_card_of_nodup hnd, List.length_map]

namespace SemMap

/-- What the store holds is what its reader sees. -/
theorem Rep.seen (hm : Rep st m) : Seen st m := by
  obtain ⟨h, ds, fs, hs⟩ := hm.asl
  have hproc : ∀ d ∈ st.activeSemds, st.procQ (st.sProcQ d) = m.queue (st.sSemAdd d) := by
    intro d hd
    rw [hs.activeSemds_eq] at hd
    exact IsQueue.procQ_eq ⟨hm.rings _, hs.tails d hd⟩
  refine ⟨⟨⟨h, hs.dummy, ?_⟩, ?_, ?_, ?_⟩, ?_, hm.semAdd⟩
  · rw [hs.activeSemds_eq, hs.freeSemds_eq]
    exact hs.perm
  · rw [hs.activeSemds_eq]
    exact hs.sorted
  · intro d hd
    rw [hproc d hd]
    exact hs.nonempty d (hs.activeSemds_eq ▸ hd)
  · intro d hd p hp
    rw [hproc d hd] at hp
    rw [hm.semAdd]
    exact m.semAdd_eq _ p hp
  · exact fun a => hs.blockedOn_eq (hm.rings a)

/-- The rings after a step on the queue of `a`. -/
theorem Rep.rings_of_step {k : Links (Fin n)} {asl : AslData n} {l l' : List (Fin n)}
    (hm : Rep st m) (hstep : AslStep st k asl m.queue a l l')
    (hl : ∀ x ∈ l, ∀ b, x ∈ m.queue b → b = a) (b : ℕ) :
    IsRing k (Function.update m.queue a l' b) := by
  by_cases hb : b = a
  · subst hb
    rw [Function.update_self]
    exact hstep.ring
  · rw [Function.update_of_ne hb]
    exact (hm.rings b).of_eqOff hstep.frame fun x hx hxl => hb (hl x hxl b hx)

theorem mem_unique (m : SemMap n) {b : ℕ} (hp : p ∈ m.queue a) : p ∈ m.queue b → b = a :=
  fun hb => (m.semAdd_eq b p hb).symm.trans (m.semAdd_eq a p hp)

theorem full_iff {h : SemdPtr} {ds fs : List SemdPtr}
    (hs : AslShape st.toAslData m.queue h ds fs) : m.Full a ↔ m.queue a = [] ∧ fs = [] := by
  have hlen := hs.length_add_length
  have hkey : a ∉ m.keys ↔ m.queue a = [] := by
    rw [m.mem_keys, not_not]
  rw [Full, hkey, hs.card_keys, ← List.length_eq_zero_iff (l := fs)]
  constructor <;> rintro ⟨h₁, h₂⟩ <;> exact ⟨h₁, by omega⟩

/-- One call: it returns what the map says and does what the map does, and where there is
nothing to do it leaves the store as it is. -/
theorem Rep.exec (hm : Rep st m) (c : AslCall n) (hc : m.Legal c) :
    ∃ st', c.exec.run st = some (m.result c, st') ∧ Rep st' (m.next c hc) ∧
      (m.Idle c → st' = st) := by
  cases c with
  | insertBlocked a p =>
    obtain ⟨h, ds, fs, hs⟩ := hm.asl
    by_cases hfull : m.Full a
    · obtain ⟨hQ, rfl⟩ := (full_iff hs).mp hfull
      refine ⟨st, ?_, ?_, fun _ => rfl⟩
      · simp [AslCall.exec, insertBlocked_full hs hQ, result, hfull]
      · simpa [next, hfull] using hm
    · have hcap : m.queue a = [] → fs ≠ [] := fun hQ hfs => hfull ((full_iff hs).mpr ⟨hQ, hfs⟩)
      obtain ⟨k, asl, hrun, hstep⟩ := insertBlocked_run hs (hm.rings a) (hc a) hcap
      refine ⟨((st.withLinks k).withAsl asl).withSemAdd p a, ?_, ?_, ?_⟩
      · simp [AslCall.exec, hrun, result, hfull]
      · have hl : ∀ x ∈ m.queue a ++ [p], ∀ b, x ∈ m.queue b → b = a := by
          intro x hx b hb
          rcases List.mem_append.mp hx with hx | hx
          · exact m.mem_unique hx hb
          · exact absurd (List.mem_singleton.mp hx ▸ hb) (hc b)
        simp only [next, hfull, if_false]
        exact ⟨hstep.rep, hm.rings_of_step hstep hl, by simp [Store.withSemAdd, set, block,
          Store.withAsl, Store.withLinks, hm.semAdd]⟩
      · simp [Idle, result, hfull]
  | removeBlocked a =>
    by_cases hQ : m.queue a = []
    · refine ⟨st, ?_, ?_, fun _ => rfl⟩
      · simp [AslCall.exec, removeBlocked_nil hm.asl hQ, result, hQ]
      · refine ⟨?_, fun b => ?_, hm.semAdd⟩ <;> simp only [next, set, hQ, List.tail_nil]
        · rw [← hQ, Function.update_eq_self]
          exact hm.asl
        · rw [← hQ, Function.update_eq_self]
          exact hm.rings b
    · obtain ⟨k, asl, hrun, hstep⟩ := removeBlocked_run hm.asl (hm.rings a)
      refine ⟨(st.withLinks k).withAsl asl, ?_, ?_, ?_⟩
      · simp [AslCall.exec, hrun, result]
      · exact ⟨hstep.rep, hm.rings_of_step hstep fun x hx b hb => m.mem_unique hx hb, hm.semAdd⟩
      · simp [Idle, result, hQ]
  | outBlocked p =>
    have hsem : st.pSemAdd p = m.semAdd p := congrFun hm.semAdd p
    by_cases hp : p ∈ m.queue (m.semAdd p)
    · obtain ⟨l₁, l₂, hl₁, hQ, herase⟩ := List.exists_erase_eq hp
      obtain ⟨k, asl, hrun, hstep⟩ := outBlocked_mem hm.asl (hm.rings _) hsem hQ
      refine ⟨(st.withLinks k).withAsl asl, ?_, ?_, ?_⟩
      · simp [AslCall.exec, hrun, result, hp]
      · rw [← herase] at hstep
        exact ⟨hstep.rep, hm.rings_of_step hstep fun x hx b hb => m.mem_unique hx hb, hm.semAdd⟩
      · simp [Idle, result, hp]
    · refine ⟨st, ?_, ?_, fun _ => rfl⟩
      · simp [AslCall.exec, outBlocked_notMem hm.asl (hm.rings _) (hsem ▸ hp), result, hp]
      · refine ⟨?_, fun b => ?_, hm.semAdd⟩ <;>
          simp only [next, set, List.erase_of_not_mem hp, Function.update_eq_self]
        · exact hm.asl
        · exact hm.rings b
  | headBlocked a =>
    refine ⟨st, ?_, hm, fun _ => rfl⟩
    simp [AslCall.exec, headBlocked_run hm.asl (hm.rings a), result]

/-! ## Runs from `initASL` -/

/-- The stores and maps that a sequence of calls reaches from `initASL`. -/
inductive AslRun : Store n → SemMap n → Prop
  /-- `initASL`, from any store -/
  | init {st₀ st : Store n} (h : initASL.run st₀ = some ((), st)) : AslRun st (empty st₀.pSemAdd)
  /-- one more call -/
  | call {st st' : Store n} {m : SemMap n} {r : AslResult n} (c : AslCall n) (hc : m.Legal c)
      (h : c.exec.run st = some (r, st')) (hrun : AslRun st m) : AslRun st' (m.next c hc)

theorem AslRun.rep (hrun : AslRun st m) : Rep st m := by
  induction hrun with
  | @init st₀ st h =>
    obtain ⟨asl, hinit, hrep⟩ := initASL_run st₀
    rw [h] at hinit
    obtain ⟨-, rfl⟩ := Prod.mk.inj (Option.some.inj hinit)
    exact ⟨hrep, fun _ => IsRing.nil, rfl⟩
  | call c hc h hrun ih =>
    obtain ⟨st₁, hexec, hrep, -⟩ := ih.exec c hc
    rw [h] at hexec
    obtain ⟨-, rfl⟩ := Prod.mk.inj (Option.some.inj hexec)
    exact hrep

/-- A process that is not on the queue of its address is on none. -/
theorem AslRun.notMem (hrun : AslRun st m) (hp : p ∉ st.blockedOn (st.pSemAdd p)) (b : ℕ) :
    p ∉ st.blockedOn b := by
  intro hb
  have hmem : p ∈ m.queue b := hrun.rep.seen.blockedOn b ▸ hb
  have haddr : st.pSemAdd p = b := (congrFun hrun.rep.semAdd p).trans (m.semAdd_eq b p hmem)
  exact hp (haddr ▸ hb)

end SemMap

/-- The ASL refines the map: after any sequence of calls the reader of the store sees the
map, and each further call returns the map's result and has the map's effect. -/
theorem asl_refines_map (hrun : SemMap.AslRun st m) :
    SemMap.Seen st m ∧ ∀ c (hc : m.Legal c), ∃ st', c.exec.run st = some (m.result c, st') ∧
      SemMap.Seen st' (m.next c hc) ∧ (m.Idle c → st' = st) := by
  refine ⟨hrun.rep.seen, fun c hc => ?_⟩
  obtain ⟨st', hexec, hrep, hidle⟩ := hrun.rep.exec c hc
  exact ⟨st', hexec, hrep.seen, hidle⟩

/-- Make the calls, each process of an `insertBlocked` being on no queue. -/
def Store.callAll (st : Store n) : List (AslCall n) → Option (Store n)
  | [] => some st
  | .insertBlocked a p :: cs =>
    if p ∈ st.blockedOn (st.pSemAdd p) then none
    else ((AslCall.insertBlocked a p).exec.run st).bind fun r => r.2.callAll cs
  | c :: cs => (c.exec.run st).bind fun r => r.2.callAll cs

/-- Making calls is a run. -/
theorem SemMap.AslRun.callAll {cs : List (AslCall n)} (hrun : SemMap.AslRun st m)
    (hcalls : st.callAll cs = some st') : ∃ m', SemMap.AslRun st' m' := by
  induction cs generalizing st m with
  | nil =>
    obtain rfl := Option.some.inj hcalls
    exact ⟨m, hrun⟩
  | cons c cs ih =>
    have hstep : ∀ hc : m.Legal c, ((c.exec.run st).bind fun r => r.2.callAll cs) = some st' →
        ∃ m', SemMap.AslRun st' m' := by
      intro hc hbind
      obtain ⟨⟨r, st₁⟩, hexec, hrest⟩ := Option.bind_eq_some_iff.mp hbind
      exact ih (.call c hc hexec hrun) hrest
    cases c with
    | insertBlocked a p =>
      rw [Store.callAll] at hcalls
      split at hcalls
      · cases hcalls
      · rename_i hp
        exact hstep (fun b => hrun.rep.seen.blockedOn b ▸ hrun.notMem hp b) hcalls
    | removeBlocked a => exact hstep trivial hcalls
    | outBlocked p => exact hstep trivial hcalls
    | headBlocked a => exact hstep trivial hcalls

/-- Three processes are blocked on two addresses, the first of them is woken and blocked on the
other address. -/
theorem asl_refines_map_insert : ∃ (st st' : Store 4) (m : SemMap 4), SemMap.AslRun st m ∧
    st.blockedOn 8 = [1] ∧ st.blockedOn 16 = [2] ∧
      (AslCall.insertBlocked 16 0).exec.run st = some (.bool false, st') ∧
        st'.blockedOn 8 = [1] ∧ st'.blockedOn 16 = [2, 0] := by
  obtain ⟨asl, hinit, -⟩ := initASL_run (Store.zero : Store 4)
  have hcalls : ((initASL.run (Store.zero : Store 4)).bind fun r => r.2.callAll
      [.insertBlocked 8 0, .insertBlocked 16 2, .insertBlocked 8 1, .removeBlocked 8]).map
        (fun st => (st.blockedOn 8, st.blockedOn 16, st.blockedOn (st.pSemAdd 0))) =
          some ([1], [2], [1]) := by
    decide +kernel
  rw [hinit, Option.bind_some] at hcalls
  obtain ⟨st, hst, hseen⟩ := Option.map_eq_some_iff.mp hcalls
  simp only [Prod.mk.injEq] at hseen
  obtain ⟨h8, h16, h0⟩ := hseen
  obtain ⟨m, hrun⟩ := SemMap.AslRun.callAll (.init hinit) hst
  obtain ⟨hold, hnext⟩ := asl_refines_map hrun
  have hlegal : m.Legal (.insertBlocked 16 0) := fun b =>
    hold.blockedOn b ▸ hrun.notMem (by rw [h0]; decide) b
  obtain ⟨st', hexec, hnew, -⟩ := hnext (.insertBlocked 16 0) hlegal
  have hq8 : m.queue 8 = [1] := (hold.blockedOn 8).symm.trans h8
  have hq16 : m.queue 16 = [2] := (hold.blockedOn 16).symm.trans h16
  have hkey : 16 ∈ m.keys := (m.mem_keys 16).mpr (by rw [hq16]; simp)
  have hfull : ¬ m.Full 16 := fun h => h.1 hkey
  have hqueue : ∀ b, (m.next (.insertBlocked 16 0) hlegal).queue b =
      Function.update m.queue 16 (m.queue 16 ++ [0]) b := by
    intro b
    simp only [SemMap.next, if_neg hfull, SemMap.set, SemMap.block]
  refine ⟨st, st', m, hrun, h8, h16, ?_, ?_, ?_⟩
  · rw [hexec, SemMap.result, decide_eq_false hfull]
  · rw [hnew.blockedOn, hqueue, Function.update_of_ne (by decide), hq8]
  · rw [hnew.blockedOn, hqueue, Function.update_self, hq16]
    rfl

/-! ## There is always a descriptor -/

/-- There are fewer addresses in the map than processes if one of them is in no queue: each address
is that of the processes in its queue. -/
theorem SemMap.card_keys_lt (hp : ∀ b, p ∉ m.queue b) : m.keys.card < n := by
  have hsub : m.keys ⊆ (Finset.univ.erase p).image m.semAdd := by
    intro a ha
    obtain ⟨q, l, hq⟩ := List.exists_cons_of_ne_nil ((m.mem_keys a).mp ha)
    have hmem : q ∈ m.queue a := by
      rw [hq]
      exact List.mem_cons_self
    have hqp : q ≠ p := by
      rintro rfl
      exact hp a hmem
    exact Finset.mem_image.mpr ⟨q, by simpa using hqp, m.semAdd_eq a q hmem⟩
  calc m.keys.card ≤ ((Finset.univ.erase p).image m.semAdd).card := Finset.card_le_card hsub
    _ ≤ (Finset.univ.erase p).card := Finset.card_image_le
    _ < (Finset.univ : Finset (Fin n)).card :=
      Finset.card_lt_card (Finset.erase_ssubset (Finset.mem_univ p))
    _ = n := Finset.card_fin n

/-- With no more PCBs than `MAXPROC`, blocking never runs out of descriptors: after any sequence of
calls, `insertBlocked` returns `FALSE` for each process that is in no queue. -/
theorem insertBlocked_never_full (hn : n ≤ maxProc) (hrun : SemMap.AslRun st m)
    (hp : ∀ b, p ∉ st.blockedOn b) (a : ℕ) :
    ∃ st', (insertBlocked a p).run st = some (false, st') := by
  have hlegal : ∀ b, p ∉ m.queue b := fun b => hrun.rep.seen.blockedOn b ▸ hp b
  have hfull : ¬ m.Full a := by
    rintro ⟨-, hcard⟩
    have := SemMap.card_keys_lt hlegal
    omega
  obtain ⟨st', hexec, -⟩ := hrun.rep.exec (.insertBlocked a p) hlegal
  rw [AslCall.exec, StateT.run_map] at hexec
  obtain ⟨⟨b, st₁⟩, hb, hresult⟩ := Option.map_eq_some_iff.mp hexec
  obtain ⟨hbool, -⟩ := Prod.mk.inj hresult
  rw [SemMap.result, decide_eq_false hfull] at hbool
  obtain rfl := AslResult.bool.inj hbool
  exact ⟨st₁, hb⟩

/-- Nineteen processes are blocked on nineteen addresses, and the last one finds a descriptor for
another address. -/
theorem insertBlocked_never_full_last : ∃ st st' : Store maxProc,
    (∃ m, SemMap.AslRun st m) ∧ st.activeSemds.length = 19 ∧
      (insertBlocked 8 19).run st = some (false, st') := by
  obtain ⟨asl, hinit, -⟩ := initASL_run (Store.zero : Store maxProc)
  have hcalls : ((initASL.run (Store.zero : Store maxProc)).bind fun r => r.2.callAll
      ((List.range 19).map fun k => .insertBlocked (1000 - 4 * k) (Fin.ofNat maxProc k))).map
        (fun st => (st.activeSemds.length, st.blockedOn (st.pSemAdd 19))) = some (19, []) := by
    decide +kernel
  rw [hinit, Option.bind_some] at hcalls
  obtain ⟨st, hst, hseen⟩ := Option.map_eq_some_iff.mp hcalls
  simp only [Prod.mk.injEq] at hseen
  obtain ⟨hlength, hlast⟩ := hseen
  obtain ⟨m, hrun⟩ := SemMap.AslRun.callAll (.init hinit) hst
  have hp : ∀ b, 19 ∉ st.blockedOn b := hrun.notMem (by rw [hlast]; exact List.not_mem_nil)
  obtain ⟨st', hexec⟩ := insertBlocked_never_full (le_refl _) hrun hp 8
  exact ⟨st, st', ⟨m, hrun⟩, hlength, hexec⟩

end Jaeos
