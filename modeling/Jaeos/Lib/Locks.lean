import Jaeos.Lib.Prog
import Jaeos.Lib.Transition
import Mathlib.Logic.Relation
import Mathlib.Logic.Function.Basic
import Mathlib.Data.List.Nodup
import Mathlib.Order.Basic

/-!
# Locks that are taken in order

Threads run programs, operation by operation in any order, and some operations take a lock
or give it back. If each thread takes only locks of a higher rank than those it holds, no
threads wait for each other in a circle, and whoever waits waits in the end for a thread
that does not wait for a thread.

A thread knows which locks it holds, so that the order is a matter of each program alone:
`Locks.spec` is a contract for `Prog.wp`, and `Ordered.run_held` draws the conclusion for
all runs.
-/

universe u

/-- What an operation does with locks. -/
inductive LockUse (L : Type) where
  /-- it waits until the lock is free, and takes it -/
  | acquire (l : L)
  /-- it gives the lock back -/
  | release (l : L)
  /-- it may wait for what another thread does -/
  | wait
  /-- nothing -/
  | other
  deriving DecidableEq

/-- Threads `ι` with programs over `Op` that end in `α`, and locks `L`. -/
structure Locks (Op : Type → Type u) (ι L α : Type) where
  /-- what the operations do with locks -/
  use : ∀ β, Op β → LockUse L
  /-- which of the operations that may wait for another thread are followed -/
  follow : ∀ β, Op β → Prop
  /-- the programs of a thread whose last one has ended -/
  next : ι → α → Prog Op α → Prop

namespace Locks

/-- What each thread has yet to do, and who holds the locks. -/
structure Config (Op : Type → Type u) (ι L α : Type) where
  /-- what each thread has yet to do -/
  prog : ι → Prog Op α
  /-- who holds a lock -/
  holder : L → Option ι

variable {Op : Type → Type u} {ι L α : Type}

/-- A step of a thread. Any result of an operation is possible. -/
inductive Step [DecidableEq ι] [DecidableEq L] (K : Locks Op ι L α) (c : Config Op ι L α) (i : ι) :
    Config Op ι L α → Prop where
  /-- it takes a lock that is free -/
  | acquire {β : Type} {o : Op β} {k : β → Prog Op α} {l : L} (b : β)
    (hp : c.prog i = .call o k) (ho : K.use β o = .acquire l) (hfree : c.holder l = none) :
    Step K c i ⟨Function.update c.prog i (k b), Function.update c.holder l (some i)⟩
  /-- it gives a lock back -/
  | release {β : Type} {o : Op β} {k : β → Prog Op α} {l : L} (b : β)
    (hp : c.prog i = .call o k) (ho : K.use β o = .release l) :
    Step K c i ⟨Function.update c.prog i (k b), Function.update c.holder l none⟩
  /-- an operation that may wait for another thread -/
  | wait {β : Type} {o : Op β} {k : β → Prog Op α} (b : β)
    (hp : c.prog i = .call o k) (ho : K.use β o = .wait) (hfollow : K.follow β o) :
    Step K c i ⟨Function.update c.prog i (k b), c.holder⟩
  /-- another operation -/
  | other {β : Type} {o : Op β} {k : β → Prog Op α} (b : β)
    (hp : c.prog i = .call o k) (ho : K.use β o = .other) :
    Step K c i ⟨Function.update c.prog i (k b), c.holder⟩
  /-- its program has ended, and it runs another one -/
  | next {a : α} {p : Prog Op α} (hp : c.prog i = .ret a) (hnext : K.next i a p) :
    Step K c i ⟨Function.update c.prog i p, c.holder⟩

/-- The step of a thread by a script. Operations that may wait for another thread are left out. -/
def exec [DecidableEq ι] [DecidableEq L] (K : Locks Op ι L α) (F : Prog.Script Op ι α) (i : ι)
    (c : Config Op ι L α) : Option (Config Op ι L α) :=
  match c.prog i with
  | .ret a => (F.next i a).map fun p => ⟨Function.update c.prog i p, c.holder⟩
  | .call o k =>
    let prog := Function.update c.prog i (k (F.answer i _ o))
    match K.use _ o with
    | .acquire l =>
      if c.holder l = none then some ⟨prog, Function.update c.holder l (some i)⟩ else none
    | .release l => some ⟨prog, Function.update c.holder l none⟩
    | .wait => none
    | .other => some ⟨prog, c.holder⟩

theorem exec_step [DecidableEq ι] [DecidableEq L] {K : Locks Op ι L α} {F : Prog.Script Op ι α}
    (hF : ∀ i a p, F.next i a = some p → K.next i a p) {i : ι} {c c' : Config Op ι L α}
    (h : K.exec F i c = some c') : K.Step c i c' := by
  unfold exec at h
  cases hp : c.prog i with
  | ret a =>
    simp only [hp, Option.map_eq_some_iff] at h
    obtain ⟨p, hnext, rfl⟩ := h
    exact .next hp (hF i a p hnext)
  | call o k =>
    simp only [hp] at h
    cases ho : K.use _ o with
    | acquire l =>
      simp only [ho] at h
      split at h
      next hfree =>
        obtain rfl := Option.some.inj h
        exact .acquire _ hp ho hfree
      next => cases h
    | release l =>
      simp only [ho] at h
      obtain rfl := Option.some.inj h
      exact .release _ hp ho
    | wait => simp [ho] at h
    | other =>
      simp only [ho] at h
      obtain rfl := Option.some.inj h
      exact .other _ hp ho

/-- Executing steps is a run. -/
theorem exec_run [DecidableEq ι] [DecidableEq L] {K : Locks Op ι L α} {F : Prog.Script Op ι α}
    (hF : ∀ i a p, F.next i a = some p → K.next i a p) {init : Config Op ι L α → Prop}
    {is : List ι} {c c' : Config Op ι L α} (hinit : init c)
    (h : Transition.execIf (K.exec F) (fun _ _ => True) is c = some c') :
    ∃ tr, Transition.Run init K.Step tr c' := by
  have hstep : ∀ (s : Config Op ι L α) (i : ι) s', True → K.exec F i s = some s' →
      K.Step s i s' := fun _ _ _ _ => exec_step hF
  obtain ⟨tr, hrun, -⟩ := Transition.execIf_run hstep (.start hinit) (fun _ hx => by cases hx) h
  exact ⟨tr, hrun⟩

/-! ## The discipline -/

section

variable [DecidableEq L] (rank : L → ℕ)

/-- What a thread that holds these locks may do. -/
def ok (held : List L) : LockUse L → Prop
  | .acquire l => ∀ m ∈ held, rank m < rank l
  | .release l => l ∈ held
  | .wait => held = []
  | .other => True

/-- Which locks it holds then. -/
def after (held : List L) : LockUse L → List L
  | .acquire l => l :: held
  | .release l => held.erase l
  | .wait => held
  | .other => held

variable (K : Locks Op ι L α)

/-- The contract of the operations. -/
def spec : Prog.Contract Op (List L) := fun β o Q held =>
  ok rank held (K.use β o) ∧ ∀ b, Q b (after held (K.use β o))

theorem spec_mono : Prog.Monotone (K.spec rank) :=
  fun _ _ _ _ hQ h => ⟨h.1, fun b => hQ b _ (h.2 b)⟩

/-- Each program takes locks in order, and ends as `ends` says. -/
def Ordered (ends : α → List L → Prop) : Prop :=
  ∀ i a p held, ends a held → K.next i a p → p.wp (K.spec rank) ends held

/-- What the next operation of a program does with locks. -/
def pending : Prog Op α → LockUse L
  | .ret _ => .other
  | .call o _ => K.use _ o

/-- A thread waits for a lock that another one holds. -/
def WaitsFor (c : Config Op ι L α) (i j : ι) : Prop :=
  ∃ l, K.pending (c.prog i) = .acquire l ∧ c.holder l = some j

/-! ## The invariant -/

variable (ends : α → List L → Prop)

/-- A thread holds these locks, and takes others in order. -/
structure Holds (c : Config Op ι L α) (i : ι) (held : List L) : Prop where
  /-- what it has yet to do -/
  wp : (c.prog i).wp (K.spec rank) ends held
  /-- the locks differ -/
  nodup : held.Nodup
  /-- it holds no others -/
  holder : ∀ l, l ∈ held ↔ c.holder l = some i

/-- Each thread holds some locks. -/
def Held (c : Config Op ι L α) : Prop := ∀ i, ∃ held, Holds rank K ends c i held

end

section

variable [DecidableEq L] {K : Locks Op ι L α} {rank : L → ℕ} {ends : α → List L → Prop}
  {c c' : Config Op ι L α} {i j : ι} {held : List L} {l m : L}

namespace Holds

/-- What is known before an operation. -/
theorem call (h : Holds rank K ends c i held) {β : Type} {o : Op β} {k : β → Prog Op α}
    {use : LockUse L} (hp : c.prog i = .call o k) (ho : K.use β o = use) :
    ok rank held use ∧ ∀ b, (k b).wp (K.spec rank) ends (after held use) := by
  have hwp := h.wp
  rw [hp] at hwp
  subst ho
  exact hwp

/-- What a thread may do next. -/
theorem pending_ok (h : Holds rank K ends c i held) : ok rank held (K.pending (c.prog i)) := by
  cases hp : c.prog i with
  | ret a => trivial
  | call o k => exact (h.call hp rfl).1

/-- A thread that does not move holds what it has held. -/
theorem frame (h : Holds rank K ends c j held) (hprog : c'.prog j = c.prog j)
    (hholder : ∀ l, c'.holder l = some j ↔ c.holder l = some j) : Holds rank K ends c' j held :=
  ⟨hprog ▸ h.wp, h.nodup, fun l => (h.holder l).trans (hholder l).symm⟩

end Holds

/-! ## Nobody waits in a circle -/

namespace Held

/-- A thread wants only locks of a higher rank than those it holds. -/
theorem rank_lt (h : Held rank K ends c) (hl : K.pending (c.prog i) = .acquire l)
    (hm : c.holder m = some i) : rank m < rank l := by
  obtain ⟨held, hi⟩ := h i
  have hok := hi.pending_ok
  rw [hl] at hok
  exact hok m ((hi.holder m).mpr hm)

/-- A thread gives back only what it holds. -/
theorem releases_own (h : Held rank K ends c) (hl : K.pending (c.prog i) = .release l) :
    c.holder l = some i := by
  obtain ⟨held, hi⟩ := h i
  have hok := hi.pending_ok
  rw [hl] at hok
  exact (hi.holder l).mp hok

/-- A thread that holds a lock waits for nothing else that another thread does. -/
theorem not_wait (h : Held rank K ends c) (hm : c.holder m = some i) :
    K.pending (c.prog i) ≠ .wait := by
  intro hwait
  obtain ⟨held, hi⟩ := h i
  have hok := hi.pending_ok
  rw [hwait] at hok
  have hmem := (hi.holder m).mpr hm
  rw [show held = [] from hok] at hmem
  cases hmem

/-- Along a chain of threads that wait for each other, the ranks go up. -/
theorem chain (h : Held rank K ends c) (hchain : Relation.TransGen (K.WaitsFor c) i j)
    (hl : K.pending (c.prog i) = .acquire l) : ∃ m, c.holder m = some j ∧ rank l ≤ rank m := by
  induction hchain with
  | single hij =>
    obtain ⟨m, hm, hj⟩ := hij
    obtain rfl := LockUse.acquire.inj (hl.symm.trans hm)
    exact ⟨l, hj, Nat.le_refl _⟩
  | tail _ hjk ih =>
    obtain ⟨m, hm, hle⟩ := ih
    obtain ⟨m', hm', hk⟩ := hjk
    exact ⟨m', hk, Nat.le_trans hle (Nat.le_of_lt (h.rank_lt hm' hm))⟩

/-- Nobody waits for himself, directly or through others. -/
theorem acyclic (h : Held rank K ends c) (i : ι) : ¬ Relation.TransGen (K.WaitsFor c) i i := by
  intro hcycle
  obtain ⟨j, ⟨l, hl, -⟩, -⟩ := Relation.TransGen.head'_iff.mp hcycle
  obtain ⟨m, hm, hle⟩ := h.chain hcycle hl
  exact absurd (h.rank_lt hl hm) (Nat.not_lt.mpr hle)

/-- From a thread that holds a lock, the waiting comes to an end. -/
theorem chain_end (h : Held rank K ends c) {bound : ℕ} (hbound : ∀ l, rank l ≤ bound)
    (hchain : Relation.TransGen (K.WaitsFor c) i j) (hm : c.holder m = some j) :
    ∃ k m, Relation.TransGen (K.WaitsFor c) i k ∧ c.holder m = some k ∧
      ∀ j, ¬ K.WaitsFor c k j := by
  -- the rank of the lock comes closer to the bound
  induction hd : bound - rank m using Nat.strongRecOn generalizing j m with
  | ind d ih =>
    by_cases hfree : ∀ k, ¬ K.WaitsFor c j k
    · exact ⟨j, m, hchain, hm, hfree⟩
    · obtain ⟨k, l, hl, hk⟩ := not_forall_not.mp hfree
      have hlt := h.rank_lt hl hm
      have hle := hbound l
      exact ih (bound - rank l) (by omega) (hchain.tail ⟨l, hl, hk⟩) hk rfl

/-- Whoever waits waits, directly or through others, for one that holds a lock and does not wait
for a lock. -/
theorem exists_end (h : Held rank K ends c) {bound : ℕ} (hbound : ∀ l, rank l ≤ bound)
    (hij : K.WaitsFor c i j) : ∃ k m, Relation.TransGen (K.WaitsFor c) i k ∧
      c.holder m = some k ∧ ∀ j, ¬ K.WaitsFor c k j := by
  obtain ⟨l, hl, hj⟩ := hij
  exact h.chain_end hbound (.single ⟨l, hl, hj⟩) hj

end Held

end

/-! ## Every run -/

section

variable [DecidableEq ι] [DecidableEq L] {K : Locks Op ι L α} {rank : L → ℕ}
  {ends : α → List L → Prop} {c c' : Config Op ι L α} {i j : ι} {held : List L} {l m : L}
  {p : Prog Op α}

namespace Holds

/-- The thread has taken a lock. -/
theorem acquire (h : Holds rank K ends c i held) (hok : ∀ m ∈ held, rank m < rank l)
    (hwp : p.wp (K.spec rank) ends (l :: held)) :
    Holds rank K ends ⟨Function.update c.prog i p, Function.update c.holder l (some i)⟩ i
      (l :: held) := by
  refine ⟨by simpa using hwp, List.nodup_cons.mpr ⟨fun hl => ?_, h.nodup⟩, fun m => ?_⟩
  · exact Nat.lt_irrefl _ (hok l hl)
  · by_cases hm : m = l
    · subst hm
      simp
    · simp [hm, h.holder m]

/-- The thread has given a lock back. -/
theorem release (h : Holds rank K ends c i held) (hwp : p.wp (K.spec rank) ends (held.erase l)) :
    Holds rank K ends ⟨Function.update c.prog i p, Function.update c.holder l none⟩ i
      (held.erase l) := by
  refine ⟨by simpa using hwp, h.nodup.erase l, fun m => ?_⟩
  rw [h.nodup.mem_erase_iff]
  by_cases hm : m = l
  · subst hm
    simp
  · simp [hm, h.holder m]

/-- The thread has done something else. -/
theorem move (h : Holds rank K ends c i held) (hwp : p.wp (K.spec rank) ends held) :
    Holds rank K ends ⟨Function.update c.prog i p, c.holder⟩ i held :=
  ⟨by simpa using hwp, h.nodup, h.holder⟩

/-- Another thread has taken or given back a lock that this one does not hold. -/
theorem others (h : Holds rank K ends c j held) (hji : j ≠ i) {x : Option ι}
    (hl : c.holder l ≠ some j) (hx : x ≠ some j) :
    Holds rank K ends ⟨Function.update c.prog i p, Function.update c.holder l x⟩ j held := by
  refine h.frame (Function.update_of_ne hji ..) fun m => ?_
  by_cases hm : m = l
  · subst hm
    simp [hl, hx]
  · simp [hm]

end Holds

/-- A step keeps the invariant. -/
theorem Step.keeps (hK : K.Ordered rank ends) (h : Held rank K ends c) (hstep : Step K c i c') :
    Held rank K ends c' := by
  intro j
  obtain ⟨held, hi⟩ := h i
  obtain ⟨heldj, hj⟩ := h j
  have hstay : ∀ p, j ≠ i →
      Holds rank K ends ⟨Function.update c.prog i p, c.holder⟩ j heldj := fun p hji =>
    hj.frame (Function.update_of_ne hji ..) fun _ => Iff.rfl
  cases hstep with
  | @acquire β o k l b hp ho hfree =>
    obtain ⟨hok, hk⟩ := hi.call hp ho
    by_cases hji : j = i
    · subst hji
      exact ⟨_, hi.acquire hok (hk b)⟩
    · exact ⟨heldj, hj.others hji (by simp [hfree]) (by simp [Ne.symm hji])⟩
  | @release β o k l b hp ho =>
    obtain ⟨hok, hk⟩ := hi.call hp ho
    by_cases hji : j = i
    · subst hji
      exact ⟨_, hi.release (hk b)⟩
    · have hown : c.holder l = some i := (hi.holder l).mp hok
      exact ⟨heldj, hj.others hji (by simp [hown, Ne.symm hji]) (by simp)⟩
  | @wait β o k b hp ho hfollow =>
    by_cases hji : j = i
    · subst hji
      exact ⟨held, hi.move ((hi.call hp ho).2 b)⟩
    · exact ⟨heldj, hstay _ hji⟩
  | @other β o k b hp ho =>
    by_cases hji : j = i
    · subst hji
      exact ⟨held, hi.move ((hi.call hp ho).2 b)⟩
    · exact ⟨heldj, hstay _ hji⟩
  | @next a p hp hnext =>
    by_cases hji : j = i
    · subst hji
      have hwp := hi.wp
      rw [hp] at hwp
      exact ⟨held, hi.move (hK _ a p held hwp hnext)⟩
    · exact ⟨heldj, hstay _ hji⟩

/-- The invariant holds in every state that is reached. -/
theorem Ordered.run_held (hK : K.Ordered rank ends) {init : Config Op ι L α → Prop}
    (hinit : ∀ c, init c → Held rank K ends c) {tr : List (Config Op ι L α × ι)}
    (hrun : Transition.Run init (Step K) tr c) : Held rank K ends c :=
  hrun.invariant (G := fun _ _ => True) hinit (fun _ _ _ h _ hstep => hstep.keeps hK h)
    fun _ _ => trivial

/-- A thread that holds a lock and does not wait for another one can go on, or its program has
ended. -/
theorem Held.can_step (h : Held rank K ends c) (hres : ∀ β, Op β → Nonempty β)
    (hm : c.holder m = some i) (hfree : ∀ j, ¬ K.WaitsFor c i j) :
    (∃ c', Step K c i c') ∨ ∃ a, c.prog i = .ret a := by
  cases hp : c.prog i with
  | ret a => exact .inr ⟨a, rfl⟩
  | @call β o k =>
    obtain ⟨b⟩ := hres β o
    refine .inl ?_
    cases ho : K.use β o with
    | acquire l =>
      have hnone : c.holder l = none := by
        cases hj : c.holder l with
        | none => rfl
        | some j => exact absurd ⟨l, by rw [hp]; exact ho, hj⟩ (hfree j)
      exact ⟨_, .acquire b hp ho hnone⟩
    | release l => exact ⟨_, .release b hp ho⟩
    | wait => exact absurd (by rw [hp]; exact ho) (h.not_wait hm)
    | other => exact ⟨_, .other b hp ho⟩

end

end Locks
