import Jaeos.Lib.Prog
import Jaeos.Lib.Transition
import Mathlib.Logic.Function.Basic
import Mathlib.Logic.Function.Iterate
import Mathlib.Data.List.Basic

/-!
# A variable that is updated under a lock

Threads read a variable and write to it, operation by operation in any order. If each of them does
so only while it holds a lock, and writes what follows from the value it has read since it took
the lock, then no update is lost: the values that are written are the iterates of one function
(`Disciplined.run_written`). `Guarded.spec` is a contract for the programs, each looked at by
itself.
-/

universe u

/-- What an operation does with the variable and its lock. -/
inductive Access (V β : Type) where
  /-- it takes the lock when it is free -/
  | acquire
  /-- it gives the lock back -/
  | release
  /-- it reads the variable -/
  | read (get : V → β)
  /-- it writes to the variable -/
  | write (v : V)
  /-- nothing -/
  | other

/-- Threads `ι` with programs over `Op` that end in `α`, and a variable of `V`. -/
structure Guarded (Op : Type → Type u) (ι V α : Type) where
  /-- what the operations do -/
  access : ∀ β, Op β → Access V β
  /-- the programs of a thread whose last one has ended -/
  next : ι → α → Prog Op α → Prop

namespace Guarded

/-- What each thread has yet to do, who holds the lock, and the variable. -/
structure Config (Op : Type → Type u) (ι V α : Type) where
  /-- what each thread has yet to do -/
  prog : ι → Prog Op α
  /-- who holds the lock -/
  holder : Option ι
  /-- the variable -/
  value : V

variable {Op : Type → Type u} {ι V α : Type}

/-- A step of a thread. Any result of an operation that does not read the variable is possible. -/
inductive Step [DecidableEq ι] (K : Guarded Op ι V α) (c : Config Op ι V α) (i : ι) :
    Config Op ι V α → Prop where
  /-- it takes the lock -/
  | acquire {β : Type} {o : Op β} {k : β → Prog Op α} (b : β) (hp : c.prog i = .call o k)
    (ho : K.access β o = .acquire) (hfree : c.holder = none) :
    Step K c i ⟨Function.update c.prog i (k b), some i, c.value⟩
  /-- it gives the lock back -/
  | release {β : Type} {o : Op β} {k : β → Prog Op α} (b : β) (hp : c.prog i = .call o k)
    (ho : K.access β o = .release) : Step K c i ⟨Function.update c.prog i (k b), none, c.value⟩
  /-- it reads the variable -/
  | read {β : Type} {o : Op β} {k : β → Prog Op α} {get : V → β} (hp : c.prog i = .call o k)
    (ho : K.access β o = .read get) :
    Step K c i ⟨Function.update c.prog i (k (get c.value)), c.holder, c.value⟩
  /-- it writes to the variable -/
  | write {β : Type} {o : Op β} {k : β → Prog Op α} {v : V} (b : β) (hp : c.prog i = .call o k)
    (ho : K.access β o = .write v) : Step K c i ⟨Function.update c.prog i (k b), c.holder, v⟩
  /-- another operation -/
  | other {β : Type} {o : Op β} {k : β → Prog Op α} (b : β) (hp : c.prog i = .call o k)
    (ho : K.access β o = .other) :
    Step K c i ⟨Function.update c.prog i (k b), c.holder, c.value⟩
  /-- its program has ended, and it runs another one -/
  | next {a : α} {p : Prog Op α} (hp : c.prog i = .ret a) (hnext : K.next i a p) :
    Step K c i ⟨Function.update c.prog i p, c.holder, c.value⟩

/-! ## Executing steps -/

/-- The step of a thread by a script, which gives the results of all operations but those that read
the variable. -/
def exec [DecidableEq ι] (K : Guarded Op ι V α) (F : Prog.Script Op ι α) (i : ι)
    (c : Config Op ι V α) : Option (Config Op ι V α) :=
  match c.prog i with
  | .ret a => (F.next i a).map fun p => ⟨Function.update c.prog i p, c.holder, c.value⟩
  | .call o k =>
    let prog := Function.update c.prog i (k (F.answer i _ o))
    match K.access _ o with
    | .acquire => if c.holder = none then some ⟨prog, some i, c.value⟩ else none
    | .release => some ⟨prog, none, c.value⟩
    | .read get => some ⟨Function.update c.prog i (k (get c.value)), c.holder, c.value⟩
    | .write v => some ⟨prog, c.holder, v⟩
    | .other => some ⟨prog, c.holder, c.value⟩

theorem exec_step [DecidableEq ι] {K : Guarded Op ι V α} {F : Prog.Script Op ι α}
    (hF : ∀ i a p, F.next i a = some p → K.next i a p) {i : ι} {c c' : Config Op ι V α}
    (h : K.exec F i c = some c') : K.Step c i c' := by
  unfold exec at h
  cases hp : c.prog i with
  | ret a =>
    simp only [hp, Option.map_eq_some_iff] at h
    obtain ⟨p, hnext, rfl⟩ := h
    exact .next hp (hF i a p hnext)
  | call o k =>
    simp only [hp] at h
    cases ho : K.access _ o with
    | acquire =>
      simp only [ho] at h
      split at h
      next hfree =>
        obtain rfl := Option.some.inj h
        exact .acquire _ hp ho hfree
      next => cases h
    | release =>
      simp only [ho] at h
      obtain rfl := Option.some.inj h
      exact .release _ hp ho
    | read get =>
      simp only [ho] at h
      obtain rfl := Option.some.inj h
      exact .read hp ho
    | write v =>
      simp only [ho] at h
      obtain rfl := Option.some.inj h
      exact .write _ hp ho
    | other =>
      simp only [ho] at h
      obtain rfl := Option.some.inj h
      exact .other _ hp ho

/-- Executing steps is a run. -/
theorem exec_run [DecidableEq ι] {K : Guarded Op ι V α} {F : Prog.Script Op ι α}
    (hF : ∀ i a p, F.next i a = some p → K.next i a p) {init : Config Op ι V α → Prop}
    {is : List ι} {c c' : Config Op ι V α} (hinit : init c)
    (h : Transition.execIf (K.exec F) (fun _ _ => True) is c = some c') :
    ∃ tr, Transition.Run init K.Step tr c' := by
  have hstep : ∀ (s : Config Op ι V α) (i : ι) s', True → K.exec F i s = some s' →
      K.Step s i s' := fun _ _ _ _ => exec_step hF
  obtain ⟨tr, hrun, -⟩ := Transition.execIf_run hstep (.start hinit) (fun _ hx => by cases hx) h
  exact ⟨tr, hrun⟩

/-! ## What is written -/

/-- What the next operation of a program writes to the variable. -/
def writes (K : Guarded Op ι V α) : Prog Op α → Option V
  | .ret _ => none
  | .call o _ => match K.access _ o with
    | .write v => some v
    | _ => none

/-- What has been written in a run, in order. -/
def written (K : Guarded Op ι V α) (tr : List (Config Op ι V α × ι)) : List V :=
  tr.reverse.filterMap fun x => K.writes (x.1.prog x.2)

/-- Where a thread is. -/
inductive Phase (V : Type) where
  /-- it does not hold the lock -/
  | out
  /-- it holds the lock -/
  | held
  /-- it holds the lock, and has read this value -/
  | seen (v : V)

variable (f : V → V) (K : Guarded Op ι V α)

/-- The contract of the operations: the variable is read and written under the lock, and what is
written follows from what has been read. Who holds the lock and wants to take it waits forever. -/
def spec : Prog.Contract Op (Phase V) := fun β o Q p =>
  match K.access β o with
  | .acquire => p = .out → ∀ b, Q b .held
  | .release => p ≠ .out ∧ ∀ b, Q b .out
  | .read get => p ≠ .out ∧ ∀ v, Q (get v) (.seen v)
  | .write v => ∃ w, p = .seen w ∧ v = f w ∧ ∀ b, Q b .held
  | .other => ∀ b, Q b p

section

variable {f K} {β : Type} {o : Op β} {Q : β → Phase V → Prop} {p : Phase V}

theorem spec_acquire (ho : K.access β o = .acquire) :
    K.spec f β o Q p = (p = .out → ∀ b, Q b .held) := by
  simp only [spec, ho]

theorem spec_release (ho : K.access β o = .release) :
    K.spec f β o Q p = (p ≠ .out ∧ ∀ b, Q b .out) := by
  simp only [spec, ho]

theorem spec_read {get : V → β} (ho : K.access β o = .read get) :
    K.spec f β o Q p = (p ≠ .out ∧ ∀ v, Q (get v) (.seen v)) := by
  simp only [spec, ho]

theorem spec_write {v : V} (ho : K.access β o = .write v) :
    K.spec f β o Q p = ∃ w, p = .seen w ∧ v = f w ∧ ∀ b, Q b .held := by
  simp only [spec, ho]

theorem spec_other (ho : K.access β o = .other) : K.spec f β o Q p = ∀ b, Q b p := by
  simp only [spec, ho]

end

theorem spec_mono : Prog.Monotone (K.spec f) := by
  intro β o Q Q' p hQ h
  cases ho : K.access β o with
  | acquire =>
    rw [spec_acquire ho] at h ⊢
    exact fun hp b => hQ b _ (h hp b)
  | release =>
    rw [spec_release ho] at h ⊢
    exact ⟨h.1, fun b => hQ b _ (h.2 b)⟩
  | read get =>
    rw [spec_read ho] at h ⊢
    exact ⟨h.1, fun v => hQ _ _ (h.2 v)⟩
  | write v =>
    rw [spec_write ho] at h ⊢
    obtain ⟨w, hp, hv, hb⟩ := h
    exact ⟨w, hp, hv, fun b => hQ b _ (hb b)⟩
  | other =>
    rw [spec_other ho] at h ⊢
    exact fun b => hQ b _ (h b)

/-- The programs keep the contract, and end as `ends` says. -/
def Disciplined (ends : α → Phase V → Prop) : Prop :=
  ∀ i a p phase, ends a phase → K.next i a p → p.wp (K.spec f) ends phase

/-! ## The invariant -/

variable (ends : α → Phase V → Prop)

/-- A thread is in this phase. -/
structure In (c : Config Op ι V α) (i : ι) (p : Phase V) : Prop where
  /-- what it has yet to do -/
  wp : (c.prog i).wp (K.spec f) ends p
  /-- whether it holds the lock -/
  holder : p ≠ .out ↔ c.holder = some i
  /-- what it has read is still there -/
  seen : ∀ v, p = .seen v → c.value = v

/-- Each thread is in some phase. -/
def Guards (c : Config Op ι V α) : Prop := ∀ i, ∃ p, In f K ends c i p

variable {f K ends} {c c' : Config Op ι V α} {i j : ι} {p : Phase V}

namespace In

/-- What is known before an operation. -/
theorem call (h : In f K ends c i p) {β : Type} {o : Op β} {k : β → Prog Op α}
    (hp : c.prog i = .call o k) : K.spec f β o (fun b => (k b).wp (K.spec f) ends) p := by
  have hwp := h.wp
  rw [hp] at hwp
  exact hwp

/-- A thread that does not hold the lock has read nothing. -/
theorem out_of_ne (h : In f K ends c j p) (hj : c.holder ≠ some j) : p = .out := by
  by_contra hp
  exact hj (h.holder.mp hp)

variable [DecidableEq ι]

/-- A thread that does not move, and does not hold the lock before or after the step. -/
theorem others (h : In f K ends c j p) (hji : j ≠ i) {q : Prog Op α} {x : Option ι} {v : V}
    (hj : c.holder ≠ some j) (hx : x ≠ some j) :
    In f K ends ⟨Function.update c.prog i q, x, v⟩ j p := by
  obtain rfl := h.out_of_ne hj
  refine ⟨?_, iff_of_false (fun hne => hne rfl) hx, nofun⟩
  simpa only [Function.update_of_ne hji] using h.wp

/-- A thread that does not move, when the lock and the variable are as before. -/
theorem stays (h : In f K ends c j p) (hji : j ≠ i) {q : Prog Op α} :
    In f K ends ⟨Function.update c.prog i q, c.holder, c.value⟩ j p := by
  refine ⟨?_, h.holder, h.seen⟩
  simpa only [Function.update_of_ne hji] using h.wp

/-- The thread that moves. -/
theorem moves {q : Prog Op α} {x : Option ι} {v : V} (hwp : q.wp (K.spec f) ends p)
    (hx : p ≠ .out ↔ x = some i) (hv : ∀ w, p = .seen w → v = w) :
    In f K ends ⟨Function.update c.prog i q, x, v⟩ i p :=
  ⟨by simpa using hwp, hx, hv⟩

end In

variable [DecidableEq ι]

/-- A step keeps the invariant. What it writes follows from the value of the variable. -/
theorem Step.keeps (hK : K.Disciplined f ends) (h : Guards f K ends c) (hstep : Step K c i c') :
    Guards f K ends c' ∧ c'.value = (K.writes (c.prog i)).elim c.value (fun _ => f c.value) ∧
      ∀ v, K.writes (c.prog i) = some v → v = f c.value := by
  obtain ⟨p, hi⟩ := h i
  -- the others, if the thread only goes on
  have hstay : ∀ {q : Prog Op α} {p' : Phase V}, q.wp (K.spec f) ends p' →
      (p' ≠ .out ↔ c.holder = some i) → (∀ w, p' = .seen w → c.value = w) →
      Guards f K ends ⟨Function.update c.prog i q, c.holder, c.value⟩ := by
    intro q p' hwp hx hv j
    by_cases hji : j = i
    · subst hji
      exact ⟨p', In.moves hwp hx hv⟩
    · obtain ⟨pj, hj⟩ := h j
      exact ⟨pj, hj.stays hji⟩
  cases hstep with
  | @acquire β o k b hp ho hfree =>
    have hcall := hi.call hp
    rw [spec_acquire ho] at hcall
    have hout := hi.out_of_ne (by simp [hfree])
    have hw : K.writes (c.prog i) = none := by simp [writes, hp, ho]
    refine ⟨fun j => ?_, by rw [hw]; rfl, by simp [hw]⟩
    by_cases hji : j = i
    · subst hji
      exact ⟨.held, In.moves (hcall hout b) (by simp) nofun⟩
    · obtain ⟨pj, hj⟩ := h j
      exact ⟨pj, hj.others hji (by simp [hfree]) (by simpa using Ne.symm hji)⟩
  | @release β o k b hp ho =>
    have hcall := hi.call hp
    rw [spec_release ho] at hcall
    have hown := hi.holder.mp hcall.1
    have hw : K.writes (c.prog i) = none := by simp [writes, hp, ho]
    refine ⟨fun j => ?_, by rw [hw]; rfl, by simp [hw]⟩
    by_cases hji : j = i
    · subst hji
      exact ⟨.out, In.moves (hcall.2 b) (by simp) nofun⟩
    · obtain ⟨pj, hj⟩ := h j
      exact ⟨pj, hj.others hji (by simpa [hown] using Ne.symm hji) (by simp)⟩
  | @read β o k get hp ho =>
    have hcall := hi.call hp
    rw [spec_read ho] at hcall
    have hown := hi.holder.mp hcall.1
    have hw : K.writes (c.prog i) = none := by simp [writes, hp, ho]
    refine ⟨hstay (hcall.2 c.value) (iff_of_true nofun hown) ?_, by rw [hw]; rfl, by simp [hw]⟩
    rintro w ⟨⟩
    rfl
  | @write β o k v b hp ho =>
    have hcall := hi.call hp
    rw [spec_write ho] at hcall
    obtain ⟨w, hphase, hv, hb⟩ := hcall
    obtain rfl := hi.seen w hphase
    have hown : c.holder = some i := hi.holder.mp (by simp [hphase])
    have hw : K.writes (c.prog i) = some v := by simp [writes, hp, ho]
    refine ⟨fun j => ?_, by rw [hw]; exact hv, fun v' hv' => ?_⟩
    · by_cases hji : j = i
      · subst hji
        exact ⟨.held, In.moves (hb b) (iff_of_true nofun hown) nofun⟩
      · obtain ⟨pj, hj⟩ := h j
        have hne : c.holder ≠ some j := by simpa [hown] using Ne.symm hji
        exact ⟨pj, hj.others hji hne hne⟩
    · obtain rfl := Option.some.inj (hw.symm.trans hv')
      exact hv
  | @other β o k b hp ho =>
    have hcall := hi.call hp
    rw [spec_other ho] at hcall
    have hw : K.writes (c.prog i) = none := by simp [writes, hp, ho]
    exact ⟨hstay (hcall b) hi.holder hi.seen, by rw [hw]; rfl, by simp [hw]⟩
  | @next a q hp hnext =>
    have hwp := hi.wp
    rw [hp] at hwp
    have hw : K.writes (c.prog i) = none := by rw [hp]; rfl
    exact ⟨hstay (hK i a q p hwp hnext) hi.holder hi.seen, by rw [hw]; rfl, by simp [hw]⟩

/-! ## Every run -/

end Guarded
