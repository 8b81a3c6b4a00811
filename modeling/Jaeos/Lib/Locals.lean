import Jaeos.Lib.Trace
import Jaeos.Lib.Threads

/-!
# Variables in shared memory

A thread may keep the variables of a function in memory that other threads can reach.
`Threads.stacked` is a system of such threads: their programs read and write one variable after
the other, and may be interrupted in between. `Prog.Mirrors` relates such a program to one that
has its variables for itself.

As long as at most one thread is in such a function, and the others leave its variables alone, the
system does what it would do if each thread had its variables for itself and somebody wrote to
this memory now and then (`Threads.scribbled`): `Threads.Shares.run_sim`. So a proof about the
simpler system (an outline) is one about the other.
-/

universe u

/-- An operation of a program with variables `V` that have values `W`. -/
inductive LocalOp (V W : Type) (Op : Type → Type u) : Type → Type (max 1 u) where
  /-- another operation -/
  | op {β : Type} (o : Op β) : LocalOp V W Op β
  /-- read a variable -/
  | get (v : V) : LocalOp V W Op W
  /-- write a variable -/
  | set (v : V) (w : W) : LocalOp V W Op Unit
  /-- the function with the variables begins -/
  | enter : LocalOp V W Op Unit
  /-- it ends -/
  | leave : LocalOp V W Op Unit

namespace Prog

variable {Op : Type → Type u} {V W α : Type}

/-- A program without variables. -/
def embed : Prog Op α → Prog (LocalOp V W Op) α
  | ret a => ret a
  | call o k => call (.op o) fun b => (k b).embed

/-- The first operation of the program, if it calls one, satisfies `P`. -/
def Opens (P : ∀ β, Op β → Prop) : Prog Op α → Prop
  | ret _ => True
  | call o _ => P _ o

variable [DecidableEq V] {quiet always : ∀ β, Op β → Prop} {waits : V → Bool}

/-- The first program, whose variables have these values once the function has begun, does what
the second one does. With variables it calls operations that are `quiet`, or before which the
thread `always` yields; and where it `waits` before it writes a variable, the second program has
such an operation next. -/
inductive Mirrors (quiet always : ∀ β, Op β → Prop) (waits : V → Bool) :
    Option (V → W) → Prog (LocalOp V W Op) α → Prog Op α → Prop where
  /-- they end -/
  | ret (env : Option (V → W)) (a : α) : Mirrors quiet always waits env (ret a) (ret a)
  /-- they call the same operation -/
  | op {env : Option (V → W)} {β : Type} {o : Op β} {k : β → Prog (LocalOp V W Op) α}
    {k' : β → Prog Op α} (ho : env.isSome = true → quiet β o ∨ always β o)
    (hk : ∀ b, Mirrors quiet always waits env (k b) (k' b)) :
    Mirrors quiet always waits env (call (.op o) k) (call o k')
  /-- a variable has its value -/
  | get {env : V → W} {v : V} {k : W → Prog (LocalOp V W Op) α} {q : Prog Op α}
    (hk : Mirrors quiet always waits (some env) (k (env v)) q) :
    Mirrors quiet always waits (some env) (call (.get v) k) q
  /-- a variable has another value from now on -/
  | set {env : V → W} {v : V} {w : W} {k : Unit → Prog (LocalOp V W Op) α} {q : Prog Op α}
    (hq : waits v = true → q.Opens always)
    (hk : Mirrors quiet always waits (some (Function.update env v w)) (k ()) q) :
    Mirrors quiet always waits (some env) (call (.set v w) k) q
  /-- the variables have any values at first -/
  | enter {k : Unit → Prog (LocalOp V W Op) α} {q : Prog Op α}
    (hk : ∀ env, Mirrors quiet always waits (some env) (k ()) q) :
    Mirrors quiet always waits none (call .enter k) q
  /-- the function ends with the program -/
  | leave {env : V → W} {k : Unit → Prog (LocalOp V W Op) α} {a : α}
    (hk : Mirrors quiet always waits none (k ()) (ret a)) :
    Mirrors quiet always waits (some env) (call .leave k) (ret a)

theorem mirrors_embed (p : Prog Op α) :
    Mirrors quiet always waits none (p.embed : Prog (LocalOp V W Op) α) p := by
  induction p with
  | ret a => exact .ret none a
  | call o k ih => exact .op (fun h => by simp at h) ih

end Prog

/-! ## Systems -/

/-- A state, and the threads that are in the function. -/
structure Stacked (ι σ : Type) where
  /-- the state -/
  state : σ
  /-- who is in the function -/
  inside : List ι

/-- Where the variables are. -/
structure Frame (σ V W : Type) [DecidableEq V] where
  /-- the value of a variable -/
  read : σ → V → W
  /-- a variable is written -/
  write : V × W → σ → σ
  /-- a thread has waited for the processor before it writes this variable -/
  waits : V → Bool
  /-- the others keep their values -/
  read_write : ∀ p s, read (write p s) = Function.update (read s) p.1 p.2

namespace Threads

variable {Op : Type → Type u} {ι σ ε α L V W P : Type} [DecidableEq ι] [DecidableEq V]

/-- One thread may also write to the memory, at any time. -/
def scribbled (T : Threads Op ι σ ε α L) (z : ι) (put : P → σ → σ) :
    Threads Op ι σ ε α (L ⊕ P) where
  sem := T.sem
  yields := T.yields
  act i l a s :=
    match l with
    | .inl l => T.act i l a s
    | .inr p => if i = z then some (.ret a, put p s) else none

/-- The threads keep the variables of a function in memory. A thread may lose the processor before
it reads or writes a variable if it is `enabled`, or has waited for the processor. -/
def stacked (T : Threads Op ι σ ε α L) (F : Frame σ V W) (enabled : ι → σ → Bool) :
    Threads (LocalOp V W Op) ι (Stacked ι σ) ε α L where
  sem i e
    | _, .op o => fun x => ((T.sem i e _ o).run x.state).map fun r => (r.1, ⟨r.2, x.inside⟩)
    | _, .get v => fun x => some (F.read x.state v, x)
    | _, .set v w => fun x => some ((), ⟨F.write (v, w) x.state, x.inside⟩)
    | _, .enter => fun x => some ((), ⟨x.state, i :: x.inside⟩)
    | _, .leave => fun x => some ((), ⟨x.state, x.inside.filter (· ≠ i)⟩)
  yields i
    | _, .op o => fun x => T.yields i _ o x.state
    | _, .set v _ => fun x => enabled i x.state || F.waits v
    | _, _ => fun x => enabled i x.state
  act i l a x := (T.act i l a x.state).map fun r =>
    (r.1.embed, ⟨r.2, x.inside.filter (· ≠ i)⟩)

section

variable {T : Threads Op ι σ ε α L} {c : Config Op ι σ α} {i j : ι}

theorem free_of_parked (h : ∀ j, c.cur = some j → j ≠ i → T.parked j c.shared (c.prog j) = true) :
    T.free c i = true := by
  unfold free
  split
  · rfl
  · next j hj =>
    by_cases hji : j = i
    · simp [hji]
    · simp [h j hj hji]

theorem parked_of_free (h : T.free c i = true) (hj : c.cur = some j) (hji : j ≠ i) :
    T.parked j c.shared (c.prog j) = true := by
  rw [free, hj] at h
  simpa [hji] using h

theorem step_call {e : ε} {β : Type} {o : Op β} {k : β → Prog Op α} {b : β} {s' : σ}
    (hfree : T.free c i = true) (hp : c.prog i = .call o k)
    (hsem : (T.sem i e β o).run c.shared = some (b, s')) :
    T.Step c (.call i e) (c.next i (k b) s') := by
  simp [Step, exec, Event.thread, hfree, hp, hsem]

theorem step_act {l : L} {a : α} {p : Prog Op α} {s' : σ} (hfree : T.free c i = true)
    (hp : c.prog i = .ret a) (hact : T.act i l a c.shared = some (p, s')) :
    T.Step c (.act i l) (c.next i p s') := by
  have hnext : T.exec c (.act i l) = (T.act i l a c.shared).map fun r => c.next i r.1 r.2 := by
    simp only [exec, Event.thread, if_pos hfree, hp]
  rw [Step, hnext, hact]
  rfl

end

/-! ## Somebody scribbles -/

section

variable {T : Threads Op ι σ ε α L} {G : Type} {z : ι} {put : P → σ → σ} {may : P → σ → Prop}

/-- Whoever scribbles goes on as before. -/
theorem scribbled_act {i : ι} {q : P} {a : α} {p : Prog Op α} {s s' : σ}
    (h : (T.scribbled z put).act i (.inr q) a s = some (p, s')) :
    i = z ∧ p = .ret a ∧ s' = put q s := by
  change (if i = z then some (Prog.ret a, put q s) else none) = some (p, s') at h
  split at h
  · next hi =>
    obtain ⟨rfl, rfl⟩ := Prod.mk.inj (Option.some.inj h)
    exact ⟨hi, rfl, rfl⟩
  · cases h

/-- The proof for the system in which nobody scribbles. -/
def Outline.scribbled (O : T.Outline G) (z : ι) (put : P → σ → σ) (may : P → σ → Prop) :
    (T.scribbled z put).Outline G where
  inv := O.inv
  rely := O.rely
  good := O.good
  goodAct i l s s' :=
    match l with
    | .inl l => O.goodAct i l s s'
    | .inr _ => True
  allow := O.allow
  allowAct i l s :=
    match l with
    | .inl l => O.allowAct i l s
    | .inr p => may p s
  done := O.done

/-- It is a proof if what is written disturbs nobody. -/
theorem Outline.Sound.scribbled {O : T.Outline G} (hO : O.Sound)
    (hinv : ∀ p s g, O.inv (s, g) → may p s → O.inv (put p s, g))
    (hrely : ∀ j p s g, may p s → O.rely j (s, g) (put p s, g)) :
    (O.scribbled z put may).Sound where
  refl := hO.refl
  trans := hO.trans
  done := hO.done
  act i l a x p s' hx hdone hok hact := by
    cases l with
    | inl l => exact hO.act i l a x p s' hx hdone hok hact
    | inr q =>
      obtain ⟨-, rfl, rfl⟩ := scribbled_act hact
      have hx' := hinv q x.1 x.2 hx hok
      exact ⟨trivial, x.2, fun j _ => hrely j q x.1 x.2 hok, hx',
        hO.done i a x _ hdone (hrely i q x.1 x.2 hok) hx'⟩

end

end Threads

/-! ## Writing several variables -/

namespace Frame

variable {σ V W : Type} [DecidableEq V] (F : Frame σ V W)

/-- Variables are written one after the other. -/
def writes (ps : List (V × W)) (s : σ) : σ := ps.foldl (fun s p => F.write p s) s

theorem writes_concat (ps : List (V × W)) (p : V × W) (s : σ) :
    F.writes (ps ++ [p]) s = F.write p (F.writes ps s) := by
  rw [writes, List.foldl_concat]
  rfl

theorem read_writes_congr {ps : List (V × W)} {s s' : σ} (h : F.read s' = F.read s) :
    F.read (F.writes ps s') = F.read (F.writes ps s) := by
  induction ps generalizing s s' with
  | nil => exact h
  | cons p ps ih =>
    apply ih
    rw [F.read_write, F.read_write, h]

/-- The variables are in a part of the state. -/
def within {τ : Type} (part : τ → σ) (put : σ → τ → τ) (h : ∀ s t, part (put s t) = s) :
    Frame τ V W where
  read t := F.read (part t)
  write p t := put (F.write p (part t)) t
  waits := F.waits
  read_write p t := by rw [h, F.read_write]

/-- The variables of a thread, if it is in the function. -/
def env {ι : Type} [DecidableEq ι] (x : Stacked ι σ) (i : ι) : Option (V → W) :=
  if i ∈ x.inside then some (F.read x.state) else none

end Frame

namespace Threads

section

variable {Op : Type → Type u} {ι σ ε α L V W G : Type} [DecidableEq ι] [DecidableEq V]

/-! ## When variables may be shared -/

/-- Where the variables are and what else is there: the proof `O` about threads without variables
does not mind if somebody scribbles there while the memory is `idle`, and what the threads do
leaves an idle memory alone. -/
structure Shares (T : Threads Op ι σ ε α L) (O : T.Outline G) (F : Frame σ V W)
    (enabled : ι → σ → Bool) (quiet always : ∀ β, Op β → Prop) (idle : σ → Prop)
    (still : ι → L → σ → Prop) : Prop where
  /-- a thread that may be interrupted at any time yields before every operation -/
  enabled_yields : ∀ {i β o s}, enabled i s = true → T.yields i β o s = true
  /-- before some operations it always does -/
  always_yields : ∀ {i β o s}, always β o → T.yields i β o s = true
  /-- whether it yields does not depend on variables -/
  yields_write : ∀ i β o p s, T.yields i β o (F.write p s) = T.yields i β o s
  /-- quiet operations do not touch the variables -/
  quiet_write : ∀ {i e β o} p s, quiet β o → (T.sem i e β o).run (F.write p s) =
    ((T.sem i e β o).run s).map fun r => (r.1, F.write p r.2)
  /-- nor do they change whether their memory is idle -/
  quiet_idle : ∀ {i e β o s b s'}, quiet β o → (T.sem i e β o).run s = some (b, s') →
    idle s → idle s'
  /-- they are followed from everywhere -/
  quiet_allow : ∀ {i e β o s}, quiet β o → O.allow i e β o s
  /-- writing variables leaves the memory idle -/
  idle_write : ∀ {p s}, idle (F.write p s) ↔ idle s
  /-- it does not disturb the invariant -/
  inv_write : ∀ p s g, O.inv (s, g) → idle s → O.inv (F.write p s, g)
  /-- nor any thread -/
  rely_write : ∀ j p s g, idle s → O.rely j (s, g) (F.write p s, g)
  /-- an operation leaves an idle memory alone -/
  good_read : ∀ {i β o s s'}, O.good i β o s s' → idle s → F.read s' = F.read s
  /-- so does a thread between its programs -/
  act_read : ∀ {i l a p s s'}, O.goodAct i l s s' → T.act i l a s = some (p, s') → still i l s →
    idle s → F.read s' = F.read s

/-- At most one thread is in the function, and then its memory is idle. -/
def Alone (idle : σ → Prop) (x : Stacked ι σ) : Prop :=
  x.inside.length ≤ 1 ∧ (x.inside ≠ [] → idle x.state)

instance (idle : σ → Prop) [∀ s, Decidable (idle s)] (x : Stacked ι σ) :
    Decidable (Alone idle x) := inferInstanceAs (Decidable (_ ∧ _))

/-- The step is followed by the proof, and from a state in which threads are alone. -/
def Follows {T : Threads Op ι σ ε α L} (O : T.Outline G) (idle : σ → Prop)
    (still : ι → L → σ → Prop) (c : Config (LocalOp V W Op) ι (Stacked ι σ) α)
    (e : Event ι ε L) : Prop :=
  Alone idle c.shared ∧
    match e with
    | .call i e =>
      match c.prog i with
      | .call (.op o) _ => O.allow i e _ o c.shared.state
      | _ => True
    | .act i l => O.allowAct i l c.shared.state ∧
      (c.shared.inside ≠ [] → still i l c.shared.state)

namespace Shares

variable {T : Threads Op ι σ ε α L} {O : T.Outline G} {F : Frame σ V W} {enabled : ι → σ → Bool}
  {quiet always : ∀ β, Op β → Prop} {idle : σ → Prop} {still : ι → L → σ → Prop}
  (h : T.Shares O F enabled quiet always idle still)

include h

omit [DecidableEq ι] in
theorem idle_writes {ps : List (V × W)} {s : σ} : idle (F.writes ps s) ↔ idle s := by
  induction ps generalizing s with
  | nil => rfl
  | cons p ps ih => exact ih.trans h.idle_write

omit [DecidableEq ι] in
theorem quiet_writes {i : ι} {e : ε} {β : Type} {o : Op β} (ho : quiet β o) (ps : List (V × W))
    (s : σ) : (T.sem i e β o).run (F.writes ps s) =
      ((T.sem i e β o).run s).map fun r => (r.1, F.writes ps r.2) := by
  induction ps generalizing s with
  | nil => exact Option.map_id'.symm
  | cons p ps ih =>
    refine (ih (F.write p s)).trans ?_
    rw [h.quiet_write p s ho, Option.map_map]
    rfl

omit [DecidableEq ι] in
theorem parked_writes (i : ι) (ps : List (V × W)) (s : σ) (q : Prog Op α) :
    T.parked i (F.writes ps s) q = T.parked i s q := by
  induction ps generalizing s with
  | nil => rfl
  | cons p ps ih =>
    refine (ih (F.write p s)).trans ?_
    cases q with
    | ret a => rfl
    | call o k => exact h.yields_write i _ o p s

/-- A thread that has yielded has yielded as one without variables, too. -/
theorem parked {env : Option (V → W)} {i : ι} {x : Stacked ι σ}
    {p : Prog (LocalOp V W Op) α} {q : Prog Op α} (hm : p.Mirrors quiet always F.waits env q)
    (hp : (T.stacked F enabled).parked i x p = true) : T.parked i x.state q = true := by
  have henabled : enabled i x.state = true → T.parked i x.state q = true := by
    intro he
    cases q with
    | ret a => rfl
    | call o k => exact h.enabled_yields he
  cases hm with
  | ret => rfl
  | op => exact hp
  | get => exact henabled hp
  | @set _ _ _ _ q hq _ =>
    rcases (Bool.or_eq_true ..).mp hp with he | hw
    · exact henabled he
    · have halways := hq hw
      cases q with
      | ret a => rfl
      | call o k => exact h.always_yields halways
  | enter => exact henabled hp
  | leave => rfl

end Shares

/-! ## The simulation -/

/-- The threads do what others do that have their variables for themselves. Some variables have
been written that are yet to be scribbled there. -/
structure Sim (T : Threads Op ι σ ε α L) (F : Frame σ V W) (quiet always : ∀ β, Op β → Prop)
    (idle : σ → Prop) (z : ι) (a₀ : α) (c₂ : Config (LocalOp V W Op) ι (Stacked ι σ) α)
    (c₁ : Config Op ι σ α) (pend : List (V × W)) : Prop where
  /-- the state -/
  state : c₂.shared.state = F.writes pend c₁.shared
  /-- the programs -/
  prog : ∀ i, (c₂.prog i).Mirrors quiet always F.waits (F.env c₂.shared i) (c₁.prog i)
  /-- one thread has no program -/
  scribe : c₁.prog z = .ret a₀
  /-- who may go on here may go on there -/
  cur : c₁.cur = c₂.cur ∨ ∀ i, (T.scribbled z F.write).free c₁ i = true
  /-- the thread that ran last has written the variables -/
  pending : pend ≠ [] → (∃ i, c₂.cur = some i ∧ i ∈ c₂.shared.inside) ∧ idle c₁.shared

namespace Shares

variable {T : Threads Op ι σ ε α L} {O : T.Outline G} {F : Frame σ V W} {enabled : ι → σ → Bool}
  {quiet always : ∀ β, Op β → Prop} {idle : σ → Prop} {still : ι → L → σ → Prop}
  (h : T.Shares O F enabled quiet always idle still) {z : ι} {a₀ : α}
  {c₂ c₂' : Config (LocalOp V W Op) ι (Stacked ι σ) α}
  {c₁ : Config Op ι σ α}
  {pend pend' : List (V × W)} {i : ι} {g : G}

/-- The proof about the threads without variables. -/
abbrev outline (O : T.Outline G) (F : Frame σ V W) (idle : σ → Prop) (z : ι) :
    (T.scribbled z F.write).Outline G := O.scribbled z F.write fun _ => idle

/-- The variables of a thread do not change if it stays where it is and nobody writes to them. -/
theorem env_congr {x x' : Stacked ι σ} {j : ι} (hin : j ∈ x'.inside ↔ j ∈ x.inside)
    (hread : j ∈ x.inside → F.read x'.state = F.read x.state) : F.env x' j = F.env x j := by
  unfold Frame.env
  by_cases hj : j ∈ x.inside
  · rw [if_pos hj, if_pos (hin.mpr hj), hread hj]
  · rw [if_neg hj, if_neg fun hj' => hj (hin.mp hj')]

include h

/-- Whoever may go on with variables may go on without, or everybody may. -/
theorem free_cases (hsim : T.Sim F quiet always idle z a₀ c₂ c₁ pend)
    (hfree : (T.stacked F enabled).free c₂ i = true) :
    c₁.cur = c₂.cur ∧ c₂.cur = some i ∨ ∀ j, (T.scribbled z F.write).free c₁ j = true := by
  rcases hsim.cur with heq | hall
  · by_cases hi : c₂.cur = some i
    · exact .inl ⟨heq, hi⟩
    · refine .inr fun j => free_of_parked fun k hk _ => ?_
      have hk₂ : c₂.cur = some k := heq ▸ hk
      have hki : k ≠ i := fun he => hi (he ▸ hk₂)
      have hpark := h.parked (hsim.prog k) (parked_of_free hfree hk₂ hki)
      rw [hsim.state, h.parked_writes] at hpark
      exact hpark
  · exact .inr hall

theorem free (hsim : T.Sim F quiet always idle z a₀ c₂ c₁ pend)
    (hfree : (T.stacked F enabled).free c₂ i = true) :
    (T.scribbled z F.write).free c₁ i = true := by
  rcases h.free_cases hsim hfree with ⟨heq, hi⟩ | hall
  · rw [Threads.free, heq, hi]
    simp
  · exact hall i

theorem sound (hO : O.Sound) : (outline O F idle z).Sound :=
  hO.scribbled h.inv_write h.rely_write

/-- The variables that have been written are scribbled, when the thread that has no program may
go on. -/
theorem flush (hO : O.Sound) (hsim : T.Sim F quiet always idle z a₀ c₂ c₁ pend)
    (hmeets : (outline O F idle z).Meets c₁ g)
    (hfree : (T.scribbled z F.write).free c₁ z = true) :
    ∃ c₁' g', T.Sim F quiet always idle z a₀ c₂ c₁' [] ∧ (outline O F idle z).Meets c₁' g' := by
  induction pend generalizing c₁ g with
  | nil => exact ⟨c₁, g, hsim, hmeets⟩
  | cons p ps ih =>
    have ha := hsim.scribe
    obtain ⟨hlast, hidle⟩ := hsim.pending (by simp)
    have hact : (T.scribbled z F.write).act z (.inr p) a₀ c₁.shared =
        some (.ret a₀, F.write p c₁.shared) := if_pos rfl
    have hallowed : (outline O F idle z).Allowed c₁ (.act z (.inr p)) := hidle
    obtain ⟨-, g', hmeets'⟩ := hmeets.step (h.sound hO) hallowed (step_act hfree ha hact)
    have hprog : ∀ j, (c₁.next z (.ret a₀) (F.write p c₁.shared)).prog j = c₁.prog j := by
      intro j
      by_cases hj : j = z
      · rw [hj, Config.next_prog_self, ha]
      · exact c₁.next_prog_of_ne _ _ hj
    have hall : ∀ j, (T.scribbled z F.write).free (c₁.next z (.ret a₀) (F.write p c₁.shared)) j =
        true := by
      refine fun j => free_of_parked fun k hk _ => ?_
      obtain rfl := Option.some.inj hk
      rw [Config.next_prog_self]
      rfl
    have hsim' : T.Sim F quiet always idle z a₀ c₂ (c₁.next z (.ret a₀) (F.write p c₁.shared))
        ps := by
      refine ⟨hsim.state, fun j => ?_, Config.next_prog_self .., .inr hall,
        fun _ => ⟨hlast, h.idle_write.mpr hidle⟩⟩
      rw [hprog]
      exact hsim.prog j
    exact ih hsim' hmeets' (hall z)

/-- So they are when another thread goes on, or one that yields before what it does next. -/
theorem settle (hO : O.Sound) (hsim : T.Sim F quiet always idle z a₀ c₂ c₁ pend)
    (hmeets : (outline O F idle z).Meets c₁ g)
    (hfree : (T.stacked F enabled).free c₂ i = true)
    (hpark : c₂.cur = some i → T.parked i c₁.shared (c₁.prog i) = true) :
    ∃ c₁' g', T.Sim F quiet always idle z a₀ c₂ c₁' [] ∧ (outline O F idle z).Meets c₁' g' := by
  refine h.flush hO hsim hmeets ?_
  rcases h.free_cases hsim hfree with ⟨heq, hi⟩ | hall
  · refine free_of_parked fun j hj _ => ?_
    obtain rfl := Option.some.inj ((heq.trans hi).symm.trans hj)
    exact hpark hi
  · exact hall z

/-- Before a step of a thread, it alone has written variables that are yet to be scribbled. -/
theorem own (hO : O.Sound) (hsim : T.Sim F quiet always idle z a₀ c₂ c₁ pend)
    (hmeets : (outline O F idle z).Meets c₁ g)
    (hfree : (T.stacked F enabled).free c₂ i = true) :
    ∃ c₁' pend' g', T.Sim F quiet always idle z a₀ c₂ c₁' pend' ∧
      (outline O F idle z).Meets c₁' g' ∧
        (pend' ≠ [] → c₂.cur = some i ∧ i ∈ c₂.shared.inside) := by
  by_cases hi : c₂.cur = some i
  · refine ⟨c₁, pend, g, hsim, hmeets, fun hne => ?_⟩
    obtain ⟨⟨j, hj, hin⟩, -⟩ := hsim.pending hne
    obtain rfl := Option.some.inj (hi.symm.trans hj)
    exact ⟨hi, hin⟩
  · obtain ⟨c₁', g', hsim', hmeets'⟩ := h.settle hO hsim hmeets hfree fun he => absurd he hi
    exact ⟨c₁', [], g', hsim', hmeets', fun hne => absurd rfl hne⟩

/-! ## One step -/

/-- A step that is not seen without variables. -/
theorem local_step (hsim : T.Sim F quiet always idle z a₀ c₂ c₁ pend)
    (hfree : (T.stacked F enabled).free c₂ i = true)
    {p : Prog (LocalOp V W Op) α} {x : Stacked ι σ} (hstate : x.state = F.writes pend' c₁.shared)
    (hprog : p.Mirrors quiet always F.waits (F.env x i) (c₁.prog i))
    (hothers : ∀ j, j ≠ i → F.env x j = F.env c₂.shared j)
    (hpend : pend' ≠ [] → i ∈ x.inside ∧ idle c₁.shared) :
    T.Sim F quiet always idle z a₀ (c₂.next i p x) c₁ pend' := by
  refine ⟨hstate, fun j => ?_, hsim.scribe, ?_, fun hne => ⟨⟨i, rfl, (hpend hne).1⟩, (hpend hne).2⟩⟩
  · by_cases hj : j = i
    · subst hj
      rw [Config.next_prog_self]
      exact hprog
    · rw [c₂.next_prog_of_ne _ _ hj, Config.next_shared, hothers j hj]
      exact hsim.prog j
  · rcases h.free_cases hsim hfree with ⟨heq, hi⟩ | hall
    · exact .inl (heq.trans hi)
    · exact .inr hall

/-- A thread calls an operation that is quiet, or no variables are to be scribbled. -/
theorem op_step (hO : O.Sound) (hsim : T.Sim F quiet always idle z a₀ c₂ c₁ pend)
    (hmeets : (outline O F idle z).Meets c₁ g)
    (hfree : (T.stacked F enabled).free c₂ i = true) (halone : Alone idle c₂.shared) {e : ε}
    {β : Type} {o : Op β} {k : β → Prog (LocalOp V W Op) α} {k' : β → Prog Op α} {b : β} {s' : σ}
    (hp : c₁.prog i = .call o k')
    (hk : ∀ b, (k b).Mirrors quiet always F.waits (F.env c₂.shared i) (k' b))
    (hquiet : pend ≠ [] → quiet β o ∧ i ∈ c₂.shared.inside)
    (hallow : O.allow i e β o c₂.shared.state)
    (hsem : (T.sem i e β o).run c₂.shared.state = some (b, s')) :
    (pend = [] → O.good i β o c₂.shared.state s') ∧ ∃ c₁' g',
      T.Sim F quiet always idle z a₀ (c₂.next i (k b) ⟨s', c₂.shared.inside⟩) c₁' pend ∧
        (outline O F idle z).Meets c₁' g' := by
  -- the operation does the same before the variables are written
  obtain ⟨s₁, hrun, rfl⟩ : ∃ s₁, (T.sem i e β o).run c₁.shared = some (b, s₁) ∧
      s' = F.writes pend s₁ := by
    rw [hsim.state] at hsem
    by_cases hne : pend = []
    · subst hne
      exact ⟨s', hsem, rfl⟩
    · rw [h.quiet_writes (hquiet hne).1, Option.map_eq_some_iff] at hsem
      obtain ⟨⟨b', s₁⟩, hrun, heq⟩ := hsem
      obtain ⟨rfl, rfl⟩ := Prod.mk.inj heq
      exact ⟨s₁, hrun, rfl⟩
  have hallow₁ : O.allow i e β o c₁.shared := by
    by_cases hne : pend = []
    · subst hne
      have hs : c₂.shared.state = c₁.shared := hsim.state
      exact hs ▸ hallow
    · exact h.quiet_allow (hquiet hne).1
  have hallowed : (outline O F idle z).Allowed c₁ (.call i e) := by
    rw [Outline.Allowed, hp]
    exact hallow₁
  have hstep : (T.scribbled z F.write).Step c₁ (.call i e) (c₁.next i (k' b) s₁) :=
    step_call (h.free hsim hfree) hp hrun
  obtain ⟨hgood, g', hmeets'⟩ := hmeets.step (h.sound hO) hallowed hstep
  rw [Outline.Good, hp] at hgood
  have hgood : O.good i β o c₁.shared s₁ := hgood
  refine ⟨fun hne => ?_, c₁.next i (k' b) s₁, g', ⟨rfl, fun j => ?_, ?_, .inl rfl, fun hne => ?_⟩,
    hmeets'⟩
  · subst hne
    have hs : c₂.shared.state = c₁.shared := hsim.state
    rw [hs]
    exact hgood
  · have henv : F.env ⟨F.writes pend s₁, c₂.shared.inside⟩ j = F.env c₂.shared j := by
      refine env_congr Iff.rfl fun hj => ?_
      have hidle := halone.2 (List.ne_nil_of_mem hj)
      rw [hsim.state, h.idle_writes] at hidle
      rw [hsim.state]
      exact F.read_writes_congr (h.good_read hgood hidle)
    rw [Config.next_shared, henv]
    by_cases hj : j = i
    · subst hj
      rw [Config.next_prog_self, Config.next_prog_self]
      exact hk b
    · rw [c₂.next_prog_of_ne _ _ hj, c₁.next_prog_of_ne _ _ hj]
      exact hsim.prog j
  · have ha := hsim.scribe
    have hz : z ≠ i := fun he => by simp [he ▸ ha] at hp
    exact (c₁.next_prog_of_ne _ _ hz).trans ha
  · obtain ⟨-, hidle⟩ := hsim.pending hne
    exact ⟨⟨i, rfl, (hquiet hne).2⟩, h.quiet_idle (hquiet hne).1 hrun hidle⟩

/-- A thread calls an operation. It is good, unless it is a quiet one. -/
theorem call_step (hO : O.Sound) (hsim : T.Sim F quiet always idle z a₀ c₂ c₁ pend)
    (hmeets : (outline O F idle z).Meets c₁ g)
    (hfree : (T.stacked F enabled).free c₂ i = true) (halone : Alone idle c₂.shared) {e : ε}
    {β : Type} {o : Op β} {k : β → Prog (LocalOp V W Op) α} {b : β} {s' : σ}
    (hp : c₂.prog i = .call (.op o) k) (hallow : O.allow i e β o c₂.shared.state)
    (hsem : (T.sem i e β o).run c₂.shared.state = some (b, s')) :
    (¬ quiet β o → O.good i β o c₂.shared.state s') ∧ ∃ c₁' pend' g',
      T.Sim F quiet always idle z a₀
        (c₂.next i (k b) ⟨s', c₂.shared.inside⟩) c₁' pend' ∧
        (outline O F idle z).Meets c₁' g' := by
  obtain ⟨c, ps, g₁, hsim₁, hmeets₁, hown⟩ := h.own hO hsim hmeets hfree
  have hm := hsim₁.prog i
  rw [hp] at hm
  generalize hq : c.prog i = q at hm
  generalize hx : F.env c₂.shared i = x at hm
  cases hm with
  | @op _ _ _ _ k' ho hk =>
    subst hx
    by_cases hnow : ps ≠ [] → quiet β o
    · obtain ⟨hgood, c', g', hsim', hmeets'⟩ := h.op_step hO hsim₁ hmeets₁ hfree halone hq hk
        (fun hne => ⟨hnow hne, (hown hne).2⟩) hallow hsem
      exact ⟨fun hno => hgood (by_contra fun hne => hno (hnow hne)), c', ps, g', hsim', hmeets'⟩
    · -- it yields before this operation, so the variables can be scribbled first
      have hne : ps ≠ [] ∧ ¬ quiet β o := by
        rw [Classical.not_imp] at hnow
        exact hnow
      obtain ⟨-, hin⟩ := hown hne.1
      have halways : always β o := by
        refine (ho ?_).resolve_left hne.2
        rw [Frame.env, if_pos hin]
        rfl
      have hpark : T.parked i c.shared (c.prog i) = true := by
        rw [hq]
        exact h.always_yields halways
      obtain ⟨c', g₂, hsim₂, hmeets₂⟩ := h.settle hO hsim₁ hmeets₁ hfree fun _ => hpark
      have hm₂ := hsim₂.prog i
      rw [hp] at hm₂
      generalize hq₂ : c'.prog i = q₂ at hm₂
      generalize hx₂ : F.env c₂.shared i = x₂ at hm₂
      cases hm₂ with
      | @op _ _ _ _ k₂ _ hk₂ =>
        subst hx₂
        obtain ⟨hgood, c₃, g₃, hsim₃, hmeets₃⟩ := h.op_step hO hsim₂ hmeets₂ hfree halone hq₂ hk₂
          (fun hno => absurd rfl hno) hallow hsem
        exact ⟨fun _ => hgood rfl, c₃, [], g₃, hsim₃, hmeets₃⟩

/-- A thread goes on whose program has ended. -/
theorem act_step (hO : O.Sound)
    (hz : ∀ l s p s', T.act z l a₀ s = some (p, s') → p = .ret a₀)
    (hsim : T.Sim F quiet always idle z a₀ c₂ c₁ pend) (hmeets : (outline O F idle z).Meets c₁ g)
    (hfree : (T.stacked F enabled).free c₂ i = true) {l : L} {a : α} {p : Prog Op α} {s' : σ}
    (hp : c₂.prog i = .ret a) (hallow : O.allowAct i l c₂.shared.state)
    (hact : T.act i l a c₂.shared.state = some (p, s')) :
    O.goodAct i l c₂.shared.state s' ∧ (Alone idle c₂.shared →
      (c₂.shared.inside ≠ [] → still i l c₂.shared.state) → ∃ c₁' g',
        T.Sim F quiet always idle z a₀
          (c₂.next i p.embed ⟨s', c₂.shared.inside.filter (· ≠ i)⟩) c₁' [] ∧
          (outline O F idle z).Meets c₁' g') := by
  have hret : ∀ {c ps}, T.Sim F quiet always idle z a₀ c₂ c ps → c.prog i = .ret a := by
    intro c ps hs
    have hm := hs.prog i
    rw [hp] at hm
    generalize c.prog i = q at hm
    generalize F.env c₂.shared i = x at hm
    cases hm
    rfl
  have hpark : T.parked i c₁.shared (c₁.prog i) = true := by
    rw [hret hsim]
    rfl
  obtain ⟨c, g₁, hsim₁, hmeets₁⟩ := h.settle hO hsim hmeets hfree fun _ => hpark
  have hs : c₂.shared.state = c.shared := hsim₁.state
  rw [hs] at hallow hact ⊢
  have hallowed : (outline O F idle z).Allowed c (.act i (.inl l)) := hallow
  have hstep : (T.scribbled z F.write).Step c (.act i (.inl l)) (c.next i p s') :=
    step_act (h.free hsim₁ hfree) (hret hsim₁) hact
  obtain ⟨hgood, g', hmeets'⟩ := hmeets₁.step (h.sound hO) hallowed hstep
  have hgood : O.goodAct i l c.shared s' := hgood
  refine ⟨hgood, fun halone hstill => ⟨c.next i p s', g', ⟨rfl, fun j => ?_, ?_, .inl rfl,
    fun hno => absurd rfl hno⟩, hmeets'⟩⟩
  · by_cases hj : j = i
    · subst hj
      have henv : F.env ⟨s', c₂.shared.inside.filter (· ≠ j)⟩ j = none := if_neg (by simp)
      rw [Config.next_prog_self, Config.next_prog_self, Config.next_shared, henv]
      exact Prog.mirrors_embed p
    · have henv : F.env ⟨s', c₂.shared.inside.filter (· ≠ i)⟩ j = F.env c₂.shared j := by
        refine env_congr (by simp [hj]) fun hin => ?_
        have hne := List.ne_nil_of_mem hin
        have hidle := halone.2 hne
        rw [hs] at hidle ⊢
        exact h.act_read hgood hact (hs ▸ hstill hne) hidle
      rw [c₂.next_prog_of_ne _ _ hj, c.next_prog_of_ne _ _ hj, Config.next_shared, henv]
      exact hsim₁.prog j
  · have ha' := hsim₁.scribe
    by_cases hzi : z = i
    · subst hzi
      obtain rfl := Prog.ret.inj ((hret hsim₁).symm.trans ha')
      obtain rfl := hz l c.shared p s' hact
      exact Config.next_prog_self ..
    · exact (c.next_prog_of_ne _ _ hzi).trans ha'

/-- A thread reads or writes a variable, or its function begins or ends. -/
theorem variable_step (hO : O.Sound) (hsim : T.Sim F quiet always idle z a₀ c₂ c₁ pend)
    (hmeets : (outline O F idle z).Meets c₁ g)
    (hfree : (T.stacked F enabled).free c₂ i = true) (halone : Alone idle c₂.shared) {e : ε}
    {β : Type} {o : LocalOp V W Op β} {k : β → Prog (LocalOp V W Op) α} {b : β} {x : Stacked ι σ}
    (hp : c₂.prog i = .call o k) (ho : ∀ o', o ≠ .op o')
    (hsem : ((T.stacked F enabled).sem i e β o).run c₂.shared = some (b, x)) :
    ∃ c₁' pend' g', T.Sim F quiet always idle z a₀ (c₂.next i (k b) x) c₁' pend' ∧
      (outline O F idle z).Meets c₁' g' := by
  obtain ⟨c, ps, g₁, hsim₁, hmeets₁, hown⟩ := h.own hO hsim hmeets hfree
  have hpend : ps ≠ [] → i ∈ c₂.shared.inside ∧ idle c.shared :=
    fun hne => ⟨(hown hne).2, (hsim₁.pending hne).2⟩
  have hin : ∀ {env}, F.env c₂.shared i = some env → i ∈ c₂.shared.inside ∧
      env = F.read c₂.shared.state := by
    intro env henv
    unfold Frame.env at henv
    split at henv
    · next hi => exact ⟨hi, (Option.some.inj henv).symm⟩
    · cases henv
  have hm := hsim₁.prog i
  rw [hp] at hm
  generalize hq : c.prog i = q at hm
  generalize hx : F.env c₂.shared i = y at hm
  cases hm with
  | op => exact absurd rfl (ho _)
  | get hk =>
    obtain ⟨rfl, rfl⟩ := Prod.mk.inj (Option.some.inj hsem)
    obtain ⟨-, rfl⟩ := hin hx
    refine ⟨c, ps, g₁, h.local_step hsim₁ hfree hsim₁.state ?_ (fun _ _ => rfl) hpend, hmeets₁⟩
    rw [hq, hx]
    exact hk
  | @set env v w k q _ hk =>
    obtain ⟨rfl, rfl⟩ := Prod.mk.inj (Option.some.inj hsem)
    obtain ⟨hi, rfl⟩ := hin hx
    have hidle := halone.2 (List.ne_nil_of_mem hi)
    refine ⟨c, ps ++ [(v, w)], g₁, h.local_step hsim₁ hfree ?_ ?_ (fun j hj => ?_)
      fun _ => ⟨hi, ?_⟩, hmeets₁⟩
    · rw [F.writes_concat, ← hsim₁.state]
    · rw [hq, Frame.env, if_pos hi, F.read_write]
      exact hk
    · -- nobody else is in the function
      have hno : j ∉ c₂.shared.inside := by
        intro hjin
        obtain ⟨l, hl⟩ := List.length_eq_one_iff.mp
          (Nat.le_antisymm halone.1 (List.length_pos_of_mem hi))
        rw [hl, List.mem_singleton] at hi hjin
        exact hj (hjin.trans hi.symm)
      unfold Frame.env
      rw [if_neg hno, if_neg hno]
    · rw [hsim₁.state, h.idle_writes] at hidle
      exact hidle
  | enter hk =>
    obtain ⟨rfl, rfl⟩ := Prod.mk.inj (Option.some.inj hsem)
    refine ⟨c, ps, g₁, h.local_step hsim₁ hfree hsim₁.state ?_ (fun j hj => ?_)
      fun hne => ⟨List.mem_cons_self, (hpend hne).2⟩, hmeets₁⟩
    · rw [hq, Frame.env, if_pos List.mem_cons_self]
      exact hk _
    · exact env_congr (by simp [hj]) fun _ => rfl
  | leave hk =>
    obtain ⟨rfl, rfl⟩ := Prod.mk.inj (Option.some.inj hsem)
    have hpark : T.parked i c.shared (c.prog i) = true := by
      rw [hq]
      rfl
    obtain ⟨c', g₂, hsim₂, hmeets₂⟩ := h.settle hO hsim₁ hmeets₁ hfree fun _ => hpark
    have hm₂ := hsim₂.prog i
    rw [hp] at hm₂
    generalize hq₂ : c'.prog i = q₂ at hm₂
    generalize F.env c₂.shared i = y₂ at hm₂
    cases hm₂ with
    | leave hk₂ =>
      refine ⟨c', [], g₂, h.local_step hsim₂ hfree hsim₂.state ?_ (fun j hj => ?_)
        fun hno => absurd rfl hno, hmeets₂⟩
      · have hout : F.env ⟨c₂.shared.state, c₂.shared.inside.filter (· ≠ i)⟩ i = none :=
          if_neg (by simp)
        rw [hq₂, hout]
        exact hk₂
      · exact env_congr (by simp [hj]) fun _ => rfl

/-- A step with variables is a step without, or none. -/
theorem step (hO : O.Sound)
    (hz : ∀ l s p s', T.act z l a₀ s = some (p, s') → p = .ret a₀)
    (hsim : T.Sim F quiet always idle z a₀ c₂ c₁ pend)
    (hmeets : (outline O F idle z).Meets c₁ g) {e : Event ι ε L} (hok : Follows O idle still c₂ e)
    (hstep : (T.stacked F enabled).Step c₂ e c₂') :
    ∃ c₁' pend' g', T.Sim F quiet always idle z a₀ c₂' c₁' pend' ∧
      (outline O F idle z).Meets c₁' g' := by
  have hfree := hstep.free
  obtain ⟨halone, hok⟩ := hok
  rcases hstep.cases with
    ⟨i, ans, β, o, k, b, x, rfl, hp, hsem, rfl⟩ | ⟨i, l, a, p, x, rfl, hp, hact, rfl⟩
  · cases o with
    | op o =>
      simp only [hp] at hok
      obtain ⟨⟨b', s'⟩, hrun, heq⟩ := Option.map_eq_some_iff.mp hsem
      obtain ⟨rfl, rfl⟩ := Prod.mk.inj heq
      exact (h.call_step hO hsim hmeets hfree halone hp hok hrun).2
    | get v => exact h.variable_step hO hsim hmeets hfree halone hp (fun _ => by simp) hsem
    | set v w => exact h.variable_step hO hsim hmeets hfree halone hp (fun _ => by simp) hsem
    | enter => exact h.variable_step hO hsim hmeets hfree halone hp (fun _ => by simp) hsem
    | leave => exact h.variable_step hO hsim hmeets hfree halone hp (fun _ => by simp) hsem
  · obtain ⟨⟨p', s'⟩, hact', heq⟩ := Option.map_eq_some_iff.mp hact
    obtain ⟨rfl, rfl⟩ := Prod.mk.inj heq
    obtain ⟨c₁', g', hsim', hmeets'⟩ :=
      (h.act_step hO hz hsim hmeets hfree hp hok.1 hact').2 halone hok.2
    exact ⟨c₁', [], g', hsim', hmeets'⟩

/-! ## Runs -/

variable {init : Config (LocalOp V W Op) ι (Stacked ι σ) α → Prop}
  {tr : List (Config (LocalOp V W Op) ι (Stacked ι σ) α × Event ι ε L)}

/-- The threads do what others do that have their variables for themselves, in every run whose steps
are followed. -/
theorem run_sim (hO : O.Sound)
    (hz : ∀ l s p s', T.act z l a₀ s = some (p, s') → p = .ret a₀)
    (hinit : ∀ c₂, init c₂ → ∃ c₁ g,
      T.Sim F quiet always idle z a₀ c₂ c₁ [] ∧
        (outline O F idle z).Begins c₁ g)
    (hrun : Transition.Run init (T.stacked F enabled).Step tr c₂)
    (hok : ∀ x ∈ tr, Follows O idle still x.1 x.2) :
    ∃ c₁ pend g, T.Sim F quiet always idle z a₀ c₂ c₁ pend ∧
      (outline O F idle z).Meets c₁ g := by
  refine hrun.invariant (I := fun c₂ => ∃ c₁ pend g,
    T.Sim F quiet always idle z a₀ c₂ c₁ pend ∧
      (outline O F idle z).Meets c₁ g) (G := Follows O idle still) ?_ ?_ hok
  · intro c₂ hc₂
    obtain ⟨c₁, g, hsim, hbegin⟩ := hinit c₂ hc₂
    exact ⟨c₁, [], g, hsim, (h.sound hO).begins hbegin⟩
  · rintro c₂ e c₂' ⟨c₁, pend, g, hsim, hmeets⟩ hfollows hstep
    exact h.step hO hz hsim hmeets hfollows hstep

end Shares

end

end Threads
