import Jaeos.Boot

/-!
# Runs of the machine

`Config.core` is what a reader of the machine sees of the core. `Config.Sound` is
the invariant of the live states: the store represents what the reader sees, and
the structural invariant holds. Every run keeps it as long as no kill meets a
ready process with a `p_semAdd` (`Config.KillSafe`) and SYS3 and SYS4 stay out of
`semaphoreArray` (`Request.Legal`).
-/

namespace Jaeos

open Forest

variable {n : ℕ}

/-! ## What a reader sees -/

/-- The queues and the process tree that a reader of the store sees. -/
def Store.lists (st : Store n) : Lists n where
  q
    | .free => st.freeList
    | .ready => st.readyList
    | .blocked a => st.blockedOn a
  parent := st.pPrnt
  kids := st.children
  semAdd := st.pSemAdd

/-- The nucleus as a reader sees it. -/
def Nucleus.abs (c : Nucleus n) : Abs n where
  toGlobals := c.toGlobals
  data := c.store.toPcbData
  lists := c.store.lists

/-- The core as a reader sees it. -/
def Config.core (c : Config n) : Core n := c.nuc.abs.core

/-- A system call has put the state of its caller into the old area. -/
def Nucleus.atCall (c : Nucleus n) (old : State) : Nucleus n := { c with sysCallOld := old }

/-- A reader sees what the store represents. -/
theorem Rep.lists_eq {st : Store n} {d : PcbData n} {l : Lists n} (h : Rep st d l) :
    st.lists = l := by
  have hq : st.lists.q = l.q := by
    funext i
    cases i with
    | free => exact h.freeList_eq
    | ready => exact h.readyList_eq
    | blocked a => exact h.blockedOn_eq a
  have hkids : st.lists.kids = l.kids := funext h.tree.children_eq
  cases l
  simp only [Store.lists, Lists.mk.injEq] at hq hkids ⊢
  exact ⟨hq, h.tree.prnt, hkids, h.semAdd⟩

theorem Nucleus.Rep.abs_eq {c : Nucleus n} {s : Abs n} (h : c.Rep s) : c.abs = s := by
  have hglobals := h.globals
  have hdata := h.store.data
  have hlists := h.store.lists_eq
  cases s
  simp only [Nucleus.abs, Abs.mk.injEq]
  exact ⟨hglobals, hdata, hlists⟩

/-! ## The invariant of the live states -/

/-- The store holds well-formed queues, a well-formed active semaphore list and a well-formed
forest, and each PCB is in one place. -/
structure Nucleus.WellFormed (c : Nucleus n) : Prop where
  /-- the store represents what a reader sees -/
  rep : c.Rep c.abs
  /-- what he sees is in order -/
  ok : c.store.lists.Ok c.currentProcess

/-- Only the store and the current process matter. -/
theorem Nucleus.WellFormed.congr {c c' : Nucleus n} (h : c.WellFormed) (hstore : c'.store = c.store)
    (hcur : c'.currentProcess = c.currentProcess) : c'.WellFormed := by
  refine ⟨⟨rfl, ?_⟩, by rw [hstore, hcur]; exact h.ok⟩
  change Jaeos.Rep c'.store c'.store.toPcbData c'.store.lists
  rw [hstore]
  exact h.rep.store

/-- Nor do the states of the processes. -/
theorem Nucleus.WellFormed.withStates {c c' : Nucleus n} {pS : Fin n → State} (h : c.WellFormed)
    (hstore : c'.store = { c.store with pS := pS })
    (hcur : c'.currentProcess = c.currentProcess) : c'.WellFormed := by
  have hst := h.rep.store
  have hrep : Jaeos.Rep c'.store c'.store.toPcbData c'.store.lists := by
    rw [hstore]
    exact ⟨rfl, hst.semAdd, hst.rings, hst.disjoint, hst.free, hst.ready, hst.asl,
      hst.tree.congr rfl rfl rfl rfl⟩
  have hlists : c'.store.lists = c.store.lists := (congrArg Store.lists hstore).trans rfl
  refine ⟨⟨rfl, hrep⟩, ?_⟩
  rw [hlists, hcur]
  exact h.ok

variable [Layout]

/-- What holds whenever the nucleus has handed back control. -/
structure Config.Sound (c : Config n) : Prop where
  /-- the store represents what a reader sees -/
  rep : c.nuc.Rep c.nuc.abs
  /-- the structural invariant -/
  inv : c.core.Inv
  /-- somebody runs -/
  running : c.mode = .running → c.core.cur.isSome
  /-- nobody runs -/
  waiting : c.mode = .waiting → c.core.cur = none

omit [Layout] in
theorem Config.Sound.wellFormed {c : Config n} (h : c.Sound) : c.nuc.WellFormed := ⟨h.rep, h.inv.ok⟩

omit [Layout] in
theorem Config.Sound.cur_not_free {c : Config n} {p : Fin n} (h : c.Sound)
    (hcur : c.nuc.currentProcess = some p) : p ∉ c.nuc.store.freeList := by
  have hok : c.nuc.store.lists.Ok c.nuc.currentProcess := h.inv.ok
  rw [hcur] at hok
  exact hok.cur_loose .free

/-- SYS3 and SYS4 are not called with an address in `semaphoreArray`. -/
def Request.Legal : Request → Prop
  | .verhogen a | .passeren a => ¬ InSemaphoreArray a
  | _ => True

instance (r : Request) : Decidable r.Legal :=
  match r with
  | .verhogen a | .passeren a => inferInstanceAs (Decidable (¬ InSemaphoreArray a))
  | .create _ | .terminate | .sesv _ | .getCpuTime | .waitForClock | .waitForIo _ | .trap _ | .timer
  | .device _ _ _ | .spurious => isTrue trivial

/-- No request of the event gives SYS3 or SYS4 an address in `semaphoreArray`. -/
def Event.Legal : Event → Prop
  | .write _ _ => True
  | .trap t _ _ => t.request.Legal

instance (e : Event) : Decidable e.Legal :=
  match e with
  | .write _ _ => isTrue trivial
  | .trap t _ _ => inferInstanceAs (Decidable t.request.Legal)

/-- SYS3 and SYS4 have the address of a semaphore outside `semaphoreArray`, and SYS8 names a
device. -/
def Request.Proper : Request → Prop
  | .verhogen a | .passeren a => a ≠ null ∧ ¬ InSemaphoreArray a
  | .waitForIo i => i < clckTimer
  | _ => True

instance (r : Request) : Decidable r.Proper :=
  match r with
  | .verhogen a | .passeren a => inferInstanceAs (Decidable (a ≠ null ∧ ¬ InSemaphoreArray a))
  | .waitForIo i => inferInstanceAs (Decidable (i < clckTimer))
  | .create _ | .terminate | .sesv _ | .getCpuTime | .waitForClock | .trap _ | .timer
  | .device _ _ _ | .spurious => isTrue trivial

/-- The request of the event is proper. -/
def Event.Proper : Event → Prop
  | .write _ _ => True
  | .trap t _ _ => t.request.Proper

instance (e : Event) : Decidable e.Proper :=
  match e with
  | .write _ _ => isTrue trivial
  | .trap t _ _ => inferInstanceAs (Decidable t.request.Proper)

/-- If the event kills the current process, then none of the processes below it is ready with a
`p_semAdd`. -/
def Config.KillSafe (c : Config n) : Event → Prop
  | .write _ _ => True
  | .trap t _ _ =>
    ∀ p, c.core.cur = some p → t.request.Fatal (c.nuc.store.trap p) → c.core.KillSafe p

/-- The event kills nobody, whatever areas have been specified. -/
def Event.Harmless : Event → Prop
  | .write _ _ => True
  | .trap t _ _ => ∀ areas, ¬ t.request.Fatal areas

omit [Layout] in
theorem Event.Harmless.killSafe {e : Event} (h : e.Harmless) (c : Config n) : c.KillSafe e := by
  cases e with
  | write a v => trivial
  | trap t todIn todOut => exact fun p _ hfatal => absurd hfatal (h _)

omit [Layout] in
theorem Trap.Enabled.live {t : Trap} {m : Mode} (h : t.Enabled m) : m.Live := by
  cases t with
  | interrupt _ _ _ => exact h
  | sysCall _ | progTrap _ | tlbTrap _ => exact .inl h

theorem Config.step_live {c c' : Config n} {e : Event} (h : c.step e = some c') : c.mode.Live := by
  cases e with
  | write a v =>
    by_contra hlive
    simp [Config.step, hlive] at h
  | trap t todIn todOut =>
    by_contra hlive
    have henabled : ¬ t.Enabled c.mode := fun he => hlive he.live
    simp [Config.step, henabled] at h

/-! ## Every effect keeps the structural invariant -/

omit [Layout] in
theorem Core.Inv.entered {c : Core n} (h : c.Inv) (t : Trap) : (c.entered t).Inv := by
  rw [Core.entered]
  split
  · exact h.save _ _
  · exact h

theorem Core.Soft.entered {c : Core n} (h : c.Soft) (t : Trap) : (c.entered t).Soft := by
  rw [Core.entered]
  split
  · exact h.save _ _
  · exact h

omit [Layout] in
theorem Wakes.inv {c₀ c : Core n} {a : ℕ} (h : Wakes a c₀ c) (hinv : c₀.Inv) : c.Inv := by
  induction h with
  | refl => exact hinv
  | next _ hq ih => exact (ih.wake hq).soften _

theorem Wakes.soft {c₀ c : Core n} {i : ℕ} (hi : i < maxSema) (h : Wakes (semArr i) c₀ c)
    (hsoft : c₀.Soft) : c.Soft := by
  induction h with
  | refl => exact hsoft
  | next _ hq ih => exact ih.wakeDev hi hq

section

variable {areas : Fin n → TrapAreas} {c c' : Core n} {r : Request} {exit : Exit}

/-- What a live handler leaves behind. -/
theorem Effect.inv (h : Effect areas c r exit c') (hinv : c.Inv)
    (hexit : exit = .ldst ∨ exit = .getNewJob) : c'.Inv := by
  have hadd : ∀ a d, (c.add a d).Inv := fun a d => hinv.setMem a _
  cases h with
  | undefined | clockPanic => simp at hexit
  | createNone | specify | quantumIdle => exact hinv
  | create a hcur hq => exact (hinv.save _ _).create hcur hq
  | kill _ _ _ h => exact h.inv hinv
  | signal | take | ioSignal => exact hadd _ _
  | wake hcur ha hneg hq => exact (hadd _ _).wake hq
  | block a hcur ha => exact (hadd _ _).block hcur ha
  | time => exact hinv.save _ _
  | clock hcur => exact ((hadd _ _).block hcur (semArr_ne_null _)).soften _
  | ioDone hi hcur => exact (hadd _ _).save _ _
  | ioWait hi hcur => exact ((hadd _ _).block hcur (semArr_ne_null _)).soften _
  | passUp type hcur => exact hinv.congr rfl rfl rfl
  | tick h hq => exact (h.inv hinv).setMem _ _
  | quantum hcur => exact hinv.preempt hcur
  | ioWake status keep hi hneg hq => exact (((hadd _ _).wake hq).soften _).save _ _
  | ioLost status keep =>
    cases keep with
    | false => exact hadd _ _
    | true => exact hinv.congr rfl rfl rfl

/-- A live handler keeps the count of the blocked, if SYS3 and SYS4 stay out of the array. -/
theorem Effect.soft (h : Effect areas c r exit c') (hsoft : c.Soft) (hlegal : r.Legal)
    (hexit : exit = .ldst ∨ exit = .getNewJob) : c'.Soft := by
  have hadd : ∀ a d, (c.add a d).Soft := fun a d => hsoft.setMem a _
  cases h with
  | undefined | clockPanic => simp at hexit
  | createNone | specify | quantumIdle => exact hsoft
  | create a hcur hq => exact hsoft.congr rfl fun a => by simp [Core.create, Core.save]
  | kill _ _ _ h => exact h.soft hsoft
  | signal | take | ioSignal => exact hadd _ _
  | wake hcur ha hneg hq => exact (hadd _ _).wake (fun hd => hlegal hd.inSemaphoreArray) hq
  | block a hcur ha => exact (hadd _ _).block hlegal
  | time => exact hsoft.save _ _
  | clock hcur => exact (hadd _ _).blockDev (by decide)
  | ioDone hi hcur => exact (hadd _ _).save _ _
  | ioWait hi hcur => exact (hadd _ _).blockDev hi
  | passUp type hcur => exact hsoft.congr rfl fun _ => rfl
  | tick h hq => exact (h.soft (by decide) hsoft).setMem _ _
  | quantum hcur => exact hsoft.congr rfl fun a => by simp [Core.preempt]
  | ioWake status keep hi hneg hq => exact ((hadd _ _).wakeDev hi hq).save _ _
  | ioLost status keep =>
    cases keep with
    | false => exact hadd _ _
    | true => exact hsoft.congr rfl fun _ => rfl

end

omit [Layout] in
theorem Core.isSome_of_home {c : Core n} (h : Exit.ldst = c.home) : c.cur.isSome := by
  rw [Core.home] at h
  split at h
  · assumption
  · cases h

/-- A handler that goes back to the current process leaves it the current process. -/
theorem Effect.cur {areas : Fin n → TrapAreas} {c c' : Core n} {r : Request}
    (h : Effect areas c r .ldst c') : c'.cur = c.cur ∧ c.cur.isSome := by
  generalize hexit : Exit.ldst = exit at h
  cases h with
  | undefined | kill | block | clock | clockPanic | ioWait | quantum | quantumIdle => cases hexit
  | createNone a hcur | create a hcur | signal a hcur | wake hcur | take a hcur | specify a hcur
  | time hcur | ioDone hi hcur | passUp type hcur => exact ⟨rfl, by rw [hcur]; rfl⟩
  | tick h => exact ⟨h.cur, Core.isSome_of_home hexit⟩
  | ioSignal | ioWake => exact ⟨rfl, Core.isSome_of_home hexit⟩
  | ioLost status keep =>
    cases keep with
    | false => exact ⟨rfl, Core.isSome_of_home hexit⟩
    | true => exact ⟨rfl, Core.isSome_of_home hexit⟩

theorem Sched.soft {c c' : Core n} {v : Verdict} (h : Sched c v c') (hsoft : c.Soft) :
    c'.Soft := by
  cases h with
  | dispatch hq => exact hsoft.congr rfl fun a => by simp [Core.dispatch]
  | halt | panic | wait | returns => exact hsoft.congr rfl fun _ => rfl

omit [Layout] in
/-- What `getNewJob` leaves behind. -/
theorem Sched.inv {c c' : Core n} {v : Verdict} (h : Sched c v c') (hinv : c.Inv)
    (hcur : c.cur = none) : c'.Inv := by
  have hleave : c.leave = c := by simp only [Core.leave, ← hcur]
  cases h with
  | dispatch hq => exact hinv.dispatch hcur hq
  | halt | panic | wait | returns => exact hleave ▸ hinv

/-- What the contract of `main` says about the first state. -/
theorem Boot.config_of_wp (hn : n ≤ maxProc) {b : Boot n} {c : Config n} {Q : Mode → Abs n → Prop}
    (hmain : ∀ s : Abs n, s.toGlobals = b.vars → s.lists = Lists.booted b.tables.pSemAdd →
      b.main.wp NucOp.spec Q s) (hb : b.config = some c) :
    c.nuc.Rep c.nuc.abs ∧ Q c.mode c.nuc.abs := by
  obtain ⟨st, hinit, hrep⟩ := initStore_run b.tables
  obtain ⟨mode, nuc, s', hrun, hrep', hQ⟩ := nucleus_sound (c := { b.vars with store := st })
    (s := { b.vars with data := st.toPcbData, lists := Lists.booted b.tables.pSemAdd }) hn
    ⟨rfl, hrep⟩ (hmain _ rfl rfl)
  obtain rfl := hrep'.abs_eq
  have hconfig : b.config = ((b.main.run NucOp.sem).run { b.vars with store := st }).map
      fun r => ⟨r.1, r.2⟩ := by
    rw [Boot.config, hinit]
    exact (Option.map_eq_bind ..).symm
  rw [hconfig, hrun] at hb
  obtain rfl := Option.some.inj hb
  exact ⟨hrep', hQ⟩

namespace Config.Sound

variable {c c' : Config n} {t : Trap} {todIn todOut : ℤ}

omit [Layout] in
theorem hasCaller (h : c.Sound) (henabled : t.Enabled c.mode) : t.HasCaller c.core := by
  cases t with
  | interrupt _ _ _ => trivial
  | sysCall _ | progTrap _ | tlbTrap _ => exact h.running henabled

/-- An enabled trap that kills safely is served, in one of the ways of `Effect`. -/
theorem handle (hn : n ≤ maxProc) (h : c.Sound) (henabled : t.Enabled c.mode)
    (hsafe : c.KillSafe (.trap t todIn todOut)) :
    ∃ exit nuc', ((t.handle todIn todOut).run NucOp.sem).run c.nuc = some (exit, nuc') ∧
      nuc'.Rep nuc'.abs ∧
      Effect c.nuc.store.trap (c.core.entered t) t.request exit (exit.leave nuc'.abs.core) := by
  obtain ⟨exit, nuc', s', hrun, hrep, heffect⟩ :=
    nucleus_sound hn h.rep (wp_handle t todIn todOut h.inv (h.hasCaller henabled) hsafe)
  obtain rfl := hrep.abs_eq
  exact ⟨exit, nuc', hrun, hrep, heffect⟩

/-- An enabled trap that kills safely is handled, in one of the ways of `Effect`. -/
theorem react (hn : n ≤ maxProc) (h : c.Sound) (henabled : t.Enabled c.mode)
    (hsafe : c.KillSafe (.trap t todIn todOut)) :
    ∃ exit mode nuc' k, c.react t todIn todOut = some ((exit, mode), nuc') ∧ nuc'.Rep nuc'.abs ∧
      Effect c.nuc.store.trap (c.core.entered t) t.request exit k ∧
      Finish exit k mode nuc'.abs.core := by
  obtain ⟨⟨exit, mode⟩, nuc', s', hrun, hrep, k, heffect, hfinish⟩ :=
    nucleus_sound hn h.rep (wp_react t todIn todOut h.inv (h.hasCaller henabled) hsafe)
  obtain rfl := hrep.abs_eq
  exact ⟨exit, mode, nuc', k, hrun, hrep, heffect, hfinish⟩

/-- What a trap has done. -/
theorem trap_cases (hn : n ≤ maxProc) (h : c.Sound) (hsafe : c.KillSafe (.trap t todIn todOut))
    (hstep : c.step (.trap t todIn todOut) = some c') :
    ∃ exit k, Effect c.nuc.store.trap (c.core.entered t) t.request exit k ∧
      Finish exit k c'.mode c'.core ∧ c'.nuc.Rep c'.nuc.abs := by
  by_cases henabled : t.Enabled c.mode
  · obtain ⟨exit, mode, nuc', k, hrun, hrep, heffect, hfinish⟩ :=
      h.react hn henabled hsafe
    rw [Config.step, if_pos henabled, hrun] at hstep
    obtain rfl := Option.some.inj hstep
    exact ⟨exit, k, heffect, hfinish, hrep⟩
  · simp [Config.step, henabled] at hstep

/-- What a trap has done, with the end of its handler. -/
theorem trap_react {t : Trap} {todIn todOut : ℤ} (hn : n ≤ maxProc) (h : c.Sound)
    (hsafe : c.KillSafe (.trap t todIn todOut)) (hstep : c.step (.trap t todIn todOut) = some c') :
    ∃ exit k, c.react t todIn todOut = some ((exit, c'.mode), c'.nuc) ∧
      Effect c.nuc.store.trap (c.core.entered t) t.request exit k ∧
      Finish exit k c'.mode c'.core := by
  by_cases henabled : t.Enabled c.mode
  · obtain ⟨exit, mode, nuc', k, hreact, -, heffect, hfinish⟩ := h.react hn henabled hsafe
    rw [Config.step, if_pos henabled, hreact] at hstep
    obtain rfl := Option.some.inj hstep
    exact ⟨exit, k, hreact, heffect, hfinish⟩
  · simp [Config.step, henabled] at hstep

omit [Layout] in
/-- The invariant is kept by what a live handler and the scheduler do. -/
theorem of_finish {exit : Exit} {k : Core n} (hrep : c'.nuc.Rep c'.nuc.abs)
    (hinv : exit = .ldst ∨ exit = .getNewJob → k.Inv) (hcur : exit = .ldst → k.cur.isSome)
    (hfinish : Finish exit k c'.mode c'.core) (hlive : c'.mode.Live) : c'.Sound := by
  cases exit with
  | ldst =>
    obtain ⟨hmode, hcore⟩ := hfinish
    refine ⟨hrep, hcore ▸ hinv (.inl rfl), fun _ => hcore ▸ hcur rfl, fun hw => ?_⟩
    rw [hmode] at hw
    cases hw
  | getNewJob =>
    obtain ⟨hnone, v, hmode, hsched⟩ := hfinish
    refine ⟨hrep, hsched.inv (hinv (.inr rfl)) hnone, fun hr => ?_, fun hw => ?_⟩
    · rw [hmode] at hr
      generalize c'.core = k' at hsched
      cases hsched with
      | dispatch => rfl
      | halt | panic | wait | returns => cases hr
    · rw [hmode] at hw
      generalize c'.core = k' at hsched
      cases hsched with
      | wait => rfl
      | halt | panic | dispatch | returns => cases hw
  | panic =>
    rw [hfinish] at hlive
    simp [Mode.Live] at hlive
  | undefined =>
    rw [hfinish] at hlive
    simp [Mode.Live] at hlive

/-- Each safe step that ends in a live state keeps the invariant. -/
theorem step (hn : n ≤ maxProc) (h : c.Sound) {e : Event} (hsafe : c.KillSafe e)
    (hstep : c.step e = some c') (hlive : c'.mode.Live) : c'.Sound := by
  cases e with
  | write a v =>
    have hold := Config.step_live hstep
    rw [Config.step, if_pos hold] at hstep
    obtain rfl := Option.some.inj hstep
    exact ⟨⟨rfl, h.rep.store⟩, h.inv.setMem a v, h.running, h.waiting⟩
  | trap t todIn todOut =>
    obtain ⟨exit, k, heffect, hfinish, hrep⟩ := h.trap_cases hn hsafe hstep
    refine of_finish hrep (heffect.inv (h.inv.entered t)) ?_ hfinish hlive
    rintro rfl
    rw [heffect.cur.1]
    exact heffect.cur.2

/-- Each legal step keeps the count of the blocked. -/
theorem step_soft (hn : n ≤ maxProc) (h : c.Sound) (hsoft : c.core.Soft) {e : Event}
    (hlegal : e.Legal) (hsafe : c.KillSafe e) (hstep : c.step e = some c')
    (hlive : c'.mode.Live) : c'.core.Soft := by
  cases e with
  | write a v =>
    have hold := Config.step_live hstep
    rw [Config.step, if_pos hold] at hstep
    obtain rfl := Option.some.inj hstep
    exact hsoft.setMem a v
  | trap t todIn todOut =>
    obtain ⟨exit, k, heffect, hfinish, -⟩ := h.trap_cases hn hsafe hstep
    have hk := heffect.soft (hsoft.entered t) hlegal
    cases exit with
    | ldst => exact hfinish.2 ▸ hk (.inl rfl)
    | getNewJob =>
      obtain ⟨-, v, -, hsched⟩ := hfinish
      exact hsched.soft (hk (.inr rfl))
    | panic =>
      rw [hfinish] at hlive
      simp [Mode.Live] at hlive
    | undefined =>
      rw [hfinish] at hlive
      simp [Mode.Live] at hlive

/-- The state in which `main` calls the scheduler. -/
theorem setup (hn : n ≤ maxProc) {b : Boot n} {nuc : Nucleus n}
    (hsetup : b.setup = some (.getNewJob, nuc)) :
    nuc.Rep nuc.abs ∧ nuc.abs.core.Booted b.vars.mem := by
  obtain ⟨st, hinit, hrep⟩ := initStore_run b.tables
  obtain ⟨exit, nuc', s', hrun, hrep', hpost⟩ := nucleus_sound (c := { b.vars with store := st })
    (s := { b.vars with data := st.toPcbData, lists := Lists.booted b.tables.pSemAdd }) hn
    ⟨rfl, hrep⟩ (wp_prepare b rfl rfl)
  obtain rfl := hrep'.abs_eq
  rw [Boot.setup, hinit] at hsetup
  obtain ⟨rfl, rfl⟩ := Prod.mk.inj (Option.some.inj (hrun.symm.trans hsetup))
  rcases hpost with ⟨-, hexit⟩ | ⟨-, hbooted⟩
  · cases hexit
  · exact ⟨hrep', hbooted⟩

/-- The first state. -/
theorem boot (hn : n ≤ maxProc) {b : Boot n} (hb : b.config = some c) (hlive : c.mode.Live) :
    c.Sound ∧ ∃ (k : Core n) (p : Fin n), k.Booted b.vars.mem ∧ k.lists.q .ready = [p] ∧
      c.core = k.dispatch p [] := by
  obtain ⟨hrep, ⟨-, hmode⟩ | ⟨hmode, k, p, hbooted, hready, hcore⟩⟩ :=
    Boot.config_of_wp hn (fun _ => wp_main b) hb
  · rw [hmode] at hlive
    simp [Mode.Live] at hlive
  · have hcore : c.core = k.dispatch p [] := hcore
    refine ⟨⟨hrep, ?_, fun _ => ?_, fun hw => ?_⟩, k, p, hbooted, hready, hcore⟩
    · rw [hcore]
      exact hbooted.inv.dispatch hbooted.cur hready
    · rw [hcore]
      rfl
    · rw [hmode] at hw
      cases hw

end Config.Sound

/-! ## Every run -/

variable {c : Config n} {tr : List (Config n × Event)}

/-- The live states of a run whose kills are safe. -/
theorem Config.Sound.of_run (hn : n ≤ maxProc) (hrun : Run tr c)
    (hsafe : ∀ x ∈ tr, x.1.KillSafe x.2) (hlive : c.mode.Live) : c.Sound := by
  refine hrun.invariant (I := fun c => c.mode.Live → c.Sound) (G := Config.KillSafe) ?_ ?_ hsafe
    hlive
  · rintro c ⟨b, hb⟩ hlive
    exact (Config.Sound.boot hn hb hlive).1
  · intro c e c' hc hsafe hstep hlive
    exact (hc (Config.step_live hstep)).step hn hsafe hstep hlive

/-- The states that such a run has gone through. -/
theorem Config.Sound.of_mem (hn : n ≤ maxProc) (hrun : Run tr c)
    (hsafe : ∀ x ∈ tr, x.1.KillSafe x.2) : ∀ x ∈ tr, x.1.Sound ∧ x.1.mode.Live := by
  intro x hx
  obtain ⟨pre, c', hpre, hbefore, hstep⟩ := hrun.of_mem hx
  have hlive := Config.step_live hstep
  exact ⟨.of_run hn hbefore (fun y hy => hsafe y (hpre.subset hy)) hlive, hlive⟩

/-- The runs of the machine that go on from a state. -/
abbrev Config.RunsTo (c₀ : Config n) (tr : List (Config n × Event)) (c : Config n) : Prop :=
  Transition.Run (· = c₀) (fun c e c' => c.step e = some c') tr c

/-- The count of the blocked in a legal run whose kills are safe. -/
theorem Config.soft_of_run (hn : n ≤ maxProc) (hrun : Run tr c) (hlegal : ∀ x ∈ tr, x.2.Legal)
    (hsafe : ∀ x ∈ tr, x.1.KillSafe x.2) (hlive : c.mode.Live) : c.Sound ∧ c.core.Soft := by
  refine hrun.invariant (I := fun c => c.mode.Live → c.Sound ∧ c.core.Soft)
    (G := fun c e => e.Legal ∧ c.KillSafe e) ?_ ?_ (fun x hx => ⟨hlegal x hx, hsafe x hx⟩) hlive
  · rintro c ⟨b, hb⟩ hlive
    obtain ⟨hsound, k, p, hbooted, hready, hcore⟩ := Config.Sound.boot hn hb hlive
    exact ⟨hsound, hcore ▸ hbooted.soft.congr rfl fun a => by simp [Core.dispatch]⟩
  · intro c e c' hc hok hstep hlive
    obtain ⟨hsound, hsoft⟩ := hc (Config.step_live hstep)
    exact ⟨hsound.step hn hok.2 hstep hlive, hsound.step_soft hn hsoft hok.1 hok.2 hstep hlive⟩

/-! ## Running a list of events -/

/-- The state after a list of events. -/
def Config.exec (c : Config n) : List Event → Option (Config n)
  | [] => some c
  | e :: es => (c.step e).bind fun c' => c'.exec es

/-- The state after a list of events that meet a condition. -/
def Config.execIf (P : Config n → Event → Prop) [∀ c e, Decidable (P c e)] (c : Config n) :
    List Event → Option (Config n)
  | [] => some c
  | e :: es => if P c e then (c.step e).bind fun c' => c'.execIf P es else none

/-- Executing events makes a run longer. -/
theorem Config.exec_run {b : Boot n} {es : List Event} {c' : Config n} (hrun : b.RunsTo tr c)
    (hexec : c.exec es = some c') :
    ∃ tr', b.RunsTo (tr' ++ tr) c' ∧ tr'.map Prod.snd = es.reverse := by
  induction es generalizing c tr with
  | nil =>
    obtain rfl := Option.some.inj hexec
    exact ⟨[], hrun, rfl⟩
  | cons e es ih =>
    obtain ⟨c₁, hstep, hrest⟩ := Option.bind_eq_some_iff.mp hexec
    obtain ⟨tr', hrun', hmap⟩ := ih (.next hrun hstep) hrest
    exact ⟨tr' ++ [(c, e)], by simpa using hrun', by simp [hmap]⟩

/-- Booting and executing events is a run. -/
theorem Boot.exec_run {b : Boot n} {es : List Event} (hexec : b.config.bind (·.exec es) = some c) :
    ∃ tr, b.RunsTo tr c ∧ tr.map Prod.snd = es.reverse := by
  obtain ⟨c₀, hb, hrest⟩ := Option.bind_eq_some_iff.mp hexec
  obtain ⟨tr, hrun, hmap⟩ := Config.exec_run (.start hb) hrest
  exact ⟨tr, by simpa using hrun, hmap⟩

/-- Executing events that meet a condition is a run of such events. -/
theorem Config.execIf_run {P : Config n → Event → Prop} [∀ c e, Decidable (P c e)] {b : Boot n}
    {es : List Event} {c' : Config n} (hrun : b.RunsTo tr c) (hexec : c.execIf P es = some c')
    (htr : ∀ x ∈ tr, P x.1 x.2) : ∃ tr', b.RunsTo tr' c' ∧ ∀ x ∈ tr', P x.1 x.2 := by
  induction es generalizing c tr with
  | nil =>
    obtain rfl := Option.some.inj hexec
    exact ⟨tr, hrun, htr⟩
  | cons e es ih =>
    rw [Config.execIf] at hexec
    split at hexec
    · rename_i he
      obtain ⟨c₁, hstep, hrest⟩ := Option.bind_eq_some_iff.mp hexec
      exact ih (.next hrun hstep) hrest (List.forall_mem_cons.mpr ⟨he, htr⟩)
    · cases hexec

/-- Booting and executing events that meet a condition is a run of such events. -/
theorem Boot.execIf_run {P : Config n → Event → Prop} [∀ c e, Decidable (P c e)] {b : Boot n}
    {es : List Event} (hexec : b.config.bind (·.execIf P es) = some c) :
    ∃ tr, b.RunsTo tr c ∧ ∀ x ∈ tr, P x.1 x.2 := by
  obtain ⟨c₀, hb, hrest⟩ := Option.bind_eq_some_iff.mp hexec
  exact Config.execIf_run (.start hb) hrest (by simp)

omit [Layout] in
/-- What holds of each of the events holds of each step. -/
theorem forall_event {es : List Event} {P : Event → Prop} (htr : tr.map Prod.snd = es.reverse)
    (h : ∀ e ∈ es, P e) : ∀ x ∈ tr, P x.2 := by
  intro x hx
  have hmem : x.2 ∈ tr.map Prod.snd := List.mem_map_of_mem hx
  rw [htr, List.mem_reverse] at hmem
  exact h _ hmem

/-! ### A small machine -/

/-- A place for `semaphoreArray`. -/
abbrev sampleLayout : Layout := ⟨0x8000, by decide⟩

/-- A machine whose memory and tables hold zeros. -/
def Boot.zero : Boot maxProc where
  vars := {
    mem := fun _ => 0
    sysCallOld := .zero
    progTrpOld := .zero
    tlbOld := .zero
    intOld := .zero
    processCount := 0
    softBlockCount := 0
    currentProcess := none
    devStatus := fun _ => 0
    devReg := fun _ => ⟨0, 0, 0, 0⟩
    intBitmap := fun _ => 0
    clock := ⟨0, 0, false, 0, 0, 0, 0⟩ }
  tables := .zero
  static _ := rfl
  stst := .zero
  test := 0
  ramtop := 0

/-- A system call in system mode, with the registers `a1` to `a4`. -/
def Trap.call (a1 a2 a3 a4 : Word) : Trap :=
  .sysCall (((((State.zero.setReg sA1 a1).setReg sA2 a2).setReg sA3 a3).setReg sA4 a4).setReg sCpsr
    systemMode)

/-- An interrupt of the interval timer. -/
def Trap.timer : Trap :=
  .interrupt (State.zero.setReg sCause 0x04000000) (fun _ => 0) fun _ => ⟨0, 0, 0, 0⟩

/-- A system call that takes no time. -/
def Event.call (a1 a2 a3 a4 : Word) (tod : ℤ) : Event := .trap (.call a1 a2 a3 a4) tod tod

/-- An interrupt of the interval timer that takes no time. -/
def Event.timer (tod : ℤ) : Event := .trap .timer tod tod

/-- An interrupt of disk 0 with this `d_status`. -/
def Event.disk (status : Word) (tod : ℤ) : Event :=
  .trap (.interrupt (State.zero.setReg sCause 0x08000000) (fun _ => 1)
    fun _ => ⟨status, 0, 0, 0⟩) tod tod

/-- The process with PCB 2 is killed while it is blocked, and all other PCBs are then allocated
up to the one that is used again. -/
def reuse : List Event :=
  [.call 1 0 0 0 0, .timer 5000, .call 1 0 0 0 5000, .timer 10000, .timer 15000,
    .call 4 0x10000 0 0 15000, .call 2 0 0 0 15000] ++ List.replicate 18 (.call 1 0 0 0 15000)

end Jaeos
