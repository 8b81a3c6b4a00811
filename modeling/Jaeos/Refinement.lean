import Jaeos.Areas

/-!
# The nucleus refines a system without pointers

An `Ideal` nucleus has queues, a forest of processes, words of memory and areas for traps, and
nothing of how they are stored. Its steps are the ways of `Effect` and `Sched`. What a reader sees
of a run of the machine is a run of the ideal nucleus; and the nucleus never stops on the way: each
trap is served, and only what cannot be served leads out of the defined states.
-/

namespace Jaeos

variable {n : ℕ}

/-- What the nucleus is about. -/
structure Ideal (n : ℕ) where
  /-- what the processor does -/
  mode : Mode
  /-- the processes and memory -/
  core : Core n
  /-- the areas of the processes; who is not alive has none -/
  areas : Fin n → TrapAreas

/-- What is seen of the machine. -/
def Config.ideal (c : Config n) : Ideal n := ⟨c.mode, c.core, c.nuc.store.areas⟩

variable [Layout]

namespace Ideal

/-- The states the ideal nucleus begins in: the first process runs, or there is no PCB for it. -/
inductive Initial : Ideal n → Prop where
  /-- `main` has set up the first process `p` -/
  | booted {mem : ℕ → Word} {k : Core n} {p : Fin n} (hk : k.Booted mem)
    (hready : k.lists.q .ready = [p]) : Initial ⟨.running, k.dispatch p [], fun _ => .none⟩
  /-- there are no PCBs at all -/
  | empty (hn : n = 0) (c : Core n) (areas : Fin n → TrapAreas) : Initial ⟨.undefined, c, areas⟩

/-- The areas after a trap: SYS5 gives a pair to its caller, and the dead lose theirs. -/
def areasAfter (s : Ideal n) (t : Trap) (c : Core n) (p : Fin n) : TrapAreas :=
  if p ∈ c.lists.q .free then .none else t.areasAfter s.core.cur s.areas p

/-- A step of the ideal nucleus. Like `Effect` it leaves some values open: a kill is any sequence of
`Kills`, the states of a trap that is passed up are any two, and so is the time of SYS6. -/
inductive Step (s : Ideal n) : Event → Ideal n → Prop where
  /-- a store to memory -/
  | write (a : ℕ) (v : Word) (hlive : s.mode.Live) :
    Step s (.write a v) { s with core := s.core.setMem a v }
  /-- a trap is served, and the scheduler chooses who runs -/
  | trap {t : Trap} {exit : Exit} {k c : Core n} {mode : Mode} (todIn todOut : ℤ)
    (henabled : t.Enabled s.mode) (hserve : Effect s.areas (s.core.entered t) t.request exit k)
    (hfinish : Finish exit k mode c) :
    Step s (.trap t todIn todOut) ⟨mode, c, s.areasAfter t c⟩

end Ideal

/-! ## Refinement -/

section

variable {areas areas' : Fin n → TrapAreas} {c c' : Core n} {r : Request} {exit : Exit}

/-- Only the areas of the current process matter. -/
theorem Effect.congr_areas (h : Effect areas c r exit c')
    (hareas : ∀ p, c.cur = some p → areas p = areas' p) : Effect areas' c r exit c' := by
  cases h with
  | undefined h => exact .undefined h c'
  | createNone a hcur hq => exact .createNone a hcur hq
  | create a hcur hq => exact .create a hcur hq
  | kill _ hcur hfatal h => exact .kill r hcur (hareas _ hcur ▸ hfatal) h
  | signal a hcur ha hpos => exact .signal a hcur ha hpos
  | wake hcur ha hneg hq => exact .wake hcur ha hneg hq
  | take a hcur ha hpos => exact .take a hcur ha hpos
  | block a hcur ha hneg => exact .block a hcur ha hneg
  | specify types hcur => exact .specify types hcur
  | time hcur v => exact .time hcur v
  | clock hcur hneg => exact .clock hcur hneg
  | clockPanic _ hpos => exact .clockPanic c' hpos
  | ioDone hi hcur hpos => exact .ioDone hi hcur hpos
  | ioWait hi hcur hneg => exact .ioWait hi hcur hneg
  | passUp type hcur h old new =>
    rw [hareas _ hcur] at h ⊢
    exact .passUp type hcur h old new
  | tick h hq => exact .tick h hq
  | quantum hcur => exact .quantum hcur
  | quantumIdle hcur => exact .quantumIdle hcur
  | ioSignal status keep hi hpos => exact .ioSignal status keep hi hpos
  | ioWake status keep hi hneg hq => exact .ioWake status keep hi hneg hq
  | ioLost status keep hi hneg hq => exact .ioLost status keep hi hneg hq

end

section

variable {c c' : Config n} {e : Event}

/-- What is seen of the first state. -/
theorem Boot.ideal_initial (hn : n ≤ maxProc) {b : Boot n} (hb : b.config = some c) :
    c.ideal.Initial := by
  have hareas : c.nuc.store.areas = fun _ => .none := by
    funext p
    rw [Store.areas]
    split
    · rfl
    next hfree => exact Boot.areas hn hb p hfree
  obtain ⟨hrep, ⟨hzero, hmode⟩ | ⟨hmode, k, p, hbooted, hready, hcore⟩⟩ :=
    Boot.config_of_wp hn (fun _ => wp_main b) hb
  · rw [Config.ideal, hmode]
    exact .empty hzero _ _
  · have hcore : c.core = k.dispatch p [] := hcore
    rw [Config.ideal, hmode, hcore, hareas]
    exact .booted hbooted hready

/-- What is seen of a step. -/
theorem Config.Sound.ideal_step (hn : n ≤ maxProc) (h : c.Sound) (hsafe : c.KillSafe e)
    (hstep : c.step e = some c') : c.ideal.Step e c'.ideal := by
  cases e with
  | write a v =>
    have hlive := Config.step_live hstep
    rw [Config.step, if_pos hlive] at hstep
    obtain rfl := Option.some.inj hstep
    exact .write a v hlive
  | trap t todIn todOut =>
    have henabled : t.Enabled c.mode := by
      by_contra hnot
      simp [Config.step, hnot] at hstep
    obtain ⟨exit, k, heffect, hfinish, -⟩ := h.trap_cases hn hsafe hstep
    have hareas : c'.nuc.store.areas = c.ideal.areasAfter t c'.core := by
      funext p
      rw [Store.areas, Ideal.areasAfter]
      by_cases hfree : p ∈ c'.nuc.store.freeList
      · rw [if_pos hfree]
        exact (if_pos hfree).symm
      · rw [if_neg hfree]
        exact (h.areas hn hsafe hstep p hfree).trans (if_neg hfree).symm
    have hideal : c'.ideal = ⟨c'.mode, c'.core, c.ideal.areasAfter t c'.core⟩ := by
      rw [← hareas]
      rfl
    rw [hideal]
    refine .trap todIn todOut henabled (heffect.congr_areas fun p hp => ?_) hfinish
    rw [Core.entered_cur] at hp
    exact (if_neg (h.cur_not_free hp)).symm

end

/-! ## What cannot be served -/

variable {tr : List (Config n × Event)} {c : Config n} {t : Trap} {todIn todOut : ℤ}

/-- What is seen of a run of the nucleus, with its linked lists, rings and pointers, is a run of the
ideal nucleus. -/
theorem nucleus_refines (hn : n ≤ maxProc) (hrun : Run tr c)
    (hsafe : ∀ x ∈ tr, x.1.KillSafe x.2) :
    Transition.Run Ideal.Initial Ideal.Step (tr.map fun x => (x.1.ideal, x.2)) c.ideal := by
  apply hrun.simulate (I := Config.Sound) (G := Config.KillSafe) _ _ _ hsafe
  · rintro c ⟨b, hb⟩
    exact b.ideal_initial hn hb
  · intro tr c e c' hrun hsafe hstep
    exact .of_run hn hrun hsafe (Config.step_live hstep)
  · intro c e c' hsound hkill hstep
    exact hsound.ideal_step hn hkill hstep

omit [Layout] in
/-- The first process creates another one, and its quantum ends. -/
theorem nucleus_refines_create : ∃ (_ : Layout) (tr : List (Config maxProc × Event))
    (c : Config maxProc), c.nuc.currentProcess = some 1 ∧ c.nuc.store.readyList = [0] ∧
      Transition.Run Ideal.Initial Ideal.Step (tr.map fun x => (x.1.ideal, x.2)) c.ideal := by
  refine ⟨sampleLayout, ?_⟩
  let _ := sampleLayout
  have hexec : (Boot.zero.config.bind (·.exec [.call 1 0 0 0 10, .timer 5000])).map
      (fun c => (c.nuc.currentProcess, c.nuc.store.readyList)) = some (some 1, [0]) := by
    decide +kernel
  obtain ⟨c, hc, hrest⟩ := Option.map_eq_some_iff.mp hexec
  obtain ⟨hcur, hready⟩ := Prod.mk.inj hrest
  obtain ⟨tr, hrun, hevents⟩ := Boot.exec_run hc
  have hcreate : (Event.call 1 0 0 0 10).Harmless := fun _ h => h
  have htimer : (Event.timer 5000).Harmless := fun _ h => h
  have hharmless : ∀ x ∈ tr, x.2.Harmless := forall_event hevents
    (List.forall_mem_cons.mpr ⟨hcreate, List.forall_mem_singleton.mpr htimer⟩)
  exact ⟨tr, c, hcur, hready, nucleus_refines le_rfl hrun.run fun x hx =>
    (hharmless x hx).killSafe x.1⟩

end Jaeos
