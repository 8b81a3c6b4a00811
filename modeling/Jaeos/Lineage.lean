import Jaeos.Nuke

/-!
# The first process

`main` starts one process, and SYS1 makes every other one a child of the process that
asks for it. So in every run the processes alive are the first one and its
descendants, and the recursive kill takes all descendants of a process with it:
the machine halts when the first process terminates, and only then.
-/

namespace Jaeos

open Forest

variable {n : ℕ}

/-- The processes alive are `root` and those that descend from it. -/
structure Core.Lineage (c : Core n) (root : Fin n) : Prop where
  /-- `root` has no parent -/
  parent : c.lists.parent root = none
  /-- everybody alive descends from it -/
  alive : ∀ q, q ∉ c.lists.q .free → q = root ∨ Descends c.lists.parent root q

namespace Core.Lineage

variable {c c' : Core n} {root p q : Fin n} {qs fs : List (Fin n)}

/-- Only the parents and the free list matter. -/
theorem congr (h : c.Lineage root) (hparent : c'.lists.parent = c.lists.parent)
    (hfree : c'.lists.q .free = c.lists.q .free) : c'.Lineage root :=
  ⟨by rw [hparent]; exact h.parent, by rw [hparent, hfree]; exact h.alive⟩

/-- When the first process is dead, nobody is alive. -/
theorem nobody (h : c.Lineage root) (hinv : c.Inv) (hroot : root ∈ c.lists.q .free) :
    ∀ q, q ∈ c.lists.q .free := by
  intro q
  by_contra hq
  rcases h.alive q hq with rfl | hdesc
  · exact hq hroot
  · obtain ⟨y, hy, -⟩ := Relation.TransGen.head'_iff.mp hdesc
    exact hinv.ok.parent_ne_of_free hroot y hy

/-- A new process is a child of a process alive. -/
theorem create (h : c.Lineage root) (hinv : c.Inv) (hcur : c.cur = some p)
    (hq : c.lists.q .free = q :: qs) : (c.create p q qs).Lineage root := by
  have hpfree : p ∉ c.lists.q .free := hinv.ok.placed.loose p (by simp [hcur]) _
  have hqfree : q ∈ c.lists.q .free := by simp [hq]
  have hqroot : c.lists.parent q = none := (hinv.ok.free q hqfree).1
  have hparent : (c.create p q qs).lists.parent = Function.update c.lists.parent q (some p) := rfl
  have hfree : (c.create p q qs).lists.q .free = qs := by simp [Core.create]
  -- nobody above a process alive was free
  have hold : ∀ x, Descends c.lists.parent root x →
      Descends (Function.update c.lists.parent q (some p)) root x := by
    intro x hx
    refine Relation.TransGen.mono (fun a b hb => ?_) root x hx
    have hbq : b ≠ q := by
      rintro rfl
      rw [hqroot] at hb
      cases hb
    rwa [Function.update_of_ne hbq]
  have hdown : ∀ x, x ∉ c.lists.q .free →
      x = root ∨ Descends (Function.update c.lists.parent q (some p)) root x :=
    fun x hx => (h.alive x hx).imp_right (hold x)
  rw [← hparent] at hdown
  have hne : root ≠ q := by
    rintro rfl
    exact hpfree (h.nobody hinv hqfree p)
  refine ⟨?_, fun x hx => ?_⟩
  · rw [hparent, Function.update_of_ne hne]
    exact h.parent
  · by_cases hxq : x = q
    · subst hxq
      have hedge : (c.create p x qs).lists.parent x = some p := Function.update_self ..
      refine .inr ?_
      rcases hdown p hpfree with rfl | hp
      · exact .single hedge
      · exact hp.tail hedge
    · refine hdown x ?_
      rw [hfree] at hx
      rw [hq]
      simp [hxq, hx]

/-- A process alive is killed, with all its descendants. -/
theorem purge (h : c.Lineage root) (htree : IsTree c.lists.parent p fs)
    (hparent : c'.lists.parent = (c.lists.purge fs).parent)
    (hfree : c'.lists.q .free = (c.lists.purge fs).q .free) : c'.Lineage root := by
  rw [Lists.purge_parent] at hparent
  rw [Lists.purge_free] at hfree
  refine ⟨?_, fun x hx => ?_⟩
  · rw [hparent]
    simp only [h.parent, ite_self]
  · rw [hfree, List.mem_append, not_or] at hx
    refine (h.alive x hx.1).imp_right fun hdesc => ?_
    rw [hparent]
    exact (descends_of_closed htree.closed).mpr ⟨hdesc, hx.2⟩

/-- Everybody is killed exactly when the first process is. -/
theorem purge_all (h : c.Lineage root) (hinv : c.Inv) (hp : p ∉ c.lists.q .free)
    (htree : IsTree c.lists.parent p fs) :
    (∀ q, q ∈ (c.lists.purge fs).q .free) ↔ p = root := by
  simp only [Lists.purge_free, List.mem_append]
  constructor
  · intro hall
    rcases hall root with hroot | hroot
    · exact absurd (h.nobody hinv hroot p) hp
    · rcases (htree.mem root).mp hroot with rfl | hdesc
      · rfl
      · -- the first process descends from nobody
        obtain ⟨y, -, hy⟩ := Relation.TransGen.tail'_iff.mp hdesc
        rw [h.parent] at hy
        cases hy
  · rintro rfl q
    by_cases hq : q ∈ c.lists.q .free
    · exact .inl hq
    · exact .inr ((htree.mem q).mpr (h.alive q hq))

end Core.Lineage

/-- What `main` has set up: one process. -/
theorem Core.Booted.lineage {c : Core n} {mem : ℕ → Word} {p : Fin n} [Layout]
    (h : c.Booted mem) (hready : c.lists.q .ready = [p]) : c.Lineage p := by
  have hok := h.inv.ok
  have halive : ∀ q, q ∉ c.lists.q .free → q = p := by
    intro q hq
    obtain hcur | ⟨j, hj⟩ := hok.placed.cover q
    · rw [h.cur] at hcur
      cases hcur
    · cases j with
      | free => exact absurd hj hq
      | ready => simpa [hready] using hj
      | blocked a =>
        rw [h.blocked a] at hj
        cases hj
  refine ⟨?_, fun q hq => .inl (halive q hq)⟩
  cases hp : c.lists.parent p with
  | none => rfl
  | some r =>
    have hr : r = p := halive r fun hfree => hok.parent_ne_of_free hfree p hp
    subst hr
    have hloop : Descends c.lists.parent r r := .single hp
    exact absurd hloop hok.acyclic.irrefl

/-! ## Fatal requests -/

section

variable [Layout]

/-- The handler ends with a kill of exactly `p` and its descendants. -/
def Purged (l : Lists n) (p : Fin n) (exit : Exit) (s' : Abs n) : Prop :=
  exit = .getNewJob ∧ ∃ fs, IsTree l.parent p fs ∧ s'.lists = l.purge fs

variable {s : Abs n} {p : Fin n}

theorem wp_nuke_purged {Q : Unit → Abs n → Prop} (hinv : s.core.Inv)
    (hcur : s.currentProcess = some p) (hsafe : s.core.KillSafe p)
    (hQ : ∀ s', Purged s.lists p .getNewJob s' → Q () s') :
    (nukeItTilItPukes (nukeFuel n) p).wp NucOp.spec Q s := by
  have hok : s.lists.Ok (some p) := hcur ▸ hinv.ok
  exact wp_nuke_exact hok hcur hsafe fun fs hnd hfs => hQ _ ⟨rfl, fs, ⟨hnd, hfs⟩, rfl⟩

theorem wp_passUpOrDie_purged (type : TrapType) (hinv : s.core.Inv)
    (hcur : s.currentProcess = some p) (hsafe : s.core.KillSafe p)
    (hfatal : (s.data.trap p).old type = null) :
    (passUpOrDie (n := n) type).wp NucOp.spec (Purged s.lists p) s := by
  have hnot : ¬ (s.data.trap p).old type ≠ null := not_not.mpr hfatal
  simp only [passUpOrDie, Prog.wp_bind, wp_globals, hcur, wp_data, if_neg hnot]
  exact wp_nuke_purged hinv hcur hsafe fun s' h => h

theorem wp_sysFiveFrom_purged (types : List TrapType) (hinv : s.core.Inv)
    (hcur : s.currentProcess = some p) (hsafe : s.core.KillSafe p)
    (hfatal : ∀ type ∈ types, (s.data.trap p).old type ≠ null) :
    (sysFiveFrom p types).wp NucOp.spec (Purged s.lists p) s := by
  induction types with
  | nil =>
    rw [sysFiveFrom, Prog.wp_bind]
    exact wp_nuke_purged hinv hcur hsafe fun s' h => h
  | cons type types ih =>
    have hne : ¬ (s.data.trap p).old type = null := hfatal type List.mem_cons_self
    simp only [sysFiveFrom, Prog.wp_bind, wp_data, if_neg hne]
    exact ih fun t ht => hfatal t (List.mem_cons_of_mem _ ht)

/-- A fatal system call in system mode. -/
theorem wp_serve_purged (call : SysCall) {old : State} (hinv : s.core.Inv)
    (hcur : s.currentProcess = some p) (hold : s.sysCallOld = old.afterCall)
    (hsafe : s.core.KillSafe p) (hfatal : (call.request old).Fatal (s.data.trap p)) :
    (serve p (some call)).wp NucOp.spec (Purged s.lists p) s := by
  cases call with
  | terminateProcess =>
    simp only [serve, terminateProcess, Prog.wp_bind]
    exact wp_nuke_purged hinv hcur hsafe fun s' h => h
  | sesv =>
    simp only [serve, Prog.wp_bind, wp_globals]
    rw [hold, old.afterCall_sReg (by decide)]
    exact wp_sysFiveFrom_purged _ hinv hcur hsafe hfatal
  | createProcess | verhogen | passeren | getCpuTime | waitForClock | waitForIo =>
    exact hfatal.elim

/-- The contract of a handler that serves a fatal request. -/
theorem wp_handle_purged (t : Trap) (todIn todOut : ℤ) (hinv : s.core.Inv)
    (hcur : s.currentProcess = some p) (hfatal : t.request.Fatal (s.data.trap p))
    (hsafe : s.core.KillSafe p) :
    (t.handle todIn todOut).wp NucOp.spec (Purged s.lists p) s := by
  simp only [Trap.handle, Prog.wp_bind, wp_modifyGlobals, wp_modifyClock]
  -- the areas and the clock are not part of the core
  generalize hg : Abs.setGlobals (s.setGlobals _) _ = s₁
  have hcore : s₁.core = s.core := by
    subst hg
    cases t <;> rfl
  have htrap : s₁.data.trap = s.data.trap := by rw [← hg]; rfl
  have hlists : s₁.lists = s.lists := congrArg Core.lists hcore
  have hcur₁ : s₁.currentProcess = some p := (congrArg Core.cur hcore).trans hcur
  rw [← hcore] at hinv hsafe
  rw [← htrap] at hfatal
  rw [← hlists]
  cases t with
  | sysCall old =>
    have hold : s₁.sysCallOld = old := by rw [← hg]; rfl
    have hcalled : (s₁.called p old).core.Inv := hinv.save p old.afterCall
    refine wp_sysCallHandler_cases hcur₁ hold (fun hsys => ?_) (fun hsys hpriv => ?_)
      fun hsys huser => ?_
    · simp only [Trap.request, if_pos hsys] at hfatal
      cases hnum : SysCall.ofNum (old.sReg sA1) with
      | none =>
        rw [hnum] at hfatal
        exact wp_passUpOrDie_purged (s := s₁.called p old) .sysTrap hcalled hcur₁ hsafe hfatal
      | some call =>
        rw [hnum] at hfatal
        exact wp_serve_purged (s := s₁.called p old) call hcalled hcur₁ rfl hsafe hfatal
    · simp only [Trap.request, if_neg hsys, if_pos hpriv] at hfatal
      exact wp_passUpOrDie_purged (s := s₁.calledAsTrap p old) .progTrap hcalled hcur₁ hsafe hfatal
    · simp only [Trap.request, if_neg hsys, if_neg huser] at hfatal
      exact wp_passUpOrDie_purged (s := s₁.called p old) .sysTrap hcalled hcur₁ hsafe hfatal
  | progTrap old => exact wp_passUpOrDie_purged .progTrap hinv hcur₁ hsafe hfatal
  | tlbTrap old => exact wp_passUpOrDie_purged .tlbTrap hinv hcur₁ hsafe hfatal
  | interrupt old bitmap devReg =>
    have hint := interruptRequest_interrupt old bitmap devReg
    change (interruptRequest old bitmap devReg).Fatal _ at hfatal
    generalize interruptRequest old bitmap devReg = r at hint hfatal
    cases r <;> first | exact hint.elim | exact hfatal.elim

end

/-! ## Every run -/

section

variable {c c' : Core n} {root p : Fin n}

/-- Everybody is free exactly when no process is counted. -/
theorem Core.Inv.count_zero_iff (h : c.Inv) :
    c.processCount = 0 ↔ ∀ q, q ∈ c.lists.q .free := by
  have hcount := h.count
  have hnd := h.ok.placed.nodup .free
  constructor
  · intro hzero q
    have hlen : (c.lists.q .free).length = n := by omega
    by_contra hq
    have hcons := (List.nodup_cons.mpr ⟨hq, hnd⟩).length_le_card
    simp only [List.length_cons, Fintype.card_fin] at hcons
    omega
  · intro hall
    have hle := hnd.length_le_card
    have hge : n ≤ (c.lists.q .free).length := by
      have hsub : List.finRange n ⊆ c.lists.q .free := fun q _ => hall q
      simpa using ((List.nodup_finRange n).subperm hsub).length_le
    rw [Fintype.card_fin] at hle
    omega

/-- The scheduler leaves the tree and the free list. -/
theorem Sched.tree {v : Verdict} (h : Sched c v c') :
    c'.lists.parent = c.lists.parent ∧ c'.lists.q .free = c.lists.q .free := by
  cases h with
  | dispatch => exact ⟨rfl, by simp [Core.dispatch]⟩
  | halt | panic | wait | returns => exact ⟨rfl, rfl⟩

theorem Wakes.tree {a : ℕ} {c₀ : Core n} (h : Wakes a c₀ c) :
    c.lists.parent = c₀.lists.parent ∧ c.lists.q .free = c₀.lists.q .free := by
  induction h with
  | refl => exact ⟨rfl, rfl⟩
  | next _ _ ih => exact ⟨ih.1, by simp [Core.wake, Core.soften, ih.2]⟩

variable [Layout] {areas : Fin n → TrapAreas} {r : Request} {exit : Exit}

/-- Only SYS1 and a kill change the tree and the free list. -/
theorem Effect.tree (h : Effect areas c r exit c')
    (hnot : ∀ p, c.cur = some p → ¬ r.Fatal (areas p))
    (hexit : exit = .ldst ∨ exit = .getNewJob) :
    c'.lists.parent = c.lists.parent ∧ c'.lists.q .free = c.lists.q .free ∨
      ∃ p q qs st, c.cur = some p ∧ c.lists.q .free = q :: qs ∧
        c' = (c.save q st).create p q qs := by
  cases h with
  | undefined | clockPanic => simp at hexit
  | create a hcur hq => exact .inr ⟨_, _, _, _, hcur, hq, rfl⟩
  | kill r hcur hfatal => exact absurd hfatal (hnot _ hcur)
  | tick h hq => exact .inl h.tree
  | ioLost status keep =>
    cases keep with
    | false => exact .inl ⟨rfl, rfl⟩
    | true => exact .inl ⟨rfl, rfl⟩
  | _ => exact .inl ⟨rfl, by simp [Core.wake, Core.block, Core.preempt, Core.soften, Core.save,
      Core.add, Core.setMem, Core.fill]⟩

end

section

variable [Layout]

/-- What `main` starts with. -/
def Boot.Starts (b : Boot n) (root : Fin n) : Prop :=
  ∃ c, b.config = some c ∧ c.nuc.currentProcess = some root

/-- The processes alive are the first one and its descendants, and there is one. -/
structure Config.Family (c : Config n) (root : Fin n) : Prop where
  /-- the tree -/
  lineage : c.core.Lineage root
  /-- somebody is alive -/
  count : c.core.processCount ≠ 0

namespace Config.Sound

variable {c c' : Config n} {root p : Fin n} {t : Trap} {todIn todOut : ℤ}

/-- A fatal trap frees exactly the current process and its descendants. -/
theorem purged (hn : n ≤ maxProc) (h : c.Sound) (hcur : c.core.cur = some p)
    (hsafe : c.KillSafe (.trap t todIn todOut)) (hfatal : t.request.Fatal (c.nuc.store.trap p))
    (hstep : c.step (.trap t todIn todOut) = some c') :
    c.react t todIn todOut = some ((.getNewJob, c'.mode), c'.nuc) ∧
      ∃ fs, IsTree c.core.lists.parent p fs ∧
        c'.core.lists.parent = (c.core.lists.purge fs).parent ∧
        c'.core.lists.q .free = (c.core.lists.purge fs).q .free := by
  have hwp : (t.react todIn todOut).wp NucOp.spec (fun r s' => r.1 = .getNewJob ∧
      ∃ fs, IsTree c.core.lists.parent p fs ∧
        s'.lists.parent = (c.core.lists.purge fs).parent ∧
        s'.lists.q .free = (c.core.lists.purge fs).q .free) c.nuc.abs := by
    rw [Trap.react, Prog.wp_bind]
    refine Prog.wp_mono NucOp.spec_mono (fun exit s₁ hpurged => ?_)
      (wp_handle_purged t todIn todOut h.inv hcur hfatal (hsafe p hcur hfatal))
    obtain ⟨rfl, fs, htree, hlists⟩ := hpurged
    rw [Prog.wp_bind]
    refine Prog.wp_mono NucOp.spec_mono (fun mode s' hfinish => ?_) (wp_finish .getNewJob)
    obtain ⟨-, v, -, hsched⟩ := hfinish
    obtain ⟨hparent, hfree⟩ := hsched.tree
    have hk : (Exit.getNewJob.leave s₁.core).lists = c.core.lists.purge fs := hlists
    rw [hk] at hparent hfree
    exact ⟨rfl, fs, htree, hparent, hfree⟩
  obtain ⟨⟨exit, mode⟩, nuc', s', hrun, hrep, hexit, hpurged⟩ := nucleus_sound hn h.rep hwp
  obtain rfl := hrep.abs_eq
  by_cases henabled : t.Enabled c.mode
  · have hreact : c.react t todIn todOut = some ((exit, mode), nuc') := hrun
    rw [Config.step, if_pos henabled, hreact] at hstep
    obtain rfl := Option.some.inj hstep
    obtain rfl : exit = .getNewJob := hexit
    exact ⟨hreact, hpurged⟩
  · simp [Config.step, henabled] at hstep

/-- A trap that is not fatal: nobody is freed. -/
theorem not_purged (hn : n ≤ maxProc) (h : c.Sound) (hl : c.core.Lineage root)
    (hsafe : c.KillSafe (.trap t todIn todOut))
    (hnot : ∀ p, c.core.cur = some p → ¬ t.request.Fatal (c.nuc.store.trap p))
    (hstep : c.step (.trap t todIn todOut) = some c') (hmode : c'.mode ≠ .panicked)
    (hmode' : c'.mode ≠ .undefined) :
    c'.core.Lineage root ∧ c'.core.lists.q .free ⊆ c.core.lists.q .free := by
  obtain ⟨exit, k, heffect, hfinish, -⟩ := h.trap_cases hn hsafe hstep
  have hlists := c.core.entered_lists t
  have hinv := h.inv.entered t
  have hentered : (c.core.entered t).Lineage root := hl.congr (by rw [hlists]) (by rw [hlists])
  have hexit : exit = .ldst ∨ exit = .getNewJob := by
    cases exit with
    | ldst => exact .inl rfl
    | getNewJob => exact .inr rfl
    | panic => exact absurd hfinish hmode
    | undefined => exact absurd hfinish hmode'
  have hk : k.Lineage root ∧ k.lists.q .free ⊆ c.core.lists.q .free := by
    rw [← hlists]
    rcases heffect.tree (fun p hp => hnot p (c.core.entered_cur t ▸ hp)) hexit with
      ⟨hparent, hfree⟩ | ⟨p, q, qs, st, hcur, hq, rfl⟩
    · exact ⟨hentered.congr hparent hfree, by rw [hfree]; exact List.Subset.refl _⟩
    · refine ⟨Core.Lineage.create (hentered.congr rfl rfl) (hinv.save q st) hcur hq, ?_⟩
      rw [hq]
      simp [Core.create]
  have hsched : c'.core.lists.parent = k.lists.parent ∧
      c'.core.lists.q .free = k.lists.q .free := by
    rcases hexit with rfl | rfl
    · rw [hfinish.2]
      exact ⟨rfl, rfl⟩
    · obtain ⟨-, v, -, hsched⟩ := hfinish
      exact hsched.tree
  rw [hsched.2]
  exact ⟨hk.1.congr hsched.1 hsched.2, hk.2⟩

/-- A step keeps the family. -/
theorem step_lineage (hn : n ≤ maxProc) (h : c.Sound) (hl : c.core.Lineage root) {e : Event}
    (hsafe : c.KillSafe e) (hstep : c.step e = some c') (hlive : c'.mode.Live) :
    c'.core.Lineage root := by
  cases e with
  | write a v =>
    have hold := Config.step_live hstep
    rw [Config.step, if_pos hold] at hstep
    obtain rfl := Option.some.inj hstep
    exact hl.congr rfl rfl
  | trap t todIn todOut =>
    by_cases hfatal : ∃ p, c.core.cur = some p ∧ t.request.Fatal (c.nuc.store.trap p)
    · obtain ⟨p, hcur, hfatal⟩ := hfatal
      obtain ⟨-, fs, htree, hparent, hfree⟩ := h.purged hn hcur hsafe hfatal hstep
      exact hl.purge htree hparent hfree
    · refine (h.not_purged hn hl hsafe (fun p hp hf => hfatal ⟨p, hp, hf⟩) hstep ?_ ?_).1
      · rintro hm
        rw [hm] at hlive
        simp [Mode.Live] at hlive
      · rintro hm
        rw [hm] at hlive
        simp [Mode.Live] at hlive

/-- Somebody is alive in each live state. -/
theorem step_count (hn : n ≤ maxProc) (h : c.Sound) {e : Event} (hcount : c.core.processCount ≠ 0)
    (hsafe : c.KillSafe e) (hstep : c.step e = some c') (hlive : c'.mode.Live) :
    c'.core.processCount ≠ 0 := by
  have hsound := h.step hn hsafe hstep hlive
  rcases hlive with hmode | hmode
  · obtain ⟨p, hp⟩ := Option.isSome_iff_exists.mp (hsound.running hmode)
    rw [Ne, hsound.inv.count_zero_iff]
    exact fun hall => hsound.inv.ok.placed.loose p (by simp [hp]) _ (hall p)
  · cases e with
    | write a v =>
      have hold := Config.step_live hstep
      rw [Config.step, if_pos hold] at hstep
      obtain rfl := Option.some.inj hstep
      exact hcount
    | trap t todIn todOut =>
      obtain ⟨exit, k, -, hfinish, -⟩ := h.trap_cases hn hsafe hstep
      rw [hmode] at hfinish
      cases exit with
      | ldst => cases hfinish.1
      | panic | undefined => cases hfinish
      | getNewJob =>
        obtain ⟨-, v, hv, hsched⟩ := hfinish
        generalize c'.core = k' at hsched ⊢
        cases hsched with
        | wait hq hpos => exact hpos.ne'
        | dispatch | halt | panic | returns => cases hv

end Config.Sound

/-- The live states of a run whose kills are safe. -/
theorem Config.family_of_run (hn : n ≤ maxProc) {b : Boot n} {root : Fin n} (hroot : b.Starts root)
    {tr : List (Config n × Event)} {c : Config n} (hrun : b.RunsTo tr c)
    (hsafe : ∀ x ∈ tr, x.1.KillSafe x.2) (hlive : c.mode.Live) : c.Sound ∧ c.Family root := by
  refine hrun.invariant (I := fun c => c.mode.Live → c.Sound ∧ c.Family root)
    (G := Config.KillSafe) ?_ ?_ hsafe hlive
  · intro c hb hlive
    obtain ⟨hsound, k, p, hbooted, hready, hcore⟩ := Config.Sound.boot hn hb hlive
    obtain ⟨c₀, hb₀, hcur⟩ := hroot
    obtain rfl := Option.some.inj (hb.symm.trans hb₀)
    have hp : root = p := by
      have hdispatched : c.core.cur = some p := by rw [hcore]; rfl
      exact Option.some.inj (hcur.symm.trans hdispatched)
    subst hp
    refine ⟨hsound, ?_, ?_⟩
    · rw [hcore]
      exact (hbooted.lineage hready).congr rfl (by simp [Core.dispatch])
    · rw [Ne, hsound.inv.count_zero_iff]
      exact fun hall => hsound.cur_not_free hcur (hall root)
  · intro c e c' hc hsafe hstep hlive
    obtain ⟨hsound, hfamily⟩ := hc (Config.step_live hstep)
    exact ⟨hsound.step hn hsafe hstep hlive,
      hsound.step_lineage hn hfamily.lineage hsafe hstep hlive,
      hsound.step_count hn hfamily.count hsafe hstep hlive⟩

/-- In every run, the processes alive are the first one and its descendants, and the parent of a
process is alive. -/
theorem alive_descends (hn : n ≤ maxProc) {b : Boot n} {root : Fin n} (hroot : b.Starts root)
    {tr : List (Config n × Event)} {c : Config n} (hrun : b.RunsTo tr c)
    (hsafe : ∀ x ∈ tr, x.1.KillSafe x.2) (hlive : c.mode.Live) :
    c.nuc.store.pPrnt root = none ∧ root ∉ c.nuc.store.freeList ∧
      (∀ q, q ∉ c.nuc.store.freeList → q = root ∨ Descends c.nuc.store.pPrnt root q) ∧
      ∀ p q, c.nuc.store.pPrnt q = some p → p ∉ c.nuc.store.freeList := by
  obtain ⟨hsound, hfamily⟩ := Config.family_of_run hn hroot hrun hsafe hlive
  refine ⟨hfamily.lineage.parent, fun hfree => ?_, hfamily.lineage.alive, fun p q hparent => ?_⟩
  · exact hfamily.count (hsound.inv.count_zero_iff.mpr (hfamily.lineage.nobody hsound.inv hfree))
  · exact hsound.inv.ok.notMem_free_of_parent hparent

omit [Layout] in
/-- The first process has a child, and the child has one. -/
theorem alive_descends_grandchild : ∃ (_ : Layout) (c : Config maxProc),
    c.nuc.store.freeList = [3, 4, 5, 6, 7, 8, 9, 10, 11, 12, 13, 14, 15, 16, 17, 18, 19] ∧
      c.nuc.store.pPrnt 2 = some 1 ∧ c.nuc.store.pPrnt 0 = none ∧ 0 ∉ c.nuc.store.freeList ∧
      (∀ q, q ∉ c.nuc.store.freeList → q = 0 ∨ Descends c.nuc.store.pPrnt 0 q) ∧
      ∀ p q, c.nuc.store.pPrnt q = some p → p ∉ c.nuc.store.freeList := by
  refine ⟨sampleLayout, ?_⟩
  let _ := sampleLayout
  have hboot : Boot.zero.config.map (·.nuc.currentProcess) = some (some 0) := by decide +kernel
  have hexec : (Boot.zero.config.bind (·.exec [.call 1 0 0 0 10, .timer 5000,
      .call 1 0 0 0 5010])).map (fun c => (c.mode, c.nuc.store.freeList, c.nuc.store.pPrnt 2)) =
        some (.running, [3, 4, 5, 6, 7, 8, 9, 10, 11, 12, 13, 14, 15, 16, 17, 18, 19], some 1) := by
    decide +kernel
  obtain ⟨c, hc, hrest⟩ := Option.map_eq_some_iff.mp hexec
  simp only [Prod.mk.injEq] at hrest
  obtain ⟨hmode, hfree, hparent⟩ := hrest
  obtain ⟨tr, hrun, hevents⟩ := Boot.exec_run hc
  have hcreate : ∀ tod, (Event.call 1 0 0 0 tod).Harmless := fun _ _ h => h
  have htimer : (Event.timer 5000).Harmless := fun _ h => h
  have hharmless : ∀ x ∈ tr, x.2.Harmless := forall_event hevents
    (List.forall_mem_cons.mpr ⟨hcreate 10, List.forall_mem_cons.mpr ⟨htimer,
      List.forall_mem_singleton.mpr (hcreate 5010)⟩⟩)
  exact ⟨c, hfree, hparent, alive_descends le_rfl (Option.map_eq_some_iff.mp hboot) hrun
    (fun x hx => (hharmless x hx).killSafe x.1) (.inl hmode)⟩

namespace Config.Sound

variable {c c' k : Config n} {t : Trap} {todIn todOut : ℤ}

/-- The scheduler halts exactly when nobody is alive. -/
theorem halted_iff_free (hn : n ≤ maxProc) (h : c.Sound) (hsafe : c.KillSafe (.trap t todIn todOut))
    (hstep : c.step (.trap t todIn todOut) = some c') {mode : Mode} {nuc' : Nucleus n}
    (hreact : c.react t todIn todOut = some ((.getNewJob, mode), nuc')) :
    c'.mode = .halted ↔ ∀ q, q ∈ c'.core.lists.q .free := by
  obtain ⟨exit, k, hreact', heffect, hfinish⟩ := h.trap_react hn hsafe hstep
  obtain rfl : exit = .getNewJob := by
    have heq := hreact'.symm.trans hreact
    simp only [Option.some.injEq, Prod.mk.injEq] at heq
    exact heq.1.1
  obtain ⟨hnone, v, hmode, hsched⟩ := hfinish
  have hinv := heffect.inv (h.inv.entered t) (.inr rfl)
  rw [hmode, hsched.tree.2, ← hinv.count_zero_iff]
  generalize c'.core = k' at hsched
  cases hsched with
  | @dispatch p ps hq =>
    refine ⟨fun hm => (by cases hm), fun hzero => ?_⟩
    have hfree := hinv.count_zero_iff.mp hzero p
    cases hinv.ok.placed.eq_of_mem hfree (show p ∈ k.lists.q .ready by simp [hq])
  | halt hq hcount => exact ⟨fun _ => hcount, fun _ => rfl⟩
  | panic hq hpos | wait hq hpos =>
    exact ⟨fun hm => (by cases hm), fun hzero => by omega⟩
  | returns hq hcount =>
    exact ⟨fun hm => (by cases hm), fun hzero => by omega⟩

end Config.Sound

/-- In every run, the machine halts exactly when the first process terminates. -/
theorem halts_iff (hn : n ≤ maxProc) {b : Boot n} {root : Fin n} (hroot : b.Starts root)
    {tr : List (Config n × Event)} {c c' : Config n} (hrun : b.RunsTo tr c)
    (hsafe : ∀ x ∈ tr, x.1.KillSafe x.2) {t : Trap} {todIn todOut : ℤ}
    (hsafe' : c.KillSafe (.trap t todIn todOut))
    (hstep : c.step (.trap t todIn todOut) = some c') :
    c'.mode = .halted ↔
      c.nuc.currentProcess = some root ∧ t.request.Fatal (c.nuc.store.trap root) := by
  obtain ⟨hsound, hfamily⟩ :=
    Config.family_of_run hn hroot hrun hsafe (Config.step_live hstep)
  by_cases hfatal : ∃ p, c.core.cur = some p ∧ t.request.Fatal (c.nuc.store.trap p)
  · obtain ⟨p, hcur, hfatal⟩ := hfatal
    have hp : p ∉ c.core.lists.q .free := hsound.cur_not_free hcur
    obtain ⟨hreact, fs, htree, -, hfree⟩ := hsound.purged hn hcur hsafe' hfatal hstep
    rw [hsound.halted_iff_free hn hsafe' hstep hreact, hfree,
      hfamily.lineage.purge_all hsound.inv hp htree]
    constructor
    · rintro rfl
      exact ⟨hcur, hfatal⟩
    · rintro ⟨hroot, -⟩
      exact Option.some.inj (hcur.symm.trans hroot)
  · have hnot : ∀ p, c.core.cur = some p → ¬ t.request.Fatal (c.nuc.store.trap p) :=
      fun p hp hf => hfatal ⟨p, hp, hf⟩
    refine ⟨fun hmode => ?_, fun ⟨hcur, hf⟩ => absurd hf (hnot root hcur)⟩
    have hsub := (hsound.not_purged hn hfamily.lineage hsafe' hnot hstep (by simp [hmode])
      (by simp [hmode])).2
    obtain ⟨exit, k, hreact, heffect, hfinish⟩ := hsound.trap_react hn hsafe' hstep
    cases exit with
    | ldst => cases hmode.symm.trans hfinish.1
    | panic | undefined => cases hmode.symm.trans hfinish
    | getNewJob =>
      have hall := (hsound.halted_iff_free hn hsafe' hstep hreact).mp hmode
      exact absurd (hsound.inv.count_zero_iff.mpr fun q => hsub (hall q)) hfamily.count

omit [Layout] in
/-- The first process terminates although its child is ready. -/
theorem halts_iff_terminate : ∃ (_ : Layout) (c c' : Config maxProc),
    c.nuc.store.readyList = [1] ∧ c.step (.call 2 0 0 0 20) = some c' ∧
      (c'.mode = .halted ↔ c.nuc.currentProcess = some 0 ∧
        (Trap.call 2 0 0 0).request.Fatal (c.nuc.store.trap 0)) := by
  refine ⟨sampleLayout, ?_⟩
  let _ := sampleLayout
  have hboot : Boot.zero.config.map (·.nuc.currentProcess) = some (some 0) := by decide +kernel
  have hexec : ((Boot.zero.config.bind (·.exec [.call 1 0 0 0 10])).bind fun c =>
      (c.step (.call 2 0 0 0 20)).map fun _ => (c.nuc.store.readyList,
        c.nuc.store.pSemAdd 1)) = some ([1], null) := by
    decide +kernel
  obtain ⟨c, hc, hrest⟩ := Option.bind_eq_some_iff.mp hexec
  obtain ⟨c', hstep, hrest⟩ := Option.map_eq_some_iff.mp hrest
  simp only [Prod.mk.injEq] at hrest
  obtain ⟨hready, hsem⟩ := hrest
  obtain ⟨tr, hrun, hevents⟩ := Boot.exec_run hc
  have hcreate : (Event.call 1 0 0 0 10).Harmless := fun _ h => h
  have hharmless : ∀ x ∈ tr, x.2.Harmless := forall_event hevents
    (List.forall_mem_singleton.mpr hcreate)
  have hsafe : c.KillSafe (.call 2 0 0 0 20) := by
    intro p _ _ q _ hq
    have hq' : q ∈ c.nuc.store.readyList := hq
    rw [hready] at hq'
    obtain rfl := List.mem_singleton.mp hq'
    exact hsem
  exact ⟨c, c', hready, hstep, halts_iff le_rfl (Option.map_eq_some_iff.mp hboot) hrun
    (fun x hx => (hharmless x hx).killSafe x.1) hsafe hstep⟩

end

end Jaeos
