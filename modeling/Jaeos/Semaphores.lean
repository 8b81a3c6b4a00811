import Jaeos.Reach

/-!
# The law of a semaphore

A word that only SYS3, SYS4 and the recursive kill change counts the processes
blocked on it: there are as many as its value is below 0. So SYS3 always finds the
process it wakes. Every run keeps the law as long as its kills are safe.
-/

namespace Jaeos

variable {n : ℕ}

/-! ## The law of a word -/

/-- As many processes are blocked on `w` as its value is below 0. -/
def Core.SemLaw (c : Core n) (w : ℕ) : Prop :=
  ((c.lists.q (.blocked w)).length : ℤ) = max 0 (-(c.mem w).toInt)

namespace Core.SemLaw

variable {c c' : Core n} {w : ℕ} {p : Fin n} {ps : List (Fin n)}

/-- Only the word and its queue matter. -/
theorem congr (h : c.SemLaw w) (hmem : c'.mem w = c.mem w)
    (hq : c'.lists.q (.blocked w) = c.lists.q (.blocked w)) : c'.SemLaw w := by
  rw [SemLaw, hmem, hq]
  exact h

theorem nobody (h : c.SemLaw w) (hw : 0 ≤ (c.mem w).toInt) : c.lists.q (.blocked w) = [] := by
  rw [← List.length_eq_zero_iff]
  rw [SemLaw] at h
  omega

theorem neg (h : c.SemLaw w) (hq : c.lists.q (.blocked w) ≠ []) : (c.mem w).toInt < 0 := by
  by_contra hnonneg
  exact hq (h.nobody (not_lt.mp hnonneg))

/-- There are never so many processes that the word cannot be decremented. -/
theorem bounded (h : c.SemLaw w) (hn : n ≤ maxProc) (hinv : c.Inv) : -2 ^ 31 < (c.mem w).toInt := by
  have hlen := (hinv.ok.placed.nodup (.blocked w)).length_le_card
  rw [Fintype.card_fin] at hlen
  rw [SemLaw] at h
  simp only [maxProc] at hn
  omega

/-- One process less is blocked, and the word is one larger. -/
theorem signal (h : c.SemLaw w) (hmem : c'.mem w = c.mem w + 1)
    (hq : (c.lists.q (.blocked w)).length = (c'.lists.q (.blocked w)).length + 1) :
        c'.SemLaw w := by
  have hneg := h.neg (List.ne_nil_of_length_pos (by omega))
  have hadd := toInt_add_one (x := c.mem w) (by omega)
  rw [SemLaw] at h ⊢
  rw [hmem, hadd]
  omega

/-- Nobody is blocked, and the word gets larger. -/
theorem free (h : c.SemLaw w) (hmem : c'.mem w = c.mem w + 1) (hpos : ¬ (c.mem w + 1).toInt ≤ 0)
    (hq : c'.lists.q (.blocked w) = c.lists.q (.blocked w)) : c'.SemLaw w := by
  have hnonneg : 0 ≤ (c.mem w).toInt := by
    by_contra hneg
    have hadd := toInt_add_one (x := c.mem w) (by omega)
    omega
  have hnil := h.nobody hnonneg
  rw [SemLaw, hmem, hq, hnil, List.length_nil]
  omega

/-- The word is one smaller, and a process is blocked if it is negative then. -/
theorem wait (h : c.SemLaw w) (hlow : -2 ^ 31 < (c.mem w).toInt) (hmem : c'.mem w = c.mem w + -1)
    (hq : (c'.lists.q (.blocked w)).length =
      (c.lists.q (.blocked w)).length + if (c.mem w + -1).toInt < 0 then 1 else 0) :
    c'.SemLaw w := by
  have hsub := toInt_add_neg_one hlow
  rw [SemLaw] at h ⊢
  rw [hmem, hq, hsub]
  split <;> push_cast <;> omega

end Core.SemLaw

theorem Core.add_mem_self (c : Core n) (a : ℕ) (d : Word) : (c.add a d).mem a = c.mem a + d :=
  Function.update_self ..

theorem Core.add_mem_of_ne (c : Core n) {a b : ℕ} (d : Word) (h : b ≠ a) :
    (c.add a d).mem b = c.mem b := Function.update_of_ne h ..

variable [Layout] {w : ℕ}

/-! ## Every effect keeps the law -/

section

variable {areas : Fin n → TrapAreas} {c₀ c c' : Core n} {r : Request} {exit : Exit}

/-- The kill keeps the law. -/
theorem Kills.semLaw (hw : ¬ InSemaphoreArray w) (h : Kills c₀ c) (hlaw : c₀.SemLaw w) :
    c.SemLaw w := by
  induction h with
  | refl => exact hlaw
  | orphan _ _ ih => exact ih.congr rfl rfl
  | ready _ _ _ ih => exact ih.congr rfl (by simp [Core.reap])
  | @blocked c p a _ hp _ ih =>
    by_cases ha : w = a
    · subst ha
      have hlen : 0 < (c.lists.q (.blocked w)).length := List.length_pos_of_mem hp
      rw [Core.compensate, if_neg fun hd => hw hd.inSemaphoreArray]
      refine ih.signal (Function.update_self ..) ?_
      simp only [Core.setMem, Core.reap, Lists.append_q, Lists.setQ_q]
      rw [Function.update_of_ne (by simp), Function.update_self, List.length_erase_of_mem hp]
      omega
    · refine ih.congr ((c.reap (.blocked a) p).compensate_mem_of_ne ha) ?_
      rw [Core.compensate_lists]
      simp [Core.reap, ha]
  | cur _ _ _ ih => exact ih.congr rfl (by simp [Core.reapCur])

omit [Layout] in
/-- Wakeups from a semaphore of the array keep the law of a word outside. -/
theorem Wakes.semLaw {a : ℕ} (ha : w ≠ a) (h : Wakes a c₀ c) (hlaw : c₀.SemLaw w) :
    c.SemLaw w := by
  induction h with
  | refl => exact hlaw
  | next _ _ ih => exact ih.congr rfl (by simp [Core.wake, Core.soften, ha])

/-- A live handler keeps the law, if it moves no state over the word. -/
theorem Effect.semLaw (hn : n ≤ maxProc) (hw : ¬ InSemaphoreArray w)
    (h : Effect areas c r exit c') (hinv : c.Inv) (hlaw : c.SemLaw w)
    (harea : ∀ p type, c.cur = some p → r = .trap type → (areas p).old type ≠ null →
      ¬ InArea ((areas p).old type) w)
    (hexit : exit = .ldst ∨ exit = .getNewJob) : c'.SemLaw w := by
  have hlow := hlaw.bounded hn hinv
  have hdev : ∀ i, i < maxSema → w ≠ semArr i := fun i hi e =>
    hw (e ▸ (isDevSem_semArr hi).inSemaphoreArray)
  have hclock : w ≠ semArr clckTimer := hdev _ (by decide)
  cases h with
  | undefined | clockPanic => simp at hexit
  | createNone | specify | quantumIdle | time => exact hlaw.congr rfl rfl
  | create a hcur hq => exact hlaw.congr rfl (by simp [Core.create, Core.save])
  | kill _ _ _ h => exact h.semLaw hw hlaw
  | signal a hcur ha hpos =>
    by_cases haw : w = a
    · subst haw
      exact hlaw.free (c.add_mem_self ..) hpos rfl
    · exact hlaw.congr (c.add_mem_of_ne _ haw) rfl
  | @wake a p q qs hcur ha hneg hq =>
    by_cases haw : w = a
    · subst haw
      refine hlaw.signal (c.add_mem_self ..) ?_
      simp [Core.wake, Core.add, Core.setMem, hq]
    · exact hlaw.congr (c.add_mem_of_ne _ haw) (by simp [Core.wake, Core.add, Core.setMem, haw])
  | take a hcur ha hpos =>
    by_cases haw : w = a
    · subst haw
      refine hlaw.wait hlow (c.add_mem_self ..) ?_
      rw [if_neg hpos]
      rfl
    · exact hlaw.congr (c.add_mem_of_ne _ haw) rfl
  | block a hcur ha hneg =>
    by_cases haw : w = a
    · subst haw
      refine hlaw.wait hlow (c.add_mem_self ..) ?_
      rw [if_pos hneg]
      simp [Core.block, Core.add, Core.setMem]
    · exact hlaw.congr (c.add_mem_of_ne _ haw) (by simp [Core.block, Core.add, Core.setMem, haw])
  | clock hcur hneg =>
    exact hlaw.congr (c.add_mem_of_ne _ hclock)
      (by simp [Core.block, Core.soften, Core.add, Core.setMem, hclock])
  | ioDone hi hcur hpos => exact hlaw.congr (c.add_mem_of_ne _ (hdev _ hi)) rfl
  | ioWait hi hcur hneg =>
    exact hlaw.congr (c.add_mem_of_ne _ (hdev _ hi))
      (by simp [Core.block, Core.soften, Core.add, Core.setMem, hdev _ hi])
  | passUp type hcur h old new =>
    exact hlaw.congr (writeState_of_not_inArea (harea _ type hcur rfl h)) rfl
  | tick h hq => exact (h.semLaw hclock hlaw).congr (Function.update_of_ne hclock ..) rfl
  | quantum hcur => exact hlaw.congr rfl (by simp [Core.preempt])
  | ioSignal status keep hi hpos => exact hlaw.congr (c.add_mem_of_ne _ (hdev _ hi)) rfl
  | ioWake status keep hi hneg hq =>
    exact hlaw.congr (c.add_mem_of_ne _ (hdev _ hi))
      (by simp [Core.wake, Core.soften, Core.save, Core.add, Core.setMem, hdev _ hi])
  | ioLost status keep hi hneg hq =>
    cases keep with
    | false => exact hlaw.congr (c.add_mem_of_ne _ (hdev _ hi)) rfl
    | true => exact hlaw.congr (c.add_mem_of_ne _ (hdev _ hi)) rfl

/-- What SYS3 does to a word that counts the processes blocked on it. -/
theorem Effect.verhogen (h : Effect areas c (.verhogen w) exit c') (hnull : w ≠ null)
    (hlaw : c.SemLaw w) (hmax : (c.mem w).toInt + 1 < 2 ^ 31) :
    exit = .ldst ∧ c'.mem w = c.mem w + 1 ∧ ((c.mem w + 1).toInt ≤ 0 →
      ∃ q, c.lists.q (.blocked w) = q :: c'.lists.q (.blocked w) ∧ c'.lists.semAdd q = null) := by
  generalize hr : Request.verhogen w = r at h
  cases h with
  | undefined hfails =>
    subst hr
    obtain hw | ⟨hneg, hnil⟩ := hfails
    · exact absurd hw hnull
    · have hadd := toInt_add_one (x := c.mem w) (by omega)
      rw [Core.SemLaw, hnil, List.length_nil] at hlaw
      omega
  | kill r hcur hfatal =>
    subst hr
    exact hfatal.elim
  | signal a hcur ha hpos =>
    obtain rfl := Request.verhogen.inj hr
    exact ⟨rfl, c.add_mem_self .., fun hneg => absurd hneg hpos⟩
  | @wake a p q qs hcur ha hneg hq =>
    obtain rfl := Request.verhogen.inj hr
    refine ⟨rfl, c.add_mem_self .., fun _ => ⟨q, ?_, Function.update_self ..⟩⟩
    rw [hq]
    simp [Core.wake]
  | _ => cases hr

omit [Layout] in
theorem Sched.semLaw {v : Verdict} (h : Sched c v c') (hlaw : c.SemLaw w) : c'.SemLaw w := by
  cases h with
  | dispatch hq => exact hlaw.congr rfl (by simp [Core.dispatch])
  | halt | panic | wait | returns => exact hlaw

end

/-! ## Every run -/

/-- The event leaves the word `w` to SYS3, SYS4 and the kill: it is initialised only while nobody
is blocked on it, with a value that is not negative, and no state is moved over it. -/
def Config.LeavesSem (w : ℕ) (c : Config n) : Event → Prop
  | .write a v => a = w → 0 ≤ v.toInt ∧ c.nuc.store.blockedOn w = []
  | .trap t _ _ => ∀ p type, c.core.cur = some p → t.request = .trap type →
    (c.nuc.store.trap p).old type ≠ null → ¬ InArea ((c.nuc.store.trap p).old type) w

/-- The event stores nothing, and is no trap that can be passed up. -/
def Event.Plain : Event → Bool
  | .write _ _ => false
  | .trap t _ _ =>
    match t.request with
    | .trap _ => false
    | _ => true

omit [Layout] in
theorem Config.leavesSem_of_plain {e : Event} (h : e.Plain) (c : Config n) : c.LeavesSem w e := by
  cases e with
  | write a v => cases h
  | trap t todIn todOut =>
    intro p type _ ht
    simp [Event.Plain, ht] at h

/-- The word `w` counts the processes blocked on it. -/
structure Config.SemaphoreLaw (c : Config n) (w : ℕ) : Prop where
  /-- as many processes are blocked as the value is below 0 -/
  count : ((c.nuc.store.blockedOn w).length : ℤ) = max 0 (-(c.nuc.mem w).toInt)
  /-- nobody is blocked on a semaphore that is not negative -/
  nobody : 0 ≤ (c.nuc.mem w).toInt → c.nuc.store.blockedOn w = []
  /-- `removeBlocked` finds a process when an increment leaves the value not positive -/
  oldest : (c.nuc.mem w).toInt + 1 ≤ 0 →
    ∃ p st, (removeBlocked w).run c.nuc.store = some (some p, st)
  /-- SYS3 goes back to the process that called it; if the value is not positive then, the
  oldest of the blocked processes has been woken -/
  verhogen : ∀ t todIn todOut, t.request = .verhogen w → t.Enabled c.mode →
    (c.nuc.mem w).toInt + 1 < 2 ^ 31 → ∃ c', c.step (.trap t todIn todOut) = some c' ∧
      c'.mode = .running ∧ (c'.nuc.mem w).toInt = (c.nuc.mem w).toInt + 1 ∧
      ((c'.nuc.mem w).toInt ≤ 0 →
        ∃ p, c.nuc.store.blockedOn w = p :: c'.nuc.store.blockedOn w ∧
          c'.nuc.store.pSemAdd p = null)

namespace Config.Sound

variable {c c' : Config n}

/-- A safe step that leaves the word to the semaphore operations keeps the law. -/
theorem step_semLaw (hn : n ≤ maxProc) (hw : ¬ InSemaphoreArray w) (h : c.Sound)
    (hlaw : c.core.SemLaw w) {e : Event} (hleaves : c.LeavesSem w e) (hsafe : c.KillSafe e)
    (hstep : c.step e = some c') (hlive : c'.mode.Live) : c'.core.SemLaw w := by
  cases e with
  | write a v =>
    have hold := Config.step_live hstep
    rw [Config.step, if_pos hold] at hstep
    obtain rfl := Option.some.inj hstep
    by_cases ha : a = w
    · obtain ⟨hv, hnil⟩ := hleaves ha
      have hmem : (c.core.setMem a v).mem w = v := by rw [← ha]; exact Function.update_self ..
      change (c.core.setMem a v).SemLaw w
      rw [Core.SemLaw, hmem]
      change ((c.nuc.store.blockedOn w).length : ℤ) = _
      rw [hnil, List.length_nil]
      omega
    · exact hlaw.congr (Function.update_of_ne (Ne.symm ha) ..) rfl
  | trap t todIn todOut =>
    obtain ⟨exit, k, heffect, hfinish, -⟩ := h.trap_cases hn hsafe hstep
    have hentered : (c.core.entered t).SemLaw w :=
      hlaw.congr (congrFun (c.core.entered_mem t) w) (by rw [Core.entered_lists])
    have hk := heffect.semLaw hn hw (h.inv.entered t) hentered fun p type hcur =>
      hleaves p type (c.core.entered_cur t ▸ hcur)
    cases exit with
    | ldst => exact hfinish.2 ▸ hk (.inl rfl)
    | getNewJob =>
      obtain ⟨-, v, -, hsched⟩ := hfinish
      exact hsched.semLaw (hk (.inr rfl))
    | panic =>
      rw [hfinish] at hlive
      simp [Mode.Live] at hlive
    | undefined =>
      rw [hfinish] at hlive
      simp [Mode.Live] at hlive

/-- SYS3 on a word that counts the processes blocked on it. -/
theorem verhogen (hn : n ≤ maxProc) (hnull : w ≠ null) (h : c.Sound) (hlaw : c.core.SemLaw w)
    {t : Trap} {todIn todOut : ℤ} (ht : t.request = .verhogen w) (henabled : t.Enabled c.mode)
    (hmax : (c.nuc.mem w).toInt + 1 < 2 ^ 31) :
    ∃ c', c.step (.trap t todIn todOut) = some c' ∧ c'.mode = .running ∧
      (c'.nuc.mem w).toInt = (c.nuc.mem w).toInt + 1 ∧ ((c'.nuc.mem w).toInt ≤ 0 →
        ∃ p, c.nuc.store.blockedOn w = p :: c'.nuc.store.blockedOn w ∧
          c'.nuc.store.pSemAdd p = null) := by
  have hsafe : c.KillSafe (.trap t todIn todOut) := fun p _ hfatal => by
    rw [ht] at hfatal
    exact hfatal.elim
  obtain ⟨exit, mode, nuc', k, hrun, -, heffect, hfinish⟩ := h.react hn henabled hsafe
  have hmem : (c.core.entered t).mem = c.nuc.mem := c.core.entered_mem t
  have hlists : (c.core.entered t).lists = c.nuc.store.lists := c.core.entered_lists t
  have hentered : (c.core.entered t).SemLaw w :=
    hlaw.congr (congrFun hmem w) (congrArg (fun l => l.q (.blocked w)) hlists)
  rw [ht] at heffect
  obtain ⟨rfl, hmem', hwake⟩ := heffect.verhogen hnull hentered (by rwa [hmem])
  obtain ⟨hmode, rfl⟩ := hfinish
  rw [hmem] at hmem' hwake
  rw [hlists] at hwake
  have hadd : (c.nuc.mem w + 1).toInt = (c.nuc.mem w).toInt + 1 := toInt_add_one (by omega)
  have hval : (nuc'.mem w).toInt = (c.nuc.mem w).toInt + 1 := by
    rw [← hadd]
    exact congrArg BitVec.toInt hmem'
  refine ⟨⟨mode, nuc'⟩, ?_, hmode, hval, fun hneg => hwake ?_⟩
  · rw [Config.step, if_pos henabled, hrun]
    rfl
  · rw [hadd, ← hval]
    exact hneg

end Config.Sound

/-- In a run whose kills are safe, a semaphore that starts out not negative and is left to SYS3,
SYS4 and the kill counts the processes blocked on it. -/
theorem semaphore_law (hn : n ≤ maxProc) {w : ℕ} (hnull : w ≠ null) (hw : ¬ InSemaphoreArray w)
    {b : Boot n} (hb : 0 ≤ (b.vars.mem w).toInt) {tr : List (Config n × Event)} {c : Config n}
    (hrun : b.RunsTo tr c) (hleaves : ∀ x ∈ tr, x.1.LeavesSem w x.2)
    (hsafe : ∀ x ∈ tr, x.1.KillSafe x.2) (hlive : c.mode.Live) : c.SemaphoreLaw w := by
  obtain ⟨hsound, hlaw⟩ : c.Sound ∧ c.core.SemLaw w := by
    refine hrun.invariant (I := fun c => c.mode.Live → c.Sound ∧ c.core.SemLaw w)
      (G := fun c e => c.LeavesSem w e ∧ c.KillSafe e) ?_ ?_
      (fun x hx => ⟨hleaves x hx, hsafe x hx⟩) hlive
    · intro c hc hlive
      obtain ⟨hsound, k, p, hbooted, -, hcore⟩ := Config.Sound.boot hn hc hlive
      refine ⟨hsound, hcore ▸ ?_⟩
      have hmem : k.mem w = b.vars.mem w := hbooted.mem w fun i hi e =>
        hw (e ▸ (isDevSem_semArr hi).inSemaphoreArray)
      have hq : (k.dispatch p []).lists.q (.blocked w) = [] := by
        simpa [Core.dispatch] using hbooted.blocked w
      change (((k.dispatch p []).lists.q (.blocked w)).length : ℤ) = max 0 (-(k.mem w).toInt)
      rw [hq, hmem, List.length_nil]
      omega
    · intro c e c' hc hok hstep hlive
      obtain ⟨hsound, hlaw⟩ := hc (Config.step_live hstep)
      exact ⟨hsound.step hn hok.2 hstep hlive,
        hsound.step_semLaw hn hw hlaw hok.1 hok.2 hstep hlive⟩
  refine ⟨hlaw, hlaw.nobody, fun hneg => ?_, fun t todIn todOut ht henabled hmax =>
    hsound.verhogen hn hnull hlaw ht henabled hmax⟩
  cases hq : c.nuc.store.lists.q (.blocked w) with
  | nil =>
    have hcount : ((c.nuc.store.lists.q (.blocked w)).length : ℤ) = max 0 (-(c.nuc.mem w).toInt) :=
      hlaw
    rw [hq, List.length_nil] at hcount
    omega
  | cons p ps =>
    obtain ⟨st, hrun, -⟩ := removeBlocked_cons hsound.rep.store hq
    exact ⟨p, st, hrun⟩

/-- Another process waits for the semaphore at 0x10000 when the parent of the process in the PCB
used again is killed. -/
def lostWakeup : List Event :=
  reuse.take 7 ++ [.call 1 0 0 0 15000, .call 4 0x10000 0 0 15000] ++
    List.replicate 17 (.call 1 0 0 0 15000) ++ [.call 2 0 0 0 15000]

omit [Layout] in
/-- The first process creates another one and waits for the semaphore at 0x10000. -/
theorem semaphore_law_wait : ∃ (_ : Layout) (tr : List (Config maxProc × Event))
    (c : Config maxProc), tr.map Prod.snd = [.call 4 0x10000 0 0 20, .call 1 0 0 0 10] ∧
      Boot.zero.RunsTo tr c ∧ c.SemaphoreLaw 0x10000 := by
  refine ⟨sampleLayout, ?_⟩
  let _ := sampleLayout
  have hexec : (Boot.zero.config.bind (·.exec [.call 1 0 0 0 10, .call 4 0x10000 0 0 20])).map
      (·.mode) = some .running := by
    decide +kernel
  obtain ⟨c, hc, hmode⟩ := Option.map_eq_some_iff.mp hexec
  obtain ⟨tr, hrun, htr⟩ := Boot.exec_run hc
  have hplain := forall_event (P := fun e => e.Plain) htr (by decide)
  have hcreate : (Event.call 1 0 0 0 10).Harmless := fun _ h => h
  have hwait : (Event.call 4 0x10000 0 0 20).Harmless := fun _ h => h
  have hsafe : ∀ x ∈ tr, x.2.Harmless := forall_event htr
    (List.forall_mem_cons.mpr ⟨hcreate, List.forall_mem_singleton.mpr hwait⟩)
  exact ⟨tr, c, htr, hrun, semaphore_law le_rfl (by decide) (by decide) (by decide) hrun
    (fun x hx => x.1.leavesSem_of_plain (hplain x hx))
      (fun x hx => (hsafe x hx).killSafe x.1) (.inl hmode)⟩

omit [Layout] in
/-- The kill of the process in the PCB used again increments a semaphore on which another
process is blocked, and nobody wakes that one. -/
theorem semaphore_law_fails : ¬ ∀ (_ : Layout) (w : ℕ), w ≠ null → ¬ InSemaphoreArray w →
    ∀ (b : Boot maxProc), 0 ≤ (b.vars.mem w).toInt →
      ∀ (tr : List (Config maxProc × Event)) (c : Config maxProc), b.RunsTo tr c →
        (∀ x ∈ tr, x.1.LeavesSem w x.2) → c.mode.Live → c.SemaphoreLaw w := by
  intro h
  let _ := sampleLayout
  have hexec : (Boot.zero.config.bind (·.exec lostWakeup)).map (fun c =>
      (c.mode, c.nuc.mem 0x10000, c.nuc.store.blockedOn 0x10000)) = some (.running, 0, [0]) := by
    decide +kernel
  obtain ⟨c, hc, hrest⟩ := Option.map_eq_some_iff.mp hexec
  simp only [Prod.mk.injEq] at hrest
  obtain ⟨hmode, hmem, hblocked⟩ := hrest
  obtain ⟨tr, hrun, htr⟩ := Boot.exec_run hc
  have hplain := forall_event (P := fun e => e.Plain) htr (by decide)
  have hlaw := h _ 0x10000 (by decide) (by decide) Boot.zero (by decide) tr c hrun
    (fun x hx => x.1.leavesSem_of_plain (hplain x hx)) (.inl hmode)
  have hnobody := hlaw.nobody (by rw [hmem]; decide)
  rw [hblocked] at hnobody
  cases hnobody

end Jaeos
