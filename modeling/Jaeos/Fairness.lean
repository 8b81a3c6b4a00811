import Jaeos.Reach
import Jaeos.Lib.Fifo

/-!
# Nobody is overtaken

While a process is ready, the processes that are dispatched are those that were in
front of it in the ready queue, in that order and each at most once; and while it is
blocked on a semaphore, the same holds of those that are woken from there. This is
so in every run, whatever happens to the other processes, as long as kills are safe.
-/

namespace Jaeos

variable {n : ℕ} [Layout]

/-- The process that the scheduler takes off the ready queue in an event. -/
def Config.dispatched (c : Config n) : Event → List (Fin n)
  | .write _ _ => []
  | .trap t todIn todOut =>
    match c.react t todIn todOut with
    | some ((.getNewJob, .running), nuc) => nuc.currentProcess.toList
    | _ => []

/-- The processes blocked on `a` that an event makes ready; one of them may run already. -/
def Config.woken (a : ℕ) (c : Config n) (e : Event) : List (Fin n) :=
  match c.step e with
  | none => []
  | some c' => (c.nuc.store.blockedOn a).filter fun p =>
    decide (p ∈ c'.nuc.store.readyList ∨ c'.nuc.currentProcess = some p)

/-! ## The ready queue -/

section

variable {areas : Fin n → TrapAreas} {c₀ c c' : Core n} {r : Request} {exit : Exit} {a : ℕ}
  {p : Fin n}

omit [Layout] in
theorem Wakes.ready (h : Wakes a c₀ c) : ∃ xs, c.lists.q .ready = c₀.lists.q .ready ++ xs := by
  induction h with
  | refl => exact ⟨[], (List.append_nil _).symm⟩
  | @next c p ps _ _ ih =>
    obtain ⟨xs, hxs⟩ := ih
    refine ⟨xs ++ [p], ?_⟩
    rw [← List.append_assoc, ← hxs]
    simp [Core.wake, Core.soften]

/-- A handler only puts processes at the end of the ready queue, or kills some. -/
theorem Effect.waits_ready (h : Effect areas c r exit c') (hinv : c.Inv)
    (hexit : exit = .ldst ∨ exit = .getNewJob) (hp : p ∈ c.lists.q .ready)
    (hp' : p ∈ c'.lists.q .ready) :
    Fifo.Waits p (c.lists.q .ready) [] (c'.lists.q .ready) := by
  have hsame : ∀ {l}, l = c.lists.q .ready → Fifo.Waits p (c.lists.q .ready) [] l := by
    rintro _ rfl
    exact .refl p _
  have hjoin : ∀ {l} xs, l = c.lists.q .ready ++ xs → Fifo.Waits p (c.lists.q .ready) [] l := by
    rintro _ xs rfl
    exact .join hp xs
  cases h with
  | undefined | clockPanic => simp at hexit
  | createNone | specify | quantumIdle | time | signal | take | ioDone | passUp | ioSignal =>
    exact hsame rfl
  | @create a p' q qs hcur hq => exact hjoin [q] (by simp [Core.create, Core.save])
  | kill _ _ _ h => exact .leave (h.sublist (by simp)) hp' (hinv.ok.placed.nodup .ready)
  | @wake a p' q qs hcur ha hneg hq =>
    exact hjoin [q] (by simp [Core.wake, Core.add, Core.setMem])
  | block a hcur ha hneg => exact hsame (by simp [Core.block, Core.add, Core.setMem])
  | clock hcur hneg => exact hsame (by simp [Core.block, Core.soften, Core.add, Core.setMem])
  | ioWait hi hcur hneg => exact hsame (by simp [Core.block, Core.soften, Core.add, Core.setMem])
  | tick h hq =>
    obtain ⟨xs, hxs⟩ := h.ready
    exact hjoin xs hxs
  | @quantum p' hcur => exact hjoin [p'] (by simp [Core.preempt])
  | @ioWake i status keep q qs hi hneg hq =>
    exact hjoin [q] (by simp [Core.wake, Core.soften, Core.save, Core.add, Core.setMem])
  | ioLost status keep =>
    cases keep with
    | false => exact hsame rfl
    | true => exact hsame rfl

omit [Layout] in
/-- The scheduler takes the first process of the ready queue. -/
theorem Sched.waits_ready {v : Verdict} (h : Sched c v c') (hinv : c.Inv)
    (hp' : p ∈ c'.lists.q .ready) : p ∈ c.lists.q .ready ∧ ∃ q, v = .ldst ∧ c'.cur = some q ∧
      Fifo.Waits p (c.lists.q .ready) [q] (c'.lists.q .ready) := by
  cases h with
  | @dispatch q qs hq =>
    have hrest : p ∈ qs := by simpa [Core.dispatch] using hp'
    have hnd := hinv.ok.placed.nodup .ready
    rw [hq] at hnd ⊢
    refine ⟨List.mem_cons_of_mem q hrest, q, rfl, rfl, ?_⟩
    rw [Core.dispatch, Lists.setQ_q, Function.update_self]
    exact .serve fun e => (List.nodup_cons.mp hnd).1 (e ▸ hrest)
  | halt hq | panic hq | wait hq | returns hq =>
    have hnil : p ∈ c.lists.q .ready := hp'
    rw [hq] at hnil
    cases hnil

end

/-! ## The queue of a semaphore -/

/-- The process is ready or runs. -/
def Core.Up (c : Core n) (p : Fin n) : Prop := p ∈ c.lists.q .ready ∨ c.cur = some p

instance (c : Core n) : DecidablePred c.Up := fun p =>
  inferInstanceAs (Decidable (p ∈ c.lists.q .ready ∨ c.cur = some p))

section

variable {areas : Fin n → TrapAreas} {c₀ c c' : Core n} {r : Request} {exit : Exit} {a : ℕ}
  {p : Fin n}

omit [Layout] in
/-- A blocked process is neither ready nor running. -/
theorem Core.Inv.not_up (h : c.Inv) (hp : p ∈ c.lists.q (.blocked a)) : ¬ c.Up p := by
  rintro (hready | hcur)
  · cases h.ok.placed.eq_of_mem hp hready
  · exact h.ok.placed.loose p (by simp [hcur]) _ hp

/-- The kill lets nobody run. -/
theorem Kills.up (h : Kills c₀ c) (hp : c.Up p) : c₀.Up p := by
  have hcur : ∀ q, c.cur = some q → c₀.cur = some q := by
    clear hp
    induction h with
    | refl => exact fun q hq => hq
    | orphan _ _ ih | ready _ _ _ ih => exact ih
    | @blocked c x a _ _ _ ih =>
      intro q hq
      refine ih q (hq ▸ ?_)
      rw [Core.compensate]
      split <;> rfl
    | cur _ _ _ ih => exact fun q hq => by cases hq
  exact hp.imp (fun hready => (h.sublist (by simp)).subset hready) fun hq => hcur p hq

omit [Layout] in
/-- Waking a queue one process after the other. -/
theorem Wakes.other {b : ℕ} (h : Wakes b c₀ c) (hab : a ≠ b) :
    c.lists.q (.blocked a) = c₀.lists.q (.blocked a) := by
  induction h with
  | refl => rfl
  | next _ _ ih =>
    rw [← ih]
    simp [Core.wake, Core.soften, hab]

/-- Between two states in which `p` is blocked on `a`, those who were woken from the queue were in
front of it. -/
def Core.InTurn (c c' : Core n) (a : ℕ) (p : Fin n) : Prop :=
  Fifo.Waits p (c.lists.q (.blocked a)) ((c.lists.q (.blocked a)).filter fun x => c'.Up x)
    (c'.lists.q (.blocked a))

namespace Core.InTurn

omit [Layout] in
theorem filter_up_nil (hinv' : c'.Inv) {l : List (Fin n)} (hl : l ⊆ c'.lists.q (.blocked a)) :
    (l.filter fun x => c'.Up x) = [] := by
  refine List.filter_eq_nil_iff.mpr fun x hx => ?_
  simpa using hinv'.not_up (hl hx)

omit [Layout] in
/-- Others join the queue. -/
theorem join (hinv' : c'.Inv) (hp : p ∈ c.lists.q (.blocked a)) (xs : List (Fin n))
    (hq : c'.lists.q (.blocked a) = c.lists.q (.blocked a) ++ xs) : c.InTurn c' a p := by
  have hstay : c.lists.q (.blocked a) ⊆ c'.lists.q (.blocked a) := by
    rw [hq]
    exact List.subset_append_left ..
  rw [InTurn, filter_up_nil hinv' hstay, hq]
  exact .join hp xs

omit [Layout] in
/-- Nothing happens to the queue. -/
theorem same (hinv' : c'.Inv) (hp : p ∈ c.lists.q (.blocked a))
    (hq : c'.lists.q (.blocked a) = c.lists.q (.blocked a)) : c.InTurn c' a p :=
  join hinv' hp [] (by rw [hq, List.append_nil])

omit [Layout] in
/-- The first process of the queue becomes ready. -/
theorem wake (hinv' : c'.Inv) (hp' : p ∈ c'.lists.q (.blocked a)) {x : Fin n}
    (hq : c.lists.q (.blocked a) = x :: c'.lists.q (.blocked a)) (hx : x ∈ c'.lists.q .ready) :
    c.InTurn c' a p := by
  have hup : c'.Up x := .inl hx
  have hne : x ≠ p := fun e => hinv'.not_up hp' (e ▸ hup)
  rw [InTurn, hq, List.filter_cons_of_pos (by simpa using hup),
    filter_up_nil hinv' (List.Subset.refl _)]
  exact .serve hne

/-- Some processes are killed. -/
theorem kill (h : Kills c c') (hinv : c.Inv) (hp' : p ∈ c'.lists.q (.blocked a)) :
    c.InTurn c' a p := by
  have hnobody : ((c.lists.q (.blocked a)).filter fun x => c'.Up x) = [] := by
    refine List.filter_eq_nil_iff.mpr fun x hx => ?_
    simpa using fun hup => hinv.not_up hx (h.up hup)
  rw [InTurn, hnobody]
  exact .leave (h.sublist (by simp)) hp' (hinv.ok.placed.nodup _)

end Core.InTurn

/-- A handler wakes the first process of a queue, lets one join at the end or kills some. -/
theorem Effect.inTurn (h : Effect areas c r exit c') (hinv : c.Inv)
    (hexit : exit = .ldst ∨ exit = .getNewJob) (hp : p ∈ c.lists.q (.blocked a))
    (hp' : p ∈ c'.lists.q (.blocked a)) : c.InTurn c' a p := by
  have hinv' := h.inv hinv hexit
  have hsame : c'.lists.q (.blocked a) = c.lists.q (.blocked a) → c.InTurn c' a p :=
    Core.InTurn.same hinv' hp
  cases h with
  | undefined | clockPanic => simp at hexit
  | createNone | specify | quantumIdle | time | signal | take | ioDone | passUp | ioSignal =>
    exact hsame rfl
  | create b hcur hq => exact hsame (by simp [Core.create, Core.save])
  | kill _ _ _ h => exact .kill h hinv hp'
  | @wake b q p' qs hcur hb hneg hq =>
    by_cases hab : a = b
    · subst hab
      refine .wake hinv' hp' (x := p') ?_ ?_
      · rw [hq]
        simp [Core.wake]
      · simp [Core.wake]
    · exact hsame (by simp [Core.wake, Core.add, Core.setMem, hab])
  | @block b q hcur =>
    by_cases hab : a = b
    · subst hab
      exact .join hinv' hp [q] (by simp [Core.block, Core.add, Core.setMem])
    · exact hsame (by simp [Core.block, Core.add, Core.setMem, hab])
  | @clock q hcur =>
    by_cases hab : a = semArr clckTimer
    · subst hab
      exact .join hinv' hp [q] (by simp [Core.block, Core.soften, Core.add, Core.setMem])
    · exact hsame (by simp [Core.block, Core.soften, Core.add, Core.setMem, hab])
  | @ioWait i q hi hcur =>
    by_cases hab : a = semArr i
    · subst hab
      exact .join hinv' hp [q] (by simp [Core.block, Core.soften, Core.add, Core.setMem])
    · exact hsame (by simp [Core.block, Core.soften, Core.add, Core.setMem, hab])
  | @tick c₁ h hq =>
    by_cases hab : a = semArr clckTimer
    · -- a tick empties the queue, so nobody stays in it
      subst hab
      have hnil : p ∈ c₁.lists.q (.blocked (semArr clckTimer)) := hp'
      rw [hq] at hnil
      cases hnil
    · exact hsame (h.other hab)
  | quantum hcur => exact hsame (by simp [Core.preempt])
  | @ioWake i status keep p' qs hi hneg hq =>
    by_cases hab : a = semArr i
    · subst hab
      refine .wake hinv' hp' (x := p') ?_ ?_
      · rw [hq]
        simp [Core.wake, Core.soften, Core.save]
      · simp [Core.wake, Core.soften, Core.save]
    · exact hsame (by simp [Core.wake, Core.soften, Core.save, Core.add, Core.setMem, hab])
  | ioLost status keep =>
    cases keep with
    | false => exact hsame rfl
    | true => exact hsame rfl

omit [Layout] in
/-- The scheduler leaves the queues of the semaphores, and who is ready or running. -/
theorem Sched.blocked_up {v : Verdict} (h : Sched c v c') (hcur : c.cur = none) (a : ℕ) :
    c'.lists.q (.blocked a) = c.lists.q (.blocked a) ∧ ∀ x, c'.Up x ↔ c.Up x := by
  cases h with
  | @dispatch q qs hq =>
    refine ⟨by simp [Core.dispatch], fun x => ?_⟩
    simp only [Core.Up, Core.dispatch, Lists.setQ_q, Function.update_self, hq, hcur, List.mem_cons,
      Option.some.injEq, reduceCtorEq, or_false]
    constructor
    · rintro (hx | rfl)
      · exact .inr hx
      · exact .inl rfl
    · rintro (rfl | hx)
      · exact .inr rfl
      · exact .inl hx
  | halt | panic | wait | returns =>
    refine ⟨rfl, fun x => ?_⟩
    simp [Core.Up, Core.leave, hcur]

end

namespace Config.Sound

variable {c c' : Config n} {e : Event} {p : Fin n}

/-- Those who are dispatched in a step while a process stays ready. -/
theorem step_waits_ready (hn : n ≤ maxProc) (h : c.Sound) (hsafe : c.KillSafe e)
    (hstep : c.step e = some c') (hlive : c'.mode.Live) (hp : p ∈ c.nuc.store.readyList)
    (hp' : p ∈ c'.nuc.store.readyList) :
    Fifo.Waits p c.nuc.store.readyList (c.dispatched e) c'.nuc.store.readyList := by
  cases e with
  | write a v =>
    have hold := Config.step_live hstep
    rw [Config.step, if_pos hold] at hstep
    obtain rfl := Option.some.inj hstep
    exact .refl p _
  | trap t todIn todOut =>
    obtain ⟨exit, k, hreact, heffect, hfinish⟩ := h.trap_react hn hsafe hstep
    have hready : (c.core.entered t).lists.q .ready = c.nuc.store.readyList := by
      rw [Core.entered_lists]
      rfl
    have hinv := h.inv.entered t
    rw [Config.dispatched, hreact]
    cases exit with
    | ldst =>
      obtain ⟨-, hcore⟩ := hfinish
      have hk : k.lists.q .ready = c'.nuc.store.readyList := by
        rw [← hcore]
        rfl
      rw [← hready] at hp ⊢
      rw [← hk] at hp' ⊢
      exact heffect.waits_ready hinv (.inl rfl) hp hp'
    | getNewJob =>
      obtain ⟨-, v, hmode, hsched⟩ := hfinish
      obtain ⟨hpk, q, rfl, hcur, hserve⟩ :=
        hsched.waits_ready (heffect.inv hinv (.inr rfl)) hp'
      rw [← hready] at hp ⊢
      have hwaits := heffect.waits_ready hinv (.inr rfl) hp hpk
      have hq : c'.nuc.currentProcess = some q := hcur
      rw [hmode]
      simp only [Verdict.mode, hq, Option.toList_some]
      exact hwaits.trans hserve
    | panic =>
      rw [hfinish] at hlive
      simp [Mode.Live] at hlive
    | undefined =>
      rw [hfinish] at hlive
      simp [Mode.Live] at hlive

/-- Those who are woken in a step while a process stays blocked. -/
theorem step_waits_blocked {a : ℕ} (hn : n ≤ maxProc) (h : c.Sound) (hsafe : c.KillSafe e)
    (hstep : c.step e = some c') (hlive : c'.mode.Live) (hp : p ∈ c.nuc.store.blockedOn a)
    (hp' : p ∈ c'.nuc.store.blockedOn a) :
    Fifo.Waits p (c.nuc.store.blockedOn a) (c.woken a e) (c'.nuc.store.blockedOn a) := by
  have hwoken : c.woken a e = (c.nuc.store.blockedOn a).filter fun x => c'.core.Up x := by
    rw [Config.woken, hstep]
    rfl
  have hsound := h.step hn hsafe hstep hlive
  rw [hwoken]
  cases e with
  | write b v =>
    have hold := Config.step_live hstep
    rw [Config.step, if_pos hold] at hstep
    obtain rfl := Option.some.inj hstep
    exact Core.InTurn.same (c := c.core) hsound.inv hp rfl
  | trap t todIn todOut =>
    obtain ⟨exit, k, -, heffect, hfinish⟩ := h.trap_react hn hsafe hstep
    have hq : (c.core.entered t).lists.q (.blocked a) = c.nuc.store.blockedOn a := by
      rw [Core.entered_lists]
      rfl
    have hinv := h.inv.entered t
    rw [← hq] at hp ⊢
    change (c.core.entered t).InTurn c'.core a p
    cases exit with
    | ldst =>
      obtain ⟨-, hcore⟩ := hfinish
      rw [hcore]
      exact heffect.inTurn hinv (.inl rfl) hp (hcore ▸ hp')
    | getNewJob =>
      obtain ⟨hnone, v, -, hsched⟩ := hfinish
      obtain ⟨hblocked, hup⟩ := hsched.blocked_up hnone a
      have hk : p ∈ k.lists.q (.blocked a) := hblocked ▸ hp'
      have hturn := heffect.inTurn hinv (.inr rfl) hp hk
      rw [Core.InTurn, ← hblocked] at hturn
      simpa only [Core.InTurn, hup] using hturn
    | panic =>
      rw [hfinish] at hlive
      simp [Mode.Live] at hlive
    | undefined =>
      rw [hfinish] at hlive
      simp [Mode.Live] at hlive

end Config.Sound

/-! ## Every run -/

section

variable {pre tr : List (Config n × Event)} {c₀ c : Config n} {p : Fin n}

/-- What holds of each step in which a process stays in a queue holds of a run in which it does. -/
theorem Config.RunsTo.in_turn {queue : Config n → List (Fin n)}
    {serves : Config n → Event → List (Fin n)}
    (hone : ∀ {c c' : Config n} {e : Event}, c.Sound → c.KillSafe e → c.step e = some c' →
      c'.mode.Live → p ∈ queue c → p ∈ queue c' →
      Fifo.Waits p (queue c) (serves c e) (queue c'))
    (hn : n ≤ maxProc) (hpre : Run pre c₀) (hrun : c₀.RunsTo tr c)
    (hsafe : ∀ x ∈ tr ++ pre, x.1.KillSafe x.2) (hlive : c.mode.Live)
    (hstay : ∀ x ∈ tr, p ∈ queue x.1) (hend : p ∈ queue c) :
    (Fifo.total serves tr).Sublist (Fifo.before p (queue c₀)) ∧
      (Fifo.total serves tr).length + (queue c).idxOf p ≤ (queue c₀).idxOf p := by
  have hsound := Config.Sound.of_mem hn (hpre.append hrun) hsafe
  have hwaits : Fifo.Waits p (queue c₀) (Fifo.total serves tr) (queue c) := by
    refine Fifo.Waits.of_run (G := fun c e => c.Sound ∧ c.KillSafe e)
      (W := fun c => c.mode.Live ∧ p ∈ queue c) ?_ hrun ?_ ?_ ⟨hlive, hend⟩
    · rintro c e c' ⟨hc, hsafe⟩ hstep ⟨-, hp⟩ ⟨hlive, hp'⟩
      exact hone hc hsafe hstep hlive hp hp'
    · intro x hx
      have hmem : x ∈ tr ++ pre := List.mem_append_left pre hx
      exact ⟨(hsound x hmem).1, hsafe x hmem⟩
    · exact fun x hx => ⟨(hsound x (List.mem_append_left pre hx)).2, hstay x hx⟩
  have hstart : p ∈ queue c₀ := hrun.start_of (W := fun c => p ∈ queue c) hstay hend
  exact ⟨hwaits.in_order, hwaits.length_le hstart hend⟩

/-- While a process stays ready, those who are dispatched were in front of it, in this order, so
that they are no more than its place in the queue: from any state that a run has reached, whatever
happens then. -/
theorem ready_in_turn (hn : n ≤ maxProc) (hpre : Run pre c₀) (hrun : c₀.RunsTo tr c)
    (hsafe : ∀ x ∈ tr ++ pre, x.1.KillSafe x.2) (hlive : c.mode.Live)
    (hstay : ∀ x ∈ tr, p ∈ x.1.nuc.store.readyList) (hend : p ∈ c.nuc.store.readyList) :
    (Fifo.total Config.dispatched tr).Sublist (Fifo.before p c₀.nuc.store.readyList) ∧
      (Fifo.total Config.dispatched tr).length + c.nuc.store.readyList.idxOf p ≤
        c₀.nuc.store.readyList.idxOf p :=
  Config.RunsTo.in_turn (fun h hsafe hstep hlive hp hp' =>
    h.step_waits_ready hn hsafe hstep hlive hp hp') hn hpre hrun hsafe hlive hstay hend

omit [Layout] in
/-- At the end of a quantum, the process in front of the last one is dispatched. -/
theorem ready_in_turn_quantum : ∃ (_ : Layout) (c₀ c : Config maxProc),
    c₀.nuc.store.readyList = [1, 2] ∧ c₀.step (.timer 5000) = some c ∧
      (Fifo.total Config.dispatched [(c₀, .timer 5000)]).Sublist (Fifo.before 2 [1, 2]) ∧
      (Fifo.total Config.dispatched [(c₀, .timer 5000)]).length +
        c.nuc.store.readyList.idxOf 2 ≤ 1 := by
  refine ⟨sampleLayout, ?_⟩
  let _ := sampleLayout
  have hexec : ((Boot.zero.config.bind (·.exec [.call 1 0 0 0 10, .call 1 0 0 0 20])).bind
      fun c₀ => (c₀.step (.timer 5000)).map fun c =>
        (c.mode, c₀.nuc.store.readyList, c.nuc.store.readyList)) =
          some (.running, [1, 2], [2, 0]) := by
    decide +kernel
  obtain ⟨c₀, hc₀, hrest⟩ := Option.bind_eq_some_iff.mp hexec
  obtain ⟨c, hstep, hlists⟩ := Option.map_eq_some_iff.mp hrest
  simp only [Prod.mk.injEq] at hlists
  obtain ⟨hmode, hready₀, hready⟩ := hlists
  obtain ⟨pre, hpre, hevents⟩ := Boot.exec_run hc₀
  have hcreate : ∀ tod, (Event.call 1 0 0 0 tod).Harmless := fun _ _ h => h
  have htimer : (Event.timer 5000).Harmless := fun _ h => h
  have hharmless : ∀ x ∈ pre, x.2.Harmless := forall_event hevents
    (List.forall_mem_cons.mpr ⟨hcreate 10, List.forall_mem_singleton.mpr (hcreate 20)⟩)
  have hturn := ready_in_turn (p := 2) le_rfl hpre.run (.next (.start rfl) hstep)
    (List.forall_mem_cons.mpr ⟨htimer.killSafe c₀, fun x hx => (hharmless x hx).killSafe x.1⟩)
    (.inl hmode) (List.forall_mem_singleton.mpr (by rw [hready₀]; decide))
    (by rw [hready]; decide)
  rw [hready₀] at hturn
  exact ⟨c₀, c, hready₀, hstep, hturn⟩

/-- While a process stays blocked on a semaphore, those who are woken from there were in front of
it, in this order, so that they are no more than its place in the queue: from any state that a run
has reached, whatever happens then. -/
theorem blocked_in_turn {a : ℕ} (hn : n ≤ maxProc) (hpre : Run pre c₀) (hrun : c₀.RunsTo tr c)
    (hsafe : ∀ x ∈ tr ++ pre, x.1.KillSafe x.2) (hlive : c.mode.Live)
    (hstay : ∀ x ∈ tr, p ∈ x.1.nuc.store.blockedOn a) (hend : p ∈ c.nuc.store.blockedOn a) :
    (Fifo.total (Config.woken a) tr).Sublist (Fifo.before p (c₀.nuc.store.blockedOn a)) ∧
      (Fifo.total (Config.woken a) tr).length + (c.nuc.store.blockedOn a).idxOf p ≤
        (c₀.nuc.store.blockedOn a).idxOf p :=
  Config.RunsTo.in_turn (fun h hsafe hstep hlive hp hp' =>
    h.step_waits_blocked hn hsafe hstep hlive hp hp') hn hpre hrun hsafe hlive hstay hend

omit [Layout] in
/-- Of two processes that wait, SYS3 wakes the one that has waited longer. -/
theorem blocked_in_turn_verhogen : ∃ (_ : Layout) (c₀ c : Config maxProc),
    c₀.nuc.store.blockedOn 0x10000 = [0, 1] ∧ c₀.step (.call 3 0x10000 0 0 50) = some c ∧
      (Fifo.total (Config.woken 0x10000) [(c₀, .call 3 0x10000 0 0 50)]).Sublist
        (Fifo.before 1 [0, 1]) ∧
      (Fifo.total (Config.woken 0x10000) [(c₀, .call 3 0x10000 0 0 50)]).length +
        (c.nuc.store.blockedOn 0x10000).idxOf 1 ≤ 1 := by
  refine ⟨sampleLayout, ?_⟩
  let _ := sampleLayout
  have hexec : ((Boot.zero.config.bind (·.exec [.call 1 0 0 0 10, .call 1 0 0 0 20,
      .call 4 0x10000 0 0 30, .call 4 0x10000 0 0 40])).bind
      fun c₀ => (c₀.step (.call 3 0x10000 0 0 50)).map fun c =>
        (c.mode, c₀.nuc.store.blockedOn 0x10000, c.nuc.store.blockedOn 0x10000)) =
          some (.running, [0, 1], [1]) := by
    decide +kernel
  obtain ⟨c₀, hc₀, hrest⟩ := Option.bind_eq_some_iff.mp hexec
  obtain ⟨c, hstep, hlists⟩ := Option.map_eq_some_iff.mp hrest
  simp only [Prod.mk.injEq] at hlists
  obtain ⟨hmode, hblocked₀, hblocked⟩ := hlists
  obtain ⟨pre, hpre, hevents⟩ := Boot.exec_run hc₀
  have hcreate : ∀ tod, (Event.call 1 0 0 0 tod).Harmless := fun _ _ h => h
  have hwait : ∀ tod, (Event.call 4 0x10000 0 0 tod).Harmless := fun _ _ h => h
  have hsignal : (Event.call 3 0x10000 0 0 50).Harmless := fun _ h => h
  have hharmless : ∀ x ∈ pre, x.2.Harmless := forall_event hevents
    (List.forall_mem_cons.mpr ⟨hcreate 10, List.forall_mem_cons.mpr ⟨hcreate 20,
      List.forall_mem_cons.mpr ⟨hwait 30, List.forall_mem_singleton.mpr (hwait 40)⟩⟩⟩)
  have hturn := blocked_in_turn (p := 1) (a := 0x10000) le_rfl hpre.run (.next (.start rfl) hstep)
    (List.forall_mem_cons.mpr ⟨hsignal.killSafe c₀, fun x hx => (hharmless x hx).killSafe x.1⟩)
    (.inl hmode) (List.forall_mem_singleton.mpr (by rw [hblocked₀]; decide))
    (by rw [hblocked]; decide)
  rw [hblocked₀] at hturn
  exact ⟨c₀, c, hblocked₀, hstep, hturn⟩

end

end Jaeos
