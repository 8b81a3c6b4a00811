import Jaeos.Semaphores
import Jaeos.Fairness
import Mathlib.Algebra.BigOperators.Ring.Finset
import Mathlib.Algebra.Order.BigOperators.Group.Finset
import Mathlib.Tactic.Ring

/-!
# Mutual exclusion

A semaphore that starts out with `k` lets `k` processes through. A process enters
when its SYS4 does not block it, or when it is woken later, and leaves with SYS3.
In every run the number of those inside is `k` less what the value is above 0: so there
are never more than `k`, and there are exactly `k` when a process has to wait.
-/

namespace Jaeos

variable {n : ℕ}

/-- A sum that is positive has not overflowed. -/
theorem toInt_add_one_of_pos {x : Word} (h : ¬ (x + 1).toInt ≤ 0) :
    0 ≤ x.toInt ∧ (x + 1).toInt = x.toInt + 1 := by
  have hnonneg : 0 ≤ x.toInt := by
    by_contra hneg
    have hadd := toInt_add_one (x := x) (by omega)
    omega
  refine ⟨hnonneg, toInt_add_one ?_⟩
  by_contra hmax
  apply h
  have hle := x.toInt_lt
  have heq : x = BitVec.ofInt 32 (2 ^ 31 - 1) := by
    rw [← BitVec.toInt_inj]
    have hval : (BitVec.ofInt 32 (2 ^ 31 - 1)).toInt = 2 ^ 31 - 1 := by decide
    rw [hval]
    omega
  rw [heq]
  decide

/-- A free PCB is neither ready nor running. -/
theorem Core.Inv.free_not_up {c : Core n} {p : Fin n} (h : c.Inv) (hp : p ∈ c.lists.q .free) :
    ¬ c.Up p := by
  rintro (hready | hcur)
  · cases h.ok.placed.eq_of_mem hp hready
  · exact h.ok.placed.loose p (by simp [hcur]) _ hp

/-! ## Entering and leaving -/

/-- The request is SYS4 on `w`. -/
def Request.isPasseren (w : ℕ) : Request → Bool
  | .passeren a => a = w
  | _ => false

/-- The request is SYS3 on `w`. -/
def Request.isVerhogen (w : ℕ) : Request → Bool
  | .verhogen a => a = w
  | _ => false

/-- Those who enter when a handler serves a request: the caller of SYS4, if it is not blocked, and
those who are woken. -/
def Core.entering (c c' : Core n) (r : Request) (w : ℕ) : List (Fin n) :=
  (if r.isPasseren w then c.cur.toList.filter fun p => c'.Up p else []) ++
    (c.lists.q (.blocked w)).filter fun p => c'.Up p

/-- The caller of SYS3 leaves. -/
def Core.leaving (c : Core n) (r : Request) (w : ℕ) : List (Fin n) :=
  if r.isVerhogen w then c.cur.toList else []

section

variable [Layout]

/-- Those who enter in an event. -/
def Config.entering (w : ℕ) (c : Config n) (e : Event) : List (Fin n) :=
  match e with
  | .write _ _ => []
  | .trap t _ _ =>
    match c.step e with
    | none => []
    | some c' => c.core.entering c'.core t.request w

/-- Those who leave in an event. -/
def Config.leaving (w : ℕ) (c : Config n) : Event → List (Fin n)
  | .write _ _ => []
  | .trap t _ _ => c.core.leaving t.request w

/-- How often a process has entered and not left. -/
def inside (w : ℕ) (tr : List (Config n × Event)) (p : Fin n) : ℤ :=
  ((Fifo.total (Config.entering w) tr).count p : ℤ) - (Fifo.total (Config.leaving w) tr).count p

end

/-! ## What a handler does to a semaphore -/

/-- What serving a request does to the queue and the value of the semaphore `w`. -/
inductive Core.Moves (c : Core n) (r : Request) (w : ℕ) (c' : Core n) : Prop where
  /-- nobody comes, and who goes is killed -/
  | apart (hpass : r.isPasseren w = false) (hver : r.isVerhogen w = false)
    (hsub : c'.lists.q (.blocked w) ⊆ c.lists.q (.blocked w))
    (hgone : ∀ p ∈ c.lists.q (.blocked w), p ∈ c'.lists.q (.blocked w) ∨ p ∈ c'.lists.q .free)
    (hvalue : max 0 (c'.mem w).toInt = max 0 (c.mem w).toInt)
  /-- SYS4, and the caller goes on -/
  | take {p : Fin n} (hr : r = .passeren w) (hcur : c.cur = some p)
    (hpos : ¬ (c.mem w + -1).toInt < 0) (hup : c'.Up p)
    (hq : c'.lists.q (.blocked w) = c.lists.q (.blocked w)) (hmem : c'.mem w = c.mem w + -1)
  /-- SYS4, and the caller waits -/
  | block {p : Fin n} (hr : r = .passeren w) (hcur : c.cur = some p)
    (hneg : (c.mem w + -1).toInt < 0)
    (hq : c'.lists.q (.blocked w) = c.lists.q (.blocked w) ++ [p]) (hmem : c'.mem w = c.mem w + -1)
  /-- SYS3, and nobody waits -/
  | signal {p : Fin n} (hr : r = .verhogen w) (hcur : c.cur = some p)
    (hpos : ¬ (c.mem w + 1).toInt ≤ 0) (hq : c'.lists.q (.blocked w) = c.lists.q (.blocked w))
    (hmem : c'.mem w = c.mem w + 1)
  /-- SYS3, and the oldest one who waits goes on -/
  | wake {p q : Fin n} (hr : r = .verhogen w) (hcur : c.cur = some p)
    (hneg : (c.mem w + 1).toInt ≤ 0) (hup : c'.Up q)
    (hq : c.lists.q (.blocked w) = q :: c'.lists.q (.blocked w)) (hmem : c'.mem w = c.mem w + 1)

namespace Core.Moves

variable {c c' k : Core n} {r : Request} {w : ℕ}

/-- Nothing happens to the semaphore. -/
theorem same (hpass : r.isPasseren w = false) (hver : r.isVerhogen w = false)
    (hq : c'.lists.q (.blocked w) = c.lists.q (.blocked w)) (hmem : c'.mem w = c.mem w) :
    c.Moves r w c' :=
  .apart hpass hver (by rw [hq]; exact List.Subset.refl _) (fun p hp => .inl (hq ▸ hp))
    (by rw [hmem])

/-- Only the semaphore, the current process and who goes on or is free matter. -/
theorem congr {d d' : Core n} (h : c.Moves r w c') (hcur : d.cur = c.cur)
    (hq : d.lists.q (.blocked w) = c.lists.q (.blocked w)) (hmem : d.mem w = c.mem w)
    (hq' : d'.lists.q (.blocked w) = c'.lists.q (.blocked w)) (hmem' : d'.mem w = c'.mem w)
    (hfree : d'.lists.q .free = c'.lists.q .free) (hup : ∀ p, d'.Up p ↔ c'.Up p) :
    d.Moves r w d' := by
  cases h with
  | apart hpass hver hsub hgone hvalue =>
    exact .apart hpass hver (hq' ▸ hq ▸ hsub) (by rw [hq, hq', hfree]; exact hgone)
      (by rw [hmem, hmem', hvalue])
  | take hr hcur₀ hpos hup₀ hq₀ hmem₀ =>
    exact .take hr (hcur.trans hcur₀) (hmem ▸ hpos) ((hup _).mpr hup₀) (by rw [hq', hq, hq₀])
      (by rw [hmem', hmem, hmem₀])
  | block hr hcur₀ hneg hq₀ hmem₀ =>
    exact .block hr (hcur.trans hcur₀) (hmem ▸ hneg) (by rw [hq', hq, hq₀])
      (by rw [hmem', hmem, hmem₀])
  | signal hr hcur₀ hpos hq₀ hmem₀ =>
    exact .signal hr (hcur.trans hcur₀) (hmem ▸ hpos) (by rw [hq', hq, hq₀])
      (by rw [hmem', hmem, hmem₀])
  | wake hr hcur₀ hneg hup₀ hq₀ hmem₀ =>
    exact .wake hr (hcur.trans hcur₀) (hmem ▸ hneg) ((hup _).mpr hup₀) (by rw [hq', hq, hq₀])
      (by rw [hmem', hmem, hmem₀])

end Core.Moves

section

theorem Wakes.mem {a : ℕ} {c₀ c : Core n} (h : Wakes a c₀ c) : c.mem = c₀.mem := by
  induction h with
  | refl => rfl
  | next _ _ ih => exact ih

variable [Layout] {areas : Fin n → TrapAreas} {c₀ c c' : Core n} {r : Request} {exit : Exit}
  {w : ℕ}

/-- The kill of a process that waits takes the value no further than 0. -/
theorem Kills.max_value (hw : ¬ InSemaphoreArray w) (h : Kills c₀ c) (hlaw : c₀.SemLaw w) :
    max 0 (c.mem w).toInt = max 0 (c₀.mem w).toInt := by
  induction h with
  | refl => rfl
  | orphan _ _ ih | ready _ _ _ ih | cur _ _ _ ih => exact ih
  | @blocked c p a h hp _ ih =>
    rw [← ih]
    by_cases ha : w = a
    · subst ha
      have hneg := (h.semLaw hw hlaw).neg (List.ne_nil_of_mem hp)
      have hadd := toInt_add_one (x := c.mem w) (by omega)
      have hmem : ((c.reap (.blocked w) p).compensate w).mem w = c.mem w + 1 := by
        rw [Core.compensate, if_neg fun hd => hw hd.inSemaphoreArray]
        exact Function.update_self ..
      rw [hmem, hadd]
      omega
    · rw [(c.reap (.blocked a) p).compensate_mem_of_ne ha]
      rfl

/-- What the handlers do to a semaphore over which they move no state. -/
theorem Effect.moves (hw : ¬ InSemaphoreArray w) (h : Effect areas c r exit c') (hlaw : c.SemLaw w)
    (harea : ∀ p type, c.cur = some p → r = .trap type → (areas p).old type ≠ null →
      ¬ InArea ((areas p).old type) w)
    (hexit : exit = .ldst ∨ exit = .getNewJob) : c.Moves r w c' := by
  have hdev : ∀ i, i < maxSema → w ≠ semArr i := fun i hi e =>
    hw (e ▸ (isDevSem_semArr hi).inSemaphoreArray)
  have hclock : w ≠ semArr clckTimer := hdev _ (by decide)
  cases h with
  | undefined | clockPanic => simp at hexit
  | createNone | specify | quantumIdle | time => exact .same rfl rfl rfl rfl
  | create a hcur hq => exact .same rfl rfl (by simp [Core.create, Core.save]) rfl
  | kill _ _ hfatal h =>
    refine .apart ?_ ?_ (h.sublist (by simp)).subset (fun p hp => ?_) (h.max_value hw hlaw)
    · cases r <;> first | rfl | exact hfatal.elim
    · cases r <;> first | rfl | exact hfatal.elim
    · by_cases hfree : p ∈ c'.lists.q .free
      · exact .inr hfree
      · exact .inl (h.mem_of_alive (by simp) hp hfree)
  | signal a hcur ha hpos =>
    by_cases haw : a = w
    · subst haw
      exact .signal rfl hcur hpos rfl (c.add_mem_self ..)
    · exact .same rfl (by simp [Request.isVerhogen, haw]) rfl (c.add_mem_of_ne _ (Ne.symm haw))
  | @wake a p q qs hcur ha hneg hq =>
    by_cases haw : a = w
    · subst haw
      refine .wake rfl hcur hneg (q := q) (.inl ?_) ?_ (c.add_mem_self ..)
      · simp [Core.wake]
      · rw [hq]
        simp [Core.wake]
    · exact .same rfl (by simp [Request.isVerhogen, haw])
        (by simp [Core.wake, Core.add, Core.setMem, Ne.symm haw]) (c.add_mem_of_ne _ (Ne.symm haw))
  | take a hcur ha hpos =>
    by_cases haw : a = w
    · subst haw
      exact .take rfl hcur hpos (.inr hcur) rfl (c.add_mem_self ..)
    · exact .same (by simp [Request.isPasseren, haw]) rfl rfl (c.add_mem_of_ne _ (Ne.symm haw))
  | block a hcur ha hneg =>
    by_cases haw : a = w
    · subst haw
      exact .block rfl hcur hneg (by simp [Core.block, Core.add, Core.setMem]) (c.add_mem_self ..)
    · exact .same (by simp [Request.isPasseren, haw]) rfl
        (by simp [Core.block, Core.add, Core.setMem, Ne.symm haw])
        (c.add_mem_of_ne _ (Ne.symm haw))
  | clock hcur hneg =>
    exact .same rfl rfl (by simp [Core.block, Core.soften, Core.add, Core.setMem, hclock])
      (c.add_mem_of_ne _ hclock)
  | ioDone hi => exact .same rfl rfl rfl (c.add_mem_of_ne _ (hdev _ hi))
  | ioWait hi =>
    exact .same rfl rfl (by simp [Core.block, Core.soften, Core.add, Core.setMem, hdev _ hi])
      (c.add_mem_of_ne _ (hdev _ hi))
  | passUp type hcur h old new =>
    exact .same rfl rfl rfl (writeState_of_not_inArea (harea _ type hcur rfl h))
  | tick h hq =>
    exact .same rfl rfl (h.other hclock)
      ((Function.update_of_ne hclock ..).trans (congrFun h.mem w))
  | quantum => exact .same rfl rfl (by simp [Core.preempt]) rfl
  | ioSignal status keep hi => exact .same rfl rfl rfl (c.add_mem_of_ne _ (hdev _ hi))
  | ioWake status keep hi =>
    exact .same rfl rfl
      (by simp [Core.wake, Core.soften, Core.save, Core.add, Core.setMem, hdev _ hi])
      (c.add_mem_of_ne _ (hdev _ hi))
  | ioLost status keep hi =>
    cases keep with
    | false => exact .same rfl rfl rfl (c.add_mem_of_ne _ (hdev _ hi))
    | true => exact .same rfl rfl rfl (c.add_mem_of_ne _ (hdev _ hi))

omit [Layout] in
/-- The scheduler leaves the semaphore as it is. -/
theorem Sched.moves {v : Verdict} {k : Core n} (h : Sched k v c') (hcur : k.cur = none)
    (hmoves : c.Moves r w k) : c.Moves r w c' := by
  obtain ⟨hq, hup⟩ := h.blocked_up hcur w
  have hmem : c'.mem = k.mem := by cases h <;> rfl
  have hfree : c'.lists.q .free = k.lists.q .free := by
    cases h <;> simp [Core.dispatch, Core.leave]
  exact hmoves.congr rfl rfl rfl hq (by rw [hmem]) hfree hup

end

/-! ## The balance -/

/-- As many enter as leave, except for what the value is above 0. -/
def Core.Balanced (c c' : Core n) (r : Request) (w : ℕ) : Prop :=
  ((c.entering c' r w).length : ℤ) + max 0 (c'.mem w).toInt =
    (c.leaving r w).length + max 0 (c.mem w).toInt

/-- What a handler does to a semaphore keeps the balance. -/
theorem Core.Moves.balanced {c c' : Core n} {r : Request} {w : ℕ} (h : c.Moves r w c')
    (hinv' : c'.Inv) (hlaw : c.SemLaw w) (hlow : -2 ^ 31 < (c.mem w).toInt) :
    c.Balanced c' r w := by
  have hstay : c.lists.q (.blocked w) ⊆ c'.lists.q (.blocked w) →
      ((c.lists.q (.blocked w)).filter fun x => c'.Up x) = [] :=
    InTurn.filter_up_nil hinv'
  cases h with
  | apart hpass hver hsub hgone hvalue =>
    have hnobody : ((c.lists.q (.blocked w)).filter fun x => c'.Up x) = [] := by
      refine List.filter_eq_nil_iff.mpr fun x hx => ?_
      rcases hgone x hx with hx | hx
      · simpa using hinv'.not_up hx
      · simpa using hinv'.free_not_up hx
    simp [Balanced, entering, leaving, hpass, hver, hnobody, hvalue]
  | @take p hr hcur hpos hup hq hmem =>
    have hsub := toInt_add_neg_one hlow
    have hentered : ([p].filter fun x => c'.Up x) = [p] :=
      List.filter_cons_of_pos (by simpa using hup)
    have hnobody := hstay (by rw [hq]; exact List.Subset.refl _)
    subst hr
    simp only [Balanced, entering, leaving, Request.isPasseren, Request.isVerhogen, hnobody, hmem,
      hsub, hcur, hentered, decide_true, if_true, Bool.false_eq_true, if_false,
      Option.toList_some, List.append_nil, List.length_singleton, List.length_nil]
    omega
  | @block p hr hcur hneg hq hmem =>
    have hsub := toInt_add_neg_one hlow
    have hnobody := hstay (by rw [hq]; exact List.subset_append_left ..)
    have hout : ([p].filter fun x => c'.Up x) = [] :=
      InTurn.filter_up_nil hinv' (by rw [hq]; exact List.subset_append_right ..)
    subst hr
    simp only [Balanced, entering, leaving, Request.isPasseren, Request.isVerhogen, hnobody, hout,
      hmem, hsub, hcur, decide_true, if_true, Bool.false_eq_true, if_false, Option.toList_some,
      List.append_nil, List.length_nil]
    omega
  | signal hr hcur hpos hq hmem =>
    have hadd := toInt_add_one_of_pos hpos
    have hnobody := hstay (by rw [hq]; exact List.Subset.refl _)
    subst hr
    simp only [Balanced, entering, leaving, Request.isPasseren, Request.isVerhogen, hnobody, hmem,
      hadd.2, hcur, decide_true, if_true, Bool.false_eq_true, if_false, Option.toList_some,
      List.append_nil, List.length_nil, List.length_singleton]
    omega
  | @wake p q hr hcur hneg hup hq hmem =>
    have hvalue := hlaw.neg (by rw [hq]; simp)
    have hadd := toInt_add_one (x := c.mem w) (by omega)
    have hwoken : ((c.lists.q (.blocked w)).filter fun x => c'.Up x) = [q] := by
      rw [hq, List.filter_cons_of_pos (by simpa using hup),
        InTurn.filter_up_nil hinv' (List.Subset.refl _)]
    subst hr
    simp only [Balanced, entering, leaving, Request.isPasseren, Request.isVerhogen, hwoken, hmem,
      hadd, hcur, decide_true, if_true, Bool.false_eq_true, if_false, Option.toList_some,
      List.nil_append, List.length_singleton]
    omega

/-! ## Every run -/

section

variable [Layout] {w : ℕ} {c₀ c c' : Config n} {pre tr : List (Config n × Event)}

/-- The event stores nothing into `w`, and moves no state over it. -/
def Config.Spares (w : ℕ) (c : Config n) : Event → Prop
  | .write a _ => a ≠ w
  | .trap t _ _ => ∀ p type, c.core.cur = some p → t.request = .trap type →
    (c.nuc.store.trap p).old type ≠ null → ¬ InArea ((c.nuc.store.trap p).old type) w

omit [Layout] in
theorem Config.Spares.leavesSem {e : Event} (h : c.Spares w e) : c.LeavesSem w e := by
  cases e with
  | write a v => exact fun ha => absurd ha h
  | trap t todIn todOut => exact h

/-- What a trap does to a semaphore. -/
theorem Config.Sound.trap_moves {t : Trap} {todIn todOut : ℤ} (hn : n ≤ maxProc)
    (hw : ¬ InSemaphoreArray w) (h : c.Sound) (hlaw : c.core.SemLaw w)
    (hspares : c.Spares w (.trap t todIn todOut)) (hsafe : c.KillSafe (.trap t todIn todOut))
    (hstep : c.step (.trap t todIn todOut) = some c') (hlive : c'.mode.Live) :
    c.core.Moves t.request w c'.core := by
  obtain ⟨exit, k, heffect, hfinish, -⟩ := h.trap_cases hn hsafe hstep
  have hmem : (c.core.entered t).mem w = c.core.mem w := congrFun (c.core.entered_mem t) w
  have hlists : (c.core.entered t).lists = c.core.lists := c.core.entered_lists t
  have hcur : (c.core.entered t).cur = c.core.cur := c.core.entered_cur t
  have hk : exit = .ldst ∨ exit = .getNewJob → c.core.Moves t.request w k := fun hexit =>
    (heffect.moves hw (hlaw.congr hmem (by rw [hlists]))
      (fun p type hp => hspares p type (hcur ▸ hp)) hexit).congr hcur.symm (by rw [hlists])
        hmem.symm rfl rfl rfl fun _ => Iff.rfl
  cases exit with
  | ldst => exact hfinish.2 ▸ hk (.inl rfl)
  | getNewJob =>
    obtain ⟨hnone, v, -, hsched⟩ := hfinish
    exact hsched.moves hnone (hk (.inr rfl))
  | panic =>
    rw [hfinish] at hlive
    simp [Mode.Live] at hlive
  | undefined =>
    rw [hfinish] at hlive
    simp [Mode.Live] at hlive

/-- A step keeps the balance. -/
theorem Config.Sound.step_balanced (hn : n ≤ maxProc) (hw : ¬ InSemaphoreArray w) (h : c.Sound)
    (hlaw : c.core.SemLaw w) {e : Event} (hspares : c.Spares w e) (hsafe : c.KillSafe e)
    (hstep : c.step e = some c') (hlive : c'.mode.Live) :
    ((c.entering w e).length : ℤ) + max 0 (c'.nuc.mem w).toInt =
      (c.leaving w e).length + max 0 (c.nuc.mem w).toInt := by
  cases e with
  | write a v =>
    have hold := Config.step_live hstep
    rw [Config.step, if_pos hold] at hstep
    obtain rfl := Option.some.inj hstep
    have hmem : (c.core.setMem a v).mem w = c.core.mem w :=
      Function.update_of_ne (Ne.symm hspares) ..
    change (0 : ℤ) + max 0 ((c.core.setMem a v).mem w).toInt = 0 + max 0 (c.core.mem w).toInt
    rw [hmem]
  | trap t todIn todOut =>
    have hentering : c.entering w (.trap t todIn todOut) =
        c.core.entering c'.core t.request w := by
      simp only [Config.entering, hstep]
    rw [hentering]
    exact (h.trap_moves hn hw hlaw hspares hsafe hstep hlive).balanced
      (h.step hn hsafe hstep hlive).inv hlaw (hlaw.bounded hn h.inv)

omit [Layout] in
theorem Core.SemLaw.of_free {c : Core n} (hfree : 0 ≤ (c.mem w).toInt)
    (hnobody : c.lists.q (.blocked w) = []) : c.SemLaw w := by
  rw [SemLaw, hnobody, List.length_nil]
  omega

/-- The balance of a run from a state in which nobody waits. -/
theorem Config.RunsTo.balanced (hn : n ≤ maxProc) (hw : ¬ InSemaphoreArray w) (hpre : Run pre c₀)
    (hfree : 0 ≤ (c₀.nuc.mem w).toInt) (hnobody : c₀.nuc.store.blockedOn w = [])
    (hrun : c₀.RunsTo tr c) (hspares : ∀ x ∈ tr, x.1.Spares w x.2)
    (hsafe : ∀ x ∈ tr ++ pre, x.1.KillSafe x.2) (hlive : c.mode.Live) :
    c.core.SemLaw w ∧ ((Fifo.total (Config.entering w) tr).length : ℤ) + max 0 (c.nuc.mem w).toInt =
      (Fifo.total (Config.leaving w) tr).length + (c₀.nuc.mem w).toInt := by
  induction hrun with
  | start h =>
    subst h
    exact ⟨.of_free hfree hnobody, by simp [Fifo.total, max_eq_right hfree]⟩
  | @next tr c c' e hrun hstep ih =>
    have hbefore : c.mode.Live := Config.step_live hstep
    obtain ⟨hlaw, hcount⟩ := ih (fun x hx => hspares x (List.mem_cons_of_mem _ hx))
      (fun x hx => hsafe x (List.mem_cons_of_mem _ hx)) hbefore
    have hsound : c.Sound := .of_run hn (hpre.append hrun)
      (fun x hx => hsafe x (List.mem_cons_of_mem _ hx)) hbefore
    have hspare : c.Spares w e := hspares (c, e) List.mem_cons_self
    have hkill : c.KillSafe e := hsafe (c, e) List.mem_cons_self
    have hone := hsound.step_balanced hn hw hlaw hspare hkill hstep hlive
    refine ⟨hsound.step_semLaw hn hw hlaw hspare.leavesSem hkill hstep hlive, ?_⟩
    rw [Fifo.total_cons, Fifo.total_cons, List.length_append, List.length_append]
    push_cast
    omega

omit [Layout] in
/-- The sum of the numbers of occurrences. -/
theorem sum_count {l : List (Fin n)} : ∑ p, (l.count p : ℤ) = l.length := by
  have h := Multiset.sum_count_eq_card (s := Finset.univ) (m := (l : Multiset (Fin n))) (by simp)
  simp only [Multiset.coe_count, Multiset.coe_card] at h
  rw [← Nat.cast_sum, h]

/-- Nobody does SYS3 on `w` who is not inside. -/
def Respects (w : ℕ) (tr : List (Config n × Event)) : Prop :=
  ∀ after x before, tr = after ++ x :: before → ∀ p ∈ x.1.leaving w x.2, 0 < inside w before p

theorem Respects.nil : Respects w ([] : List (Config n × Event)) :=
  fun after x before htr => by simp at htr

theorem Respects.cons {x : Config n × Event} (h : Respects w tr)
    (hx : ∀ p ∈ x.1.leaving w x.2, 0 < inside w tr p) : Respects w (x :: tr) := by
  rintro (_ | ⟨y, after⟩) z before htr
  · obtain ⟨rfl, rfl⟩ := List.cons.inj htr
    exact hx
  · exact h after z before (List.cons.inj htr).2

theorem Respects.tail {x : Config n × Event} (h : Respects w (x :: tr)) : Respects w tr :=
  fun after y before htr => h (x :: after) y before (by rw [htr]; rfl)

omit [Layout] in
theorem Core.leaving_nodup (c : Core n) (r : Request) : (c.leaving r w).Nodup := by
  rw [leaving]
  split
  · cases c.cur <;> simp
  · exact List.nodup_nil

/-- Nobody leaves more often than he has entered. -/
theorem Respects.nonneg (h : Respects w tr) (p : Fin n) : 0 ≤ inside w tr p := by
  induction tr with
  | nil => simp [inside, Fifo.total]
  | cons x tr ih =>
    obtain ⟨c, e⟩ := x
    have hbefore := ih h.tail
    have hstep : inside w ((c, e) :: tr) p =
        inside w tr p + (c.entering w e).count p - (c.leaving w e).count p := by
      simp only [inside, Fifo.total_cons, List.count_append]
      push_cast
      ring
    rw [hstep]
    have hnodup : (c.leaving w e).Nodup := by
      cases e with
      | write => exact List.nodup_nil
      | trap t => exact c.core.leaving_nodup t.request
    have hone := List.nodup_iff_count_le_one.mp hnodup p
    by_cases hp : p ∈ c.leaving w e
    · have hin := h [] (c, e) tr rfl p hp
      omega
    · rw [List.count_eq_zero_of_not_mem hp]
      omega

/-- Mutual exclusion: from a state in which a semaphore has the value `k` and nobody waits, never
more than `k` processes are inside, and `k` times has somebody entered and not left when a process
waits. -/
theorem mutual_exclusion (hn : n ≤ maxProc) (hw : ¬ InSemaphoreArray w) {k : ℕ} (hpre : Run pre c₀)
    (hvalue : (c₀.nuc.mem w).toInt = k) (hnobody : c₀.nuc.store.blockedOn w = [])
    (hrun : c₀.RunsTo tr c) (hspares : ∀ x ∈ tr, x.1.Spares w x.2)
    (hsafe : ∀ x ∈ tr ++ pre, x.1.KillSafe x.2) (hrespects : Respects w tr)
    (hlive : c.mode.Live) :
    (Finset.univ.filter fun p => 0 < inside w tr p).card ≤ k ∧
      (c.nuc.store.blockedOn w ≠ [] → ∑ p, inside w tr p = k) := by
  obtain ⟨hlaw, hcount⟩ := hrun.balanced hn hw hpre (by omega) hnobody hspares hsafe hlive
  have hsum : ∑ p, inside w tr p = k - max 0 (c.nuc.mem w).toInt := by
    simp only [inside, Finset.sum_sub_distrib, sum_count]
    omega
  constructor
  · have hle : ((Finset.univ.filter fun p => 0 < inside w tr p).card : ℤ) ≤
        ∑ p, inside w tr p := by
      rw [Finset.natCast_card_filter]
      refine Finset.sum_le_sum fun p _ => ?_
      have hp := hrespects.nonneg p
      split
      · omega
      · exact hp
    omega
  · intro hwaits
    have hneg := hlaw.neg hwaits
    have hzero : max 0 (c.nuc.mem w).toInt = 0 := max_eq_left hneg.le
    rw [hsum, hzero, sub_zero]

omit [Layout] in
/-- Two processes take turns with a mutex at 0x10000: process 1 waits until process 0 leaves, and
then process 0 waits. -/
theorem mutual_exclusion_turns : ∃ (_ : Layout) (c₀ c₁ c₂ c₃ c₄ c : Config maxProc),
    c₀.step (.call 4 0x10000 0 0 20) = some c₁ ∧ c₁.step (.timer 5000) = some c₂ ∧
      c₂.step (.call 4 0x10000 0 0 5010) = some c₃ ∧ c₃.step (.call 3 0x10000 0 0 5020) = some c₄ ∧
      c₄.step (.call 4 0x10000 0 0 5030) = some c ∧
      (Finset.univ.filter fun p => 0 < inside 0x10000 [(c₄, .call 4 0x10000 0 0 5030),
        (c₃, .call 3 0x10000 0 0 5020), (c₂, .call 4 0x10000 0 0 5010), (c₁, .timer 5000),
        (c₀, .call 4 0x10000 0 0 20)] p).card ≤ 1 ∧
      ∑ p, inside 0x10000 [(c₄, .call 4 0x10000 0 0 5030),
        (c₃, .call 3 0x10000 0 0 5020), (c₂, .call 4 0x10000 0 0 5010), (c₁, .timer 5000),
        (c₀, .call 4 0x10000 0 0 20)] p = 1 := by
  refine ⟨sampleLayout, ?_⟩
  let _ := sampleLayout
  have hexec : ((Boot.zero.config.bind (·.exec [.call 1 0 0 0 10, .write 0x10000 1])).bind
      fun c₀ => (c₀.step (.call 4 0x10000 0 0 20)).bind fun c₁ =>
        (c₁.step (.timer 5000)).bind fun c₂ => (c₂.step (.call 4 0x10000 0 0 5010)).bind fun c₃ =>
          (c₃.step (.call 3 0x10000 0 0 5020)).bind fun c₄ =>
            (c₄.step (.call 4 0x10000 0 0 5030)).map fun c => (c.mode, (c₀.nuc.mem 0x10000).toInt,
              [c₀.nuc.store.blockedOn 0x10000, c.nuc.store.blockedOn 0x10000,
                c₃.leaving 0x10000 (.call 3 0x10000 0 0 5020)],
              decide (0 < inside 0x10000 [(c₂, .call 4 0x10000 0 0 5010), (c₁, .timer 5000),
                (c₀, .call 4 0x10000 0 0 20)] (0 : Fin maxProc)))) =
        some (.running, 1, [[], [0], [0]], true) := by
    decide +kernel
  obtain ⟨c₀, hc₀, hrest⟩ := Option.bind_eq_some_iff.mp hexec
  obtain ⟨c₁, hstep₁, hrest⟩ := Option.bind_eq_some_iff.mp hrest
  obtain ⟨c₂, hstep₂, hrest⟩ := Option.bind_eq_some_iff.mp hrest
  obtain ⟨c₃, hstep₃, hrest⟩ := Option.bind_eq_some_iff.mp hrest
  obtain ⟨c₄, hstep₄, hrest⟩ := Option.bind_eq_some_iff.mp hrest
  obtain ⟨c, hstep, hrest⟩ := Option.map_eq_some_iff.mp hrest
  simp only [Prod.mk.injEq, List.cons.injEq, decide_eq_true_eq] at hrest
  obtain ⟨hmode, hvalue, ⟨hnobody, hwaits, hleaving, -⟩, hinside⟩ := hrest
  obtain ⟨pre, hpre, hevents⟩ := Boot.exec_run hc₀
  have hcreate : (Event.call 1 0 0 0 10).Harmless := fun _ h => h
  have hwait : ∀ tod, (Event.call 4 0x10000 0 0 tod).Harmless := fun _ _ h => h
  have hsignal : (Event.call 3 0x10000 0 0 5020).Harmless := fun _ h => h
  have htimer : (Event.timer 5000).Harmless := fun _ h => h
  have hharmless : ∀ x ∈ pre, x.2.Harmless := forall_event hevents
    (List.forall_mem_cons.mpr ⟨hcreate, List.forall_mem_singleton.mpr trivial⟩)
  have hcall : ∀ (d : Config maxProc) i tod, i = 3 ∨ i = 4 →
      d.Spares 0x10000 (.call i 0x10000 0 0 tod) := by
    rintro d i tod (rfl | rfl) p type - htype <;> cases htype
  have hquantum : c₁.Spares 0x10000 (.timer 5000) := fun p type _ h => by cases h
  have hrespects : Respects 0x10000 [(c₄, .call 4 0x10000 0 0 5030),
      (c₃, .call 3 0x10000 0 0 5020), (c₂, .call 4 0x10000 0 0 5010), (c₁, .timer 5000),
      (c₀, .call 4 0x10000 0 0 20)] := by
    refine .cons (.cons (.cons (.cons (.cons .nil ?_) ?_) ?_) ?_) ?_
    · exact fun p hp => by cases hp
    · exact fun p hp => by cases hp
    · exact fun p hp => by cases hp
    · intro p hp
      obtain rfl := List.mem_singleton.mp (hleaving ▸ hp)
      exact hinside
    · exact fun p hp => by cases hp
  have hexclusion := mutual_exclusion le_rfl (show ¬ InSemaphoreArray 0x10000 by decide) (k := 1)
    hpre.run hvalue hnobody
    (.next (.next (.next (.next (.next (.start rfl) hstep₁) hstep₂) hstep₃) hstep₄) hstep)
    (List.forall_mem_cons.mpr ⟨hcall c₄ 4 5030 (.inr rfl), List.forall_mem_cons.mpr
      ⟨hcall c₃ 3 5020 (.inl rfl), List.forall_mem_cons.mpr ⟨hcall c₂ 4 5010 (.inr rfl),
        List.forall_mem_cons.mpr ⟨hquantum,
          List.forall_mem_singleton.mpr (hcall c₀ 4 20 (.inr rfl))⟩⟩⟩⟩)
    (List.forall_mem_cons.mpr ⟨(hwait 5030).killSafe c₄, List.forall_mem_cons.mpr
      ⟨hsignal.killSafe c₃, List.forall_mem_cons.mpr ⟨(hwait 5010).killSafe c₂,
        List.forall_mem_cons.mpr ⟨htimer.killSafe c₁, List.forall_mem_cons.mpr
          ⟨(hwait 20).killSafe c₀, fun x hx => (hharmless x hx).killSafe x.1⟩⟩⟩⟩⟩)
    hrespects (.inl hmode)
  exact ⟨c₀, c₁, c₂, c₃, c₄, c, hstep₁, hstep₂, hstep₃, hstep₄, hstep, hexclusion.1,
    hexclusion.2 (by rw [hwaits]; decide)⟩

end

end Jaeos
