import Jaeos.Exclusion
import Jaeos.Lineage

/-!
# What the nucleus does to a word of memory

SYS3 adds 1 to the word it is called with, SYS4 takes 1 away, and the recursive kill adds 1
for each process it finds blocked on the word. Outside `semaphoreArray` and the old areas
nothing else changes memory, so that the value of a word after any run is what it was, and
these.
-/

namespace Jaeos

variable {n : ℕ}

/-- SYS3 on `w` adds 1, SYS4 takes 1 away. -/
def Request.share (w : ℕ) (r : Request) : ℤ :=
  (if r.isVerhogen w then 1 else 0) - if r.isPasseren w then 1 else 0

theorem Request.share_verhogen (w a : ℕ) :
    (Request.verhogen a).share w = if a = w then (1 : Word).toInt else 0 := by
  by_cases ha : a = w <;> simp [share, isVerhogen, isPasseren, ha]

theorem Request.share_passeren (w a : ℕ) :
    (Request.passeren a).share w = if a = w then (-1 : Word).toInt else 0 := by
  by_cases ha : a = w <;> simp [share, isVerhogen, isPasseren, ha]

/-- What SYS3 and SYS4 add to the word at `w` in an event. -/
def Event.share (w : ℕ) : Event → ℤ
  | .write _ _ => 0
  | .trap t _ _ => t.request.share w

/-- Those who are killed while they wait for `w`. -/
def Config.killed [Layout] (w : ℕ) (c : Config n) (e : Event) : List (Fin n) :=
  match c.step e with
  | none => []
  | some c' => (c.nuc.store.blockedOn w).filter fun p => p ∈ c'.nuc.store.freeList

/-! ## The handlers -/

/-- The word has changed by the share of the request, and by 1 for each process that was killed
while it waited. -/
def Core.Accounted (c c' : Core n) (r : Request) (w : ℕ) : Prop :=
  c'.mem w = c.mem w + BitVec.ofInt 32 (r.share w +
    ((c.lists.q (.blocked w)).filter fun p => p ∈ c'.lists.q .free).length)

section

variable [Layout] {areas : Fin n → TrapAreas} {c₀ c c' : Core n} {r : Request} {exit : Exit}
  {w : ℕ} {p : Fin n}

omit [Layout] in
/-- Nobody who waits is free. -/
theorem Core.Inv.filter_free_nil (h : c.Inv)
    (hfree : c'.lists.q .free ⊆ c.lists.q .free) :
    ((c.lists.q (.blocked w)).filter fun p => p ∈ c'.lists.q .free) = [] := by
  refine List.filter_eq_nil_iff.mpr fun x hx hx' => ?_
  cases h.ok.placed.eq_of_mem hx (hfree (by simpa using hx'))

omit [Layout] in
/-- Nobody is killed. -/
theorem Core.Accounted.of_free (h : c.Inv) (hfree : c'.lists.q .free ⊆ c.lists.q .free)
    (hmem : c'.mem w = c.mem w + BitVec.ofInt 32 (r.share w)) : c.Accounted c' r w := by
  rw [Accounted, h.filter_free_nil hfree, hmem]
  simp

/-- The kill adds 1 for each process that it takes out of the queue. -/
theorem Kills.mem_add (hw : ¬ InSemaphoreArray w) (h : Kills c₀ c) :
    ∃ k, (c.lists.q (.blocked w)).length + k = (c₀.lists.q (.blocked w)).length ∧
      c.mem w = c₀.mem w + BitVec.ofInt 32 k := by
  induction h with
  | refl => exact ⟨0, rfl, by simp⟩
  | orphan _ _ ih => exact ih
  | cur _ _ _ ih => simpa [Core.reapCur] using ih
  | @ready c p _ _ _ ih =>
    obtain ⟨k, hk, hmem⟩ := ih
    refine ⟨k, ?_, hmem⟩
    rw [c.reap_q p (by simp), if_neg (by simp)]
    exact hk
  | @blocked c p a _ hp _ ih =>
    obtain ⟨k, hk, hmem⟩ := ih
    have hq := c.reap_q (i := .blocked a) (j := .blocked w) p (by simp)
    rw [Core.compensate_lists, hq]
    by_cases ha : w = a
    · subst ha
      have hpos := List.length_pos_of_mem hp
      have hcomp : ((c.reap (.blocked w) p).compensate w).mem w = c.mem w + 1 := by
        rw [Core.compensate, if_neg fun hd => hw hd.inSemaphoreArray]
        exact Function.update_self ..
      refine ⟨k + 1, ?_, ?_⟩
      · rw [if_pos rfl, List.length_erase_of_mem hp]
        omega
      · rw [hcomp, hmem, BitVec.add_assoc]
        congr 1
        push_cast
        rw [BitVec.ofInt_add]
        rfl
    · refine ⟨k, ?_, ?_⟩
      · rw [if_neg fun h => ha (Place.blocked.inj h)]
        exact hk
      · rw [(c.reap (.blocked a) p).compensate_mem_of_ne ha]
        exact hmem

/-- Those who leave the queue in a kill are free. -/
theorem Kills.length_killed (hinv : c₀.Inv) (h : Kills c₀ c) :
    (c.lists.q (.blocked w)).length +
      ((c₀.lists.q (.blocked w)).filter fun p => p ∈ c.lists.q .free).length =
        (c₀.lists.q (.blocked w)).length := by
  have hinv' := h.inv hinv
  have hstay : ((c₀.lists.q (.blocked w)).filter fun p => ¬ p ∈ c.lists.q .free).length =
      (c.lists.q (.blocked w)).length := by
    apply List.Perm.length_eq
    refine (List.perm_ext_iff_of_nodup ?_ (hinv'.ok.placed.nodup _)).mpr fun x => ?_
    · exact (hinv.ok.placed.nodup _).filter _
    · rw [List.mem_filter]
      constructor
      · rintro ⟨hx, hfree⟩
        exact h.mem_of_alive (by simp) hx (by simpa using hfree)
      · intro hx
        refine ⟨(h.sublist (by simp)).subset hx, ?_⟩
        simpa using fun hfree => by cases hinv'.ok.placed.eq_of_mem hx hfree
  have hsplit := List.length_eq_length_filter_add (l := c₀.lists.q (.blocked w))
    fun p => decide (p ∈ c.lists.q .free)
  simp only [decide_not] at hstay
  omega

namespace Core.Accounted

/-- A kill. -/
theorem kill (hw : ¬ InSemaphoreArray w) (hinv : c.Inv) (h : Kills c c')
    (hshare : r.share w = 0) : c.Accounted c' r w := by
  obtain ⟨k, hk, hmem⟩ := h.mem_add hw
  have hkilled := h.length_killed (w := w) hinv
  rw [Accounted, hmem, hshare, zero_add]
  congr 3
  omega

/-- A handler accounts for the word, if it moves no state over it. -/
theorem of_effect (hw : ¬ InSemaphoreArray w) (h : Effect areas c r exit c') (hinv : c.Inv)
    (harea : ∀ p type, c.cur = some p → r = .trap type → (areas p).old type ≠ null →
      ¬ InArea ((areas p).old type) w)
    (hexit : exit = .ldst ∨ exit = .getNewJob) : c.Accounted c' r w := by
  have hdev : ∀ i, i < maxSema → w ≠ semArr i := fun i hi e =>
    hw (e ▸ (isDevSem_semArr hi).inSemaphoreArray)
  have hclock : w ≠ semArr clckTimer := hdev _ (by decide)
  have hzero : r.share w = 0 → c'.lists.q .free ⊆ c.lists.q .free → c'.mem w = c.mem w →
      c.Accounted c' r w := fun hshare hfree hmem =>
    .of_free hinv hfree (by rw [hmem, hshare]; simp)
  have hadd : ∀ {a : ℕ} {d : Word}, c'.lists.q .free = c.lists.q .free →
      c'.mem w = (c.add a d).mem w → r.share w = (if a = w then d.toInt else 0) →
      c.Accounted c' r w := by
    intro a d hfree hmem hshare
    refine .of_free hinv (by rw [hfree]; exact List.Subset.refl _) ?_
    rw [hmem, hshare]
    by_cases ha : a = w
    · subst ha
      rw [if_pos rfl, BitVec.ofInt_toInt]
      exact c.add_mem_self ..
    · rw [if_neg ha, c.add_mem_of_ne _ (Ne.symm ha)]
      simp
  cases h with
  | undefined | clockPanic => simp at hexit
  | createNone | specify | quantumIdle | time => exact hzero rfl (List.Subset.refl _) rfl
  | create a hcur hq =>
    refine hzero rfl (fun x hx => ?_) rfl
    rw [hq]
    simp [Core.create] at hx
    exact List.mem_cons_of_mem _ hx
  | kill _ _ hfatal h =>
    refine kill hw hinv h ?_
    cases r <;> first | rfl | exact hfatal.elim
  | signal => exact hadd rfl rfl (Request.share_verhogen ..)
  | wake =>
    exact hadd (by simp [Core.wake, Core.add, Core.setMem]) rfl (Request.share_verhogen ..)
  | take => exact hadd rfl rfl (Request.share_passeren ..)
  | block =>
    exact hadd (by simp [Core.block, Core.add, Core.setMem]) rfl (Request.share_passeren ..)
  | clock =>
    exact hzero rfl (by simp [Core.block, Core.soften, Core.add, Core.setMem])
      (c.add_mem_of_ne _ hclock)
  | ioDone hi => exact hzero rfl (List.Subset.refl _) (c.add_mem_of_ne _ (hdev _ hi))
  | ioWait hi =>
    exact hzero rfl (by simp [Core.block, Core.soften, Core.add, Core.setMem])
      (c.add_mem_of_ne _ (hdev _ hi))
  | passUp type hcur h old new =>
    exact hzero rfl (List.Subset.refl _) (writeState_of_not_inArea (harea _ type hcur rfl h))
  | tick h hq =>
    exact hzero rfl (by simp [h.tree.2, Core.setMem])
      ((Function.update_of_ne hclock ..).trans (congrFun h.mem w))
  | quantum => exact hzero rfl (by simp [Core.preempt]) rfl
  | ioSignal status keep hi =>
    exact hzero rfl (List.Subset.refl _) (c.add_mem_of_ne _ (hdev _ hi))
  | ioWake status keep hi =>
    exact hzero rfl (by simp [Core.wake, Core.soften, Core.save, Core.add, Core.setMem])
      (c.add_mem_of_ne _ (hdev _ hi))
  | ioLost status keep hi =>
    cases keep with
    | false => exact hzero rfl (List.Subset.refl _) (c.add_mem_of_ne _ (hdev _ hi))
    | true => exact hzero rfl (List.Subset.refl _) (c.add_mem_of_ne _ (hdev _ hi))

omit [Layout] in
/-- The scheduler leaves memory and the free list. -/
theorem sched {v : Verdict} {k : Core n} (h : Sched k v c') (hk : c.Accounted k r w) :
    c.Accounted c' r w := by
  have hmem : c'.mem = k.mem := by cases h <;> rfl
  simpa only [Accounted, hmem, h.tree.2] using hk

end Core.Accounted

end

/-! ## Every run -/

section

variable [Layout] {w : ℕ} {c₀ c c' : Config n} {pre tr : List (Config n × Event)}

/-- A step accounts for the word. -/
theorem Config.Sound.step_accounted (hn : n ≤ maxProc) (hw : ¬ InSemaphoreArray w) (h : c.Sound)
    {e : Event} (hspares : c.Spares w e) (hsafe : c.KillSafe e) (hstep : c.step e = some c')
    (hlive : c'.mode.Live) :
    c'.nuc.mem w = c.nuc.mem w + BitVec.ofInt 32 (e.share w + (c.killed w e).length) := by
  cases e with
  | write a v =>
    have hold := Config.step_live hstep
    have hkilled : c.killed w (.write a v) = [] := by
      simp only [Config.killed, hstep]
      rw [Config.step, if_pos hold] at hstep
      obtain rfl := Option.some.inj hstep
      exact h.inv.filter_free_nil (List.Subset.refl _)
    rw [hkilled]
    rw [Config.step, if_pos hold] at hstep
    obtain rfl := Option.some.inj hstep
    have hmem : (c.nuc.setMem a v).mem w = c.nuc.mem w :=
      Function.update_of_ne (Ne.symm hspares) ..
    simpa [Event.share] using hmem
  | trap t todIn todOut =>
    obtain ⟨exit, k, heffect, hfinish, -⟩ := h.trap_cases hn hsafe hstep
    have hk : exit = .ldst ∨ exit = .getNewJob →
        (c.core.entered t).Accounted k t.request w := fun hexit =>
      .of_effect hw heffect (h.inv.entered t)
        (fun p type hp => hspares p type (c.core.entered_cur t ▸ hp)) hexit
    have haccounted : (c.core.entered t).Accounted c'.core t.request w := by
      cases exit with
      | ldst => exact hfinish.2 ▸ hk (.inl rfl)
      | getNewJob =>
        obtain ⟨-, v, -, hsched⟩ := hfinish
        exact (hk (.inr rfl)).sched hsched
      | panic | undefined =>
        rw [hfinish] at hlive
        simp [Mode.Live] at hlive
    have hkilled : c.killed w (.trap t todIn todOut) =
        (c.core.lists.q (.blocked w)).filter fun p => p ∈ c'.core.lists.q .free := by
      simp only [Config.killed, hstep]
      rfl
    rw [Core.Accounted, congrFun (c.core.entered_mem t) w, c.core.entered_lists t] at haccounted
    rw [hkilled]
    exact haccounted

/-- The nucleus accounts for every word of memory outside `semaphoreArray`: along any run that
stores nothing into it and moves no state over it, from any state that a run has reached, its value
has grown by the number of SYS3 on it, less the number of SYS4, and the number of the processes that
were killed while they waited for it. -/
theorem word_accounted (hn : n ≤ maxProc) (hw : ¬ InSemaphoreArray w) (hpre : Run pre c₀)
    (hrun : c₀.RunsTo tr c) (hspares : ∀ x ∈ tr, x.1.Spares w x.2)
    (hsafe : ∀ x ∈ tr ++ pre, x.1.KillSafe x.2) (hlive : c.mode.Live) :
    c.nuc.mem w = c₀.nuc.mem w + BitVec.ofInt 32 ((tr.map fun x => x.2.share w).sum +
      (Fifo.total (Config.killed w) tr).length) := by
  induction hrun with
  | start h =>
    subst h
    simp [Fifo.total]
  | @next tr c c' e hrun hstep ih =>
    have hbefore : c.mode.Live := Config.step_live hstep
    have hmem := ih (fun x hx => hspares x (List.mem_cons_of_mem _ hx))
      (fun x hx => hsafe x (List.mem_cons_of_mem _ hx)) hbefore
    have hsound : c.Sound := .of_run hn (hpre.append hrun)
      (fun x hx => hsafe x (List.mem_cons_of_mem _ hx)) hbefore
    have hspare : c.Spares w e := hspares (c, e) List.mem_cons_self
    have hkill : c.KillSafe e := hsafe (c, e) List.mem_cons_self
    have hone := hsound.step_accounted hn hw hspare hkill hstep hlive
    rw [hone, hmem, BitVec.add_assoc, ← BitVec.ofInt_add, Fifo.total_cons, List.length_append,
      List.map_cons, List.sum_cons]
    congr 2
    push_cast
    ring

omit [Layout] in
/-- A process waits for 0x10000 and is killed by its parent, which terminates. -/
theorem word_accounted_kill : ∃ (_ : Layout) (c₀ c₁ c : Config maxProc),
    c₀.step (.call 4 0x10000 0 0 15000) = some c₁ ∧ c₁.step (.call 2 0 0 0 15010) = some c ∧
      c₁.killed 0x10000 (.call 2 0 0 0 15010) = [2] ∧
      c.nuc.mem 0x10000 = c₀.nuc.mem 0x10000 + BitVec.ofInt 32
        (([(c₁, .call 2 0 0 0 15010), (c₀, .call 4 0x10000 0 0 15000)].map
          fun x : Config maxProc × Event => x.2.share 0x10000).sum +
          (Fifo.total (Config.killed 0x10000) [(c₁, .call 2 0 0 0 15010),
            (c₀, .call 4 0x10000 0 0 15000)]).length) := by
  refine ⟨sampleLayout, ?_⟩
  let _ := sampleLayout
  have hexec : ((Boot.zero.config.bind (·.exec [.call 1 0 0 0 0, .timer 5000, .call 1 0 0 0 5000,
      .timer 10000, .timer 15000])).bind fun c₀ =>
        (c₀.step (.call 4 0x10000 0 0 15000)).bind fun c₁ =>
          (c₁.step (.call 2 0 0 0 15010)).map fun c => (c.mode, c₁.nuc.store.readyList,
            c₁.killed 0x10000 (.call 2 0 0 0 15010), c₁.nuc.store.pSemAdd 0)) =
        some (.running, [0], [2], null) := by
    decide +kernel
  obtain ⟨c₀, hc₀, hrest⟩ := Option.bind_eq_some_iff.mp hexec
  obtain ⟨c₁, hstep₁, hrest⟩ := Option.bind_eq_some_iff.mp hrest
  obtain ⟨c, hstep, hrest⟩ := Option.map_eq_some_iff.mp hrest
  simp only [Prod.mk.injEq] at hrest
  obtain ⟨hmode, hready, hkilled, hsem⟩ := hrest
  obtain ⟨pre, hpre, hevents⟩ := Boot.exec_run hc₀
  have hcreate : ∀ tod, (Event.call 1 0 0 0 tod).Harmless := fun _ _ h => h
  have htimer : ∀ tod, (Event.timer tod).Harmless := fun _ _ h => h
  have hharmless : ∀ x ∈ pre, x.2.Harmless := forall_event hevents
    (List.forall_mem_cons.mpr ⟨hcreate 0, List.forall_mem_cons.mpr ⟨htimer 5000,
      List.forall_mem_cons.mpr ⟨hcreate 5000, List.forall_mem_cons.mpr ⟨htimer 10000,
        List.forall_mem_singleton.mpr (htimer 15000)⟩⟩⟩⟩)
  have hwait : (Event.call 4 0x10000 0 0 15000).Harmless := fun _ h => h
  have hsafe : c₁.KillSafe (.call 2 0 0 0 15010) := by
    intro p _ _ q _ hq
    have hq' : q ∈ c₁.nuc.store.readyList := hq
    rw [hready] at hq'
    obtain rfl := List.mem_singleton.mp hq'
    exact hsem
  have hspares₀ : c₀.Spares 0x10000 (.call 4 0x10000 0 0 15000) := fun p type _ h => by cases h
  have hspares₁ : c₁.Spares 0x10000 (.call 2 0 0 0 15010) := fun p type _ h => by cases h
  exact ⟨c₀, c₁, c, hstep₁, hstep, hkilled, word_accounted le_rfl
    (show ¬ InSemaphoreArray 0x10000 by decide) hpre.run (.next (.next (.start rfl) hstep₁) hstep)
    (List.forall_mem_cons.mpr ⟨hspares₁, List.forall_mem_singleton.mpr hspares₀⟩)
    (List.forall_mem_cons.mpr ⟨hsafe, List.forall_mem_cons.mpr ⟨hwait.killSafe c₀,
      fun x hx => (hharmless x hx).killSafe x.1⟩⟩) (.inl hmode)⟩

end

end Jaeos
