import Jaeos.Devices
import Jaeos.Fairness

/-!
# Context switches

A process that loses the processor gets it back, when its turn comes, with the
registers it had: the pc is past the system call or at the instruction that was
interrupted, and `a1` holds the result of SYS6 or SYS8. Whatever the other processes
and the devices do in between, they leave the registers alone.
-/

namespace Jaeos

variable {n : ℕ}

/-! ## What is kept -/

/-- The registers with which a process is resumed after a request, made from those that were saved
and the result `v`, if there is one. -/
def Request.resumed (r : Request) (st : State) (v : Word) : State :=
  match r with
  | .getCpuTime | .waitForIo _ => st.setReg sA1 v
  | _ => st

theorem Request.resumed_self (r : Request) (st : State) : r.resumed st (st.sReg sA1) = st := by
  have hself : st.setReg sA1 (st.sReg sA1) = st := by
    cases st
    simp [State.setReg]
  cases r <;> first | rfl | exact hself

section

variable [Layout]

/-- A process that has made the request may be blocked on the address. -/
def Request.BlocksOn : Request → ℕ → Prop
  | .passeren a, b => b = a
  | .waitForClock, b => b = semArr clckTimer
  | .waitForIo i, b => b = semArr i
  | _, _ => False

/-- SYS3 and SYS4 stay out of `semaphoreArray`, and an interrupt comes from a device. -/
def Request.Orderly : Request → Prop
  | .verhogen a | .passeren a => ¬ InSemaphoreArray a
  | .device i _ _ => i < clckTimer
  | _ => True

/-- The request of the event is orderly. -/
def Event.Orderly : Event → Prop
  | .write _ _ => True
  | .trap t _ _ => t.request.Orderly

/-- A process that has made a request is blocked with the registers that were saved, or is to be
resumed with the result. -/
inductive Core.Keeps (c : Core n) (p : Fin n) (st : State) (r : Request) : Prop where
  /-- it is ready or runs -/
  | up (v : Word) (h : c.Up p) (hst : c.pS p = r.resumed st v)
  /-- it is blocked -/
  | blocked (a : ℕ) (h : p ∈ c.lists.q (.blocked a)) (ha : r.BlocksOn a) (hst : c.pS p = st)

end

namespace Core.Keeps

variable [Layout] {c c' : Core n} {p : Fin n} {st : State} {r : Request}

/-- The registers are as they were saved. -/
theorem same (h : c.Up p) (hst : c.pS p = st) : c.Keeps p st r :=
  .up (st.sReg sA1) h (hst.trans (r.resumed_self st).symm)

/-- Only the place of the process and its registers matter. -/
theorem congr (h : c.Keeps p st r) (hup : c.Up p → c'.Up p)
    (hq : ∀ a, p ∈ c.lists.q (.blocked a) → p ∈ c'.lists.q (.blocked a))
    (hst : c'.pS p = c.pS p) : c'.Keeps p st r := by
  cases h with
  | up v h hkept => exact .up v (hup h) (hst.trans hkept)
  | blocked a h ha hkept => exact .blocked a (hq a h) ha (hst.trans hkept)

end Core.Keeps

/-! ## The handlers -/

section

variable {c₀ c c' : Core n} {p : Fin n} {a b : ℕ}

/-- Who is blocked stays so when another process is blocked. -/
theorem Core.mem_block (c : Core n) (q : Fin n) (b : ℕ) (hp : p ∈ c.lists.q (.blocked a)) :
    p ∈ (c.block q b).lists.q (.blocked a) := by
  by_cases hab : a = b
  · subst hab
    simp [block, hp]
  · simp [block, hab, hp]

theorem Wakes.pS (h : Wakes a c₀ c) : c.pS = c₀.pS := by
  induction h with
  | refl => rfl
  | next _ _ ih => exact ih

/-- A process that is blocked stays so or becomes ready. -/
theorem Wakes.blocked (h : Wakes b c₀ c) (hp : p ∈ c₀.lists.q (.blocked a)) :
    p ∈ c.lists.q (.blocked a) ∨ p ∈ c.lists.q .ready := by
  induction h with
  | refl => exact .inl hp
  | @next c q qs _ hq ih =>
    rcases ih with ih | ih
    · by_cases hab : a = b
      · subst hab
        rw [hq] at ih
        rcases List.mem_cons.mp ih with rfl | ih
        · exact .inr (by simp [Core.wake, Core.soften])
        · exact .inl (by simp [Core.wake, Core.soften, ih])
      · exact .inl (by simp [Core.wake, Core.soften, hab, ih])
    · exact .inr (by simp [Core.wake, Core.soften, ih])

end

section

variable [Layout] {areas : Fin n → TrapAreas} {c c' : Core n} {r r' : Request} {exit : Exit}
  {p : Fin n} {st : State}

/-- A kill that leaves no current process has killed it. -/
theorem Kills.freed (h : Kills c c') (hinv : c.Inv) (hcur : c.cur = some p)
    (hnone : c'.cur = none) : p ∈ c'.lists.q .free := by
  have hok := (h.inv hinv).ok
  rw [hnone] at hok
  obtain hout | ⟨j, hj⟩ := hok.placed.cover p
  · cases hout
  · by_cases hfree : j = .free
    · exact hfree ▸ hj
    · exact absurd ((h.sublist hfree).subset hj) (hinv.ok.placed.loose p (by simp [hcur]) j)

/-- What the handler does for the process that has made the request. -/
theorem Effect.keeps_caller (h : Effect areas c r exit c') (hinv : c.Inv)
    (hcur : c.cur = some p) (hst : c.pS p = st) (htrap : ∀ type, r ≠ .trap type)
    (hexit : exit = .ldst ∨ exit = .getNewJob ∧ c'.cur = none) (halive : p ∉ c'.lists.q .free) :
    c'.Keeps p st r := by
  have hloose : ∀ {j q}, q ∈ c.lists.q j → p ≠ q := fun {j q} hq e =>
    hinv.ok.placed.loose p (by simp [hcur]) j (e ▸ hq)
  cases h with
  | undefined | clockPanic => simp at hexit
  | createNone | signal | take | specify | ioSignal => exact .same (.inr hcur) hst
  | @create a p' q qs hcur' hq =>
    refine .same (.inr hcur) ?_
    have hne : p ≠ q := hloose (j := .free) (by simp [hq])
    exact (Function.update_of_ne hne ..).trans hst
  | kill _ _ _ h =>
    obtain hexit | ⟨-, hnone⟩ := hexit
    · cases hexit
    · exact absurd (h.freed hinv hcur hnone) halive
  | wake => exact .same (.inr hcur) hst
  | @block a p' hcur' =>
    obtain rfl := Option.some.inj (hcur.symm.trans hcur')
    exact .blocked a (by simp [Core.block]) rfl hst
  | @time p' hcur' v =>
    obtain rfl := Option.some.inj (hcur.symm.trans hcur')
    exact .up v (.inr hcur) (by rw [← hst]; exact Function.update_self ..)
  | @clock p' hcur' =>
    obtain rfl := Option.some.inj (hcur.symm.trans hcur')
    exact .blocked _ (by simp [Core.block, Core.soften]) rfl hst
  | @ioDone i p' hi hcur' =>
    obtain rfl := Option.some.inj (hcur.symm.trans hcur')
    exact .up (c.devStatus i) (.inr hcur) (by rw [← hst]; exact Function.update_self ..)
  | @ioWait i p' hi hcur' =>
    obtain rfl := Option.some.inj (hcur.symm.trans hcur')
    exact .blocked _ (by simp [Core.block, Core.soften]) rfl hst
  | passUp type => exact absurd rfl (htrap type)
  | tick h hq => exact .same (.inr (h.cur.trans hcur)) ((congrFun h.pS p).trans hst)
  | @quantum p' hcur' =>
    obtain rfl := Option.some.inj (hcur.symm.trans hcur')
    exact .same (.inl (by simp [Core.preempt])) hst
  | quantumIdle hnone => exact absurd (hcur.symm.trans hnone) (by simp)
  | @ioWake i status keep q qs hi hneg hq =>
    have hne : p ≠ q := hloose (j := .blocked (semArr i)) (by simp [hq])
    exact .same (.inr hcur) ((Function.update_of_ne hne ..).trans hst)
  | ioLost status keep =>
    cases keep with
    | false => exact .same (.inr hcur) hst
    | true => exact .same (.inr hcur) hst

/-- What the handler does for a process that is blocked. -/
theorem Effect.keeps_blocked {a : ℕ} (h : Effect areas c r' exit c') (hinv : c.Inv)
    (hp : p ∈ c.lists.q (.blocked a)) (ha : r.BlocksOn a) (hst : c.pS p = st)
    (horderly : r.Orderly) (horderly' : r'.Orderly)
    (hexit : exit = .ldst ∨ exit = .getNewJob) (halive : p ∉ c'.lists.q .free) :
    c'.Keeps p st r := by
  have hcur : ∀ q, c.cur = some q → p ≠ q := fun q hq e =>
    hinv.ok.placed.loose q (by simp [hq]) _ (e ▸ hp)
  have hstay : ∀ {k : Core n}, p ∈ k.lists.q (.blocked a) → k.pS p = c.pS p → k.Keeps p st r :=
    fun hk hpS => .blocked a hk ha (hpS.trans hst)
  cases h with
  | undefined | clockPanic => simp at hexit
  | createNone | signal | take | specify | ioSignal | quantumIdle => exact hstay hp rfl
  | @create b p' q qs hcur' hq =>
    have hne : p ≠ q := fun e => by
      subst e
      cases hinv.ok.placed.eq_of_mem hp (show p ∈ c.lists.q .free by simp [hq])
    exact hstay (by simp [Core.create, Core.save, hp]) (Function.update_of_ne hne ..)
  | kill _ _ _ h => exact hstay (h.mem_of_alive (by simp) hp halive) (congrFun h.saved.1 p)
  | @wake b p' q qs hcur' hb hneg hq =>
    by_cases hab : a = b
    · subst hab
      rw [hq] at hp
      rcases List.mem_cons.mp hp with rfl | hp
      · exact .same (.inl (by simp [Core.wake])) hst
      · exact hstay (by simp [Core.wake, hp]) rfl
    · exact hstay (by simp [Core.wake, Core.add, Core.setMem, hab, hp]) rfl
  | @block b q => exact hstay ((c.add b (-1)).mem_block q b hp) rfl
  | time hq | ioDone _ hq | passUp _ hq => exact hstay hp (Function.update_of_ne (hcur _ hq) ..)
  | @clock q => exact hstay ((c.add (semArr clckTimer) (-1)).mem_block q _ hp) rfl
  | @ioWait i q => exact hstay ((c.add (semArr i) (-1)).mem_block q _ hp) rfl
  | tick h hq =>
    rcases h.blocked hp with hk | hk
    · exact hstay hk (congrFun h.pS p)
    · exact .same (.inl hk) ((congrFun h.pS p).trans hst)
  | quantum => exact hstay (by simp [Core.preempt, hp]) rfl
  | @ioWake i status keep q qs hi hneg hq =>
    by_cases hab : a = semArr i
    · subst hab
      rw [hq] at hp
      rcases List.mem_cons.mp hp with rfl | hp
      · -- only SYS8 blocks a process on the semaphore of a device
        refine .up status (.inl (by simp [Core.wake, Core.soften, Core.save])) ?_
        have hkept : ((((c.add (semArr i) 1).wake (semArr i) p qs).soften (-1)).save p
            ((c.pS p).setReg sA1 status)).pS p = (c.pS p).setReg sA1 status :=
          Function.update_self ..
        rw [hkept, hst]
        cases r with
        | waitForIo j => rfl
        | passeren b => exact absurd (ha ▸ (isDevSem_semArr hi).inSemaphoreArray) horderly
        | waitForClock =>
          have hclock : i = clckTimer := semArr_inj.mp ha
          exact absurd (hclock ▸ horderly') (lt_irrefl _)
        | _ => exact ha.elim
      · have hne : p ≠ q := fun e => by
          have hnd := hinv.ok.placed.nodup (.blocked (semArr i))
          rw [hq] at hnd
          exact (List.nodup_cons.mp hnd).1 (e ▸ hp)
        exact hstay (by simp [Core.wake, Core.soften, Core.save, hp])
          (Function.update_of_ne hne ..)
    · have hne : p ≠ q := fun e => by
        subst e
        have hplace := hinv.ok.placed.eq_of_mem hp
          (show p ∈ c.lists.q (.blocked (semArr i)) by simp [hq])
        exact hab (Place.blocked.inj hplace).symm
      exact hstay (by simp [Core.wake, Core.soften, Core.save, Core.add, Core.setMem, hab, hp])
        (Function.update_of_ne hne ..)
  | ioLost status keep =>
    cases keep with
    | false => exact hstay hp rfl
    | true => exact hstay hp rfl

/-- What the handler does for a process that does not run. -/
theorem Effect.keeps_other (h : Effect areas c r' exit c') (hinv : c.Inv)
    (hcur : c.cur ≠ some p) (hkeeps : c.Keeps p st r) (horderly : r.Orderly)
    (horderly' : r'.Orderly) (hexit : exit = .ldst ∨ exit = .getNewJob)
    (halive : p ∉ c'.lists.q .free) : c'.Keeps p st r := by
  cases hkeeps with
  | up v hup hst =>
    obtain ⟨hready, hpS⟩ := h.keepsReady hinv hexit p (hup.resolve_right hcur) halive
    exact .up v (.inl hready) (hpS.trans hst)
  | blocked a hp ha hst => exact h.keeps_blocked hinv hp ha hst horderly horderly' hexit halive

/-- The scheduler. -/
theorem Sched.keeps {v : Verdict} (h : Sched c v c') (hcur : c.cur = none)
    (hkeeps : c.Keeps p st r) : c'.Keeps p st r :=
  hkeeps.congr ((h.blocked_up hcur 0).2 p).mpr (fun a => (h.blocked_up hcur a).1 ▸ id)
    (congrFun h.saved.1 p)

end

/-! ## Every run -/

section

variable [Layout]

namespace Config.Sound

variable {c c' : Config n} {e : Event} {r : Request} {p : Fin n} {st : State}

/-- A handler, and the scheduler behind it. -/
theorem finish_keeps {exit : Exit} {k : Core n}
    (hkeeps : exit = .ldst ∨ exit = .getNewJob ∧ k.cur = none → p ∉ k.lists.q .free →
      k.Keeps p st r)
    (hfinish : Finish exit k c'.mode c'.core) (hlive : c'.mode.Live)
    (halive : p ∉ c'.nuc.store.freeList) : c'.core.Keeps p st r := by
  cases exit with
  | ldst =>
    obtain ⟨-, hcore⟩ := hfinish
    rw [hcore]
    exact hkeeps (.inl rfl) (hcore ▸ halive)
  | getNewJob =>
    obtain ⟨hnone, v, -, hsched⟩ := hfinish
    refine hsched.keeps hnone (hkeeps (.inr ⟨rfl, hnone⟩) ?_)
    rw [← hsched.saved.2]
    exact halive
  | panic =>
    rw [hfinish] at hlive
    simp [Mode.Live] at hlive
  | undefined =>
    rw [hfinish] at hlive
    simp [Mode.Live] at hlive

/-- The trap of the process itself. -/
theorem step_keeps_caller {t : Trap} {todIn todOut : ℤ} (hn : n ≤ maxProc) (h : c.Sound)
    (hsafe : c.KillSafe (.trap t todIn todOut)) (hcur : c.nuc.currentProcess = some p)
    (hsaved : t.saved = some st) (htrap : ∀ type, t.request ≠ .trap type)
    (hstep : c.step (.trap t todIn todOut) = some c') (hlive : c'.mode.Live)
    (halive : p ∉ c'.nuc.store.freeList) : c'.core.Keeps p st t.request := by
  obtain ⟨exit, k, heffect, hfinish, -⟩ := h.trap_cases hn hsafe hstep
  have hcall : c.core.cur = some p := hcur
  have hentered : c.core.entered t = c.core.save p st := by
    simp only [Core.entered, hsaved, hcall]
  rw [hentered] at heffect
  exact finish_keeps (fun hexit hfree => heffect.keeps_caller (h.inv.save p st) hcall
    (Function.update_self ..) htrap hexit hfree) hfinish hlive halive

/-- What happens while it does not run. -/
theorem step_keeps_other (hn : n ≤ maxProc) (h : c.Sound) (hsafe : c.KillSafe e)
    (horderly : r.Orderly) (horderly' : e.Orderly) (hcur : c.nuc.currentProcess ≠ some p)
    (hkeeps : c.core.Keeps p st r) (hstep : c.step e = some c') (hlive : c'.mode.Live)
    (halive : p ∉ c'.nuc.store.freeList) : c'.core.Keeps p st r := by
  cases e with
  | write a v =>
    have hold := Config.step_live hstep
    rw [Config.step, if_pos hold] at hstep
    obtain rfl := Option.some.inj hstep
    exact hkeeps.congr id (fun _ => id) rfl
  | trap t todIn todOut =>
    obtain ⟨exit, k, heffect, hfinish, -⟩ := h.trap_cases hn hsafe hstep
    have hcall : (c.core.entered t).cur ≠ some p := by
      rw [Core.entered_cur]
      exact hcur
    have hentered : (c.core.entered t).Keeps p st r := by
      refine hkeeps.congr ?_ (fun a => by rw [Core.entered_lists]; exact id) ?_
      · rw [Core.Up, Core.Up, Core.entered_lists, Core.entered_cur]
        exact id
      · rw [Core.entered]
        split
        · rename_i q _ hq
          have hne : p ≠ q := fun e => hcur (e ▸ hq)
          exact Function.update_of_ne hne ..
        · rfl
    exact finish_keeps (fun hexit hfree => heffect.keeps_other (h.inv.entered t) hcall hentered
      horderly horderly' (hexit.imp_right And.left) hfree) hfinish hlive halive

end Config.Sound

/-- When a process that has made a system call or was interrupted runs again, its registers are
those that were saved then, with the result of SYS6 or SYS8 in `a1`: whatever has happened in
between, if nobody has killed it. -/
theorem resumed_as_saved (hn : n ≤ maxProc) {pre tr : List (Config n × Event)}
    {c₀ c₁ c : Config n} {p : Fin n} {t : Trap} {todIn todOut : ℤ} {st : State} (hpre : Run pre c₀)
    (hcur : c₀.nuc.currentProcess = some p) (hsaved : t.saved = some st)
    (htrap : ∀ type, t.request ≠ .trap type) (hstep : c₀.step (.trap t todIn todOut) = some c₁)
    (hrun : c₁.RunsTo tr c)
    (hsafe : ∀ x ∈ tr ++ (c₀, .trap t todIn todOut) :: pre, x.1.KillSafe x.2)
    (hasked : t.request.Orderly) (horderly : ∀ x ∈ tr, x.2.Orderly)
    (haway : ∀ x ∈ tr, x.1.nuc.currentProcess ≠ some p)
    (halive : ∀ x ∈ tr, p ∉ x.1.nuc.store.freeList) (hlive : c.mode.Live)
    (hback : c.nuc.currentProcess = some p) :
    ∃ v, c.nuc.store.pS p = t.request.resumed st v := by
  have hwhole : Run (tr ++ (c₀, .trap t todIn todOut) :: pre) c :=
    Transition.Run.append (.next hpre hstep) hrun
  have hsound := Config.Sound.of_mem hn hwhole hsafe
  have hend : c.Sound := .of_run hn hwhole hsafe hlive
  have hfree : p ∉ c.nuc.store.freeList := hend.cur_not_free hback
  have hmem : ∀ x ∈ tr, x ∈ tr ++ (c₀, .trap t todIn todOut) :: pre := fun x hx =>
    List.mem_append_left _ hx
  have halive₁ : c₁.mode.Live ∧ p ∉ c₁.nuc.store.freeList :=
    hrun.start_of (W := fun c => c.mode.Live ∧ p ∉ c.nuc.store.freeList)
      (fun x hx => ⟨(hsound x (hmem x hx)).2, halive x hx⟩) ⟨hlive, hfree⟩
  have hfirst : c₁.core.Keeps p st t.request :=
    (hsound (c₀, .trap t todIn todOut) (by simp)).1.step_keeps_caller hn
      (hsafe (c₀, .trap t todIn todOut) (by simp)) hcur hsaved htrap hstep halive₁.1 halive₁.2
  have hkeeps : c.core.Keeps p st t.request := by
    refine Transition.Run.within (I := fun c => c.core.Keeps p st t.request)
      (W := fun c => c.mode.Live ∧ p ∉ c.nuc.store.freeList)
      (G := fun c e => c.Sound ∧ c.KillSafe e ∧ e.Orderly ∧ c.nuc.currentProcess ≠ some p)
      hfirst ?_ hrun ?_ ?_ ⟨hlive, hfree⟩
    · rintro c e c' hkeeps ⟨hc, hsafe, horderly, hcur⟩ - ⟨hlive, hfree⟩ hstep
      exact hc.step_keeps_other hn hsafe hasked horderly hcur hkeeps hstep hlive hfree
    · exact fun x hx => ⟨(hsound x (hmem x hx)).1, hsafe x (hmem x hx), horderly x hx, haway x hx⟩
    · exact fun x hx => ⟨(hsound x (hmem x hx)).2, halive x hx⟩
  cases hkeeps with
  | up v _ hst => exact ⟨v, hst⟩
  | blocked a hp =>
    have hcore : c.core.cur = some p := hback
    exact absurd hp (hend.inv.ok.placed.loose p (by simp [hcore]) _)

omit [Layout] in
/-- A process waits for the semaphore at 0x10000, and runs again when another one has done its V
and used up its quantum. -/
theorem resumed_as_saved_passeren : ∃ (_ : Layout) (c₀ c₁ c₂ c : Config maxProc) (v : Word),
    c₀.nuc.currentProcess = some 0 ∧ c₀.step (.call 4 0x10000 5 6 20) = some c₁ ∧
      c₁.step (.call 3 0x10000 0 0 30) = some c₂ ∧ c₂.step (.timer 5000) = some c ∧
      c.nuc.currentProcess = some 0 ∧ some (c.nuc.store.pS 0) =
        (Trap.call 4 0x10000 5 6).saved.map fun st =>
          (Trap.call 4 0x10000 5 6).request.resumed st v := by
  refine ⟨sampleLayout, ?_⟩
  let _ := sampleLayout
  have hexec : ((Boot.zero.config.bind (·.exec [.call 1 0 0 0 10])).bind fun c₀ =>
      (c₀.step (.call 4 0x10000 5 6 20)).bind fun c₁ => (c₁.step (.call 3 0x10000 0 0 30)).bind
        fun c₂ => (c₂.step (.timer 5000)).map fun c => (c.mode,
          [c₀.nuc.currentProcess, c₁.nuc.currentProcess, c₂.nuc.currentProcess,
            c.nuc.currentProcess],
          decide (0 ∈ c₁.nuc.store.freeList ++ c₂.nuc.store.freeList))) =
        some (.running, [some 0, some 1, some 1, some 0], false) := by
    decide +kernel
  obtain ⟨c₀, hc₀, hrest⟩ := Option.bind_eq_some_iff.mp hexec
  obtain ⟨c₁, hstep₁, hrest⟩ := Option.bind_eq_some_iff.mp hrest
  obtain ⟨c₂, hstep₂, hrest⟩ := Option.bind_eq_some_iff.mp hrest
  obtain ⟨c, hstep, hrest⟩ := Option.map_eq_some_iff.mp hrest
  simp only [Prod.mk.injEq, List.cons.injEq, decide_eq_false_iff_not, List.mem_append,
    not_or] at hrest
  obtain ⟨hmode, ⟨hcur₀, hcur₁, hcur₂, hcur, -⟩, halive₁, halive₂⟩ := hrest
  obtain ⟨pre, hpre, hevents⟩ := Boot.exec_run hc₀
  have hcreate : (Event.call 1 0 0 0 10).Harmless := fun _ h => h
  have hharmless : ∀ x ∈ pre, x.2.Harmless := forall_event hevents
    (List.forall_mem_singleton.mpr hcreate)
  have hwait : (Event.call 4 0x10000 5 6 20).Harmless := fun _ h => h
  have hsignal : (Event.call 3 0x10000 0 0 30).Harmless := fun _ h => h
  have htimer : (Event.timer 5000).Harmless := fun _ h => h
  have horderly : (Event.call 3 0x10000 0 0 30).Orderly := by
    change ¬ InSemaphoreArray 0x10000
    decide
  obtain ⟨v, hv⟩ := resumed_as_saved le_rfl hpre.run hcur₀ rfl (fun _ h => by cases h) hstep₁
    (.next (.next (.start rfl) hstep₂) hstep)
    (List.forall_mem_cons.mpr ⟨htimer.killSafe c₂, List.forall_mem_cons.mpr
      ⟨hsignal.killSafe c₁, List.forall_mem_cons.mpr ⟨hwait.killSafe c₀,
        fun x hx => (hharmless x hx).killSafe x.1⟩⟩⟩)
    (show ¬ InSemaphoreArray 0x10000 by decide)
    (List.forall_mem_cons.mpr ⟨trivial, List.forall_mem_singleton.mpr horderly⟩)
    (List.forall_mem_cons.mpr ⟨by rw [hcur₂]; decide,
      List.forall_mem_singleton.mpr (by rw [hcur₁]; decide)⟩)
    (List.forall_mem_cons.mpr ⟨halive₂, List.forall_mem_singleton.mpr halive₁⟩) (.inl hmode) hcur
  exact ⟨c₀, c₁, c₂, c, v, hcur₀, hstep₁, hstep₂, hstep, hcur, congrArg some hv⟩

end

end Jaeos
