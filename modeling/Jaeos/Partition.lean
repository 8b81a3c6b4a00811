import Jaeos.Reach

/-!
# The partition of the PCBs

Each PCB is in one place, and `p_semAdd` says whether an allocated one is blocked:
this holds in every live state of a run exactly when each SYS1 that takes a PCB
takes one whose `p_semAdd` is null. Nothing resets the field when a blocked
process is killed, and nothing resets it when its PCB is allocated again.
-/

namespace Jaeos

variable {n : ℕ}

/-- The places of a PCB. -/
inductive Spot where
  /-- the PCB free list -/
  | free
  /-- the ready queue -/
  | ready
  /-- the process queue of an active semaphore -/
  | semd (d : SemdPtr)
  /-- `currentProcess` -/
  | current

/-- The PCB is in a place. -/
def Nucleus.At (c : Nucleus n) (p : Fin n) : Spot → Prop
  | .free => p ∈ c.store.freeList
  | .ready => p ∈ c.store.readyList
  | .semd d => d ∈ c.store.activeSemds ∧ p ∈ c.store.procQ (c.store.sProcQ d)
  | .current => c.currentProcess = some p

/-- Each PCB is in exactly one place, and an allocated one has the address of a semaphore exactly
when it is in its queue. -/
structure Nucleus.Partitioned (c : Nucleus n) : Prop where
  /-- each PCB is in one place -/
  place : ∀ p, ∃! i, c.At p i
  /-- no PCB is twice in the free list -/
  free_nodup : c.store.freeList.Nodup
  /-- no PCB is twice in the ready queue -/
  ready_nodup : c.store.readyList.Nodup
  /-- no PCB is twice in the queue of a semaphore -/
  semd_nodup : ∀ d ∈ c.store.activeSemds, (c.store.procQ (c.store.sProcQ d)).Nodup
  /-- `p_semAdd` is non-null exactly for the blocked -/
  semAdd : ∀ p, p ∉ c.store.freeList → (c.store.pSemAdd p ≠ null ↔ ∃ d, c.At p (.semd d))
  /-- and is then the address of the semaphore -/
  address : ∀ p d, c.At p (.semd d) → c.store.pSemAdd p = c.store.sSemAdd d

/-- A SYS1 that takes a PCB takes one without the address of a semaphore. -/
def Config.FreshStep (c : Config n) : Event → Prop
  | .write _ _ => True
  | .trap t _ _ => ∀ a p ps, t.request = .create a → c.nuc.store.freeList = p :: ps →
    c.nuc.store.pSemAdd p = null

/-! ## Reading the places off the lists -/

/-- No allocated process has the address of a semaphore without being blocked. -/
def Core.Clean (c : Core n) : Prop :=
  ∀ p, p ∉ c.lists.q .free → c.lists.semAdd p ≠ null → ∃ a, p ∈ c.lists.q (.blocked a)

/-- The queue of an active node. -/
theorem Rep.procQ_eq {st : Store n} {d : PcbData n} {l : Lists n} (h : Rep st d l) {x : SemdPtr}
    (hx : x ∈ st.activeSemds) : st.procQ (st.sProcQ x) = l.q (.blocked (st.sSemAdd x)) := by
  obtain ⟨hd, ds, fs, hs⟩ := h.asl
  rw [hs.activeSemds_eq] at hx
  exact IsQueue.procQ_eq ⟨h.rings _, hs.tails x hx⟩

/-- A blocked process is in the queue of an active node. -/
theorem Rep.exists_semd {st : Store n} {d : PcbData n} {l : Lists n} (h : Rep st d l) {a : ℕ}
    {p : Fin n} (hp : p ∈ l.q (.blocked a)) : ∃ x ∈ st.activeSemds, st.sSemAdd x = a := by
  obtain ⟨hd, ds, fs, hs⟩ := h.asl
  rw [hs.activeSemds_eq]
  exact hs.complete a (List.ne_nil_of_mem hp)

/-- Two active nodes with the same address are the same. -/
theorem Rep.semd_inj {st : Store n} {d : PcbData n} {l : Lists n} (h : Rep st d l) {x y : SemdPtr}
    (hx : x ∈ st.activeSemds) (hy : y ∈ st.activeSemds) (hxy : st.sSemAdd x = st.sSemAdd y) :
    x = y := by
  obtain ⟨hd, ds, fs, hs⟩ := h.asl
  rw [hs.activeSemds_eq] at hx hy
  exact hs.semAdd_inj hx hy hxy

namespace Config.Sound

variable {c : Config n}

/-- Where a PCB of a queue is. -/
theorem at_iff (h : c.Sound) (p : Fin n) (d : SemdPtr) : c.nuc.At p (.semd d) ↔
    d ∈ c.nuc.store.activeSemds ∧ p ∈ c.core.lists.q (.blocked (c.nuc.store.sSemAdd d)) := by
  constructor
  · rintro ⟨hd, hp⟩
    rw [h.rep.store.procQ_eq hd] at hp
    exact ⟨hd, hp⟩
  · rintro ⟨hd, hp⟩
    refine ⟨hd, ?_⟩
    rw [h.rep.store.procQ_eq hd]
    exact hp

/-- Some node has the process in its queue exactly when it is blocked. -/
theorem exists_semd_iff (h : c.Sound) (p : Fin n) :
    (∃ d, c.nuc.At p (.semd d)) ↔ ∃ a, p ∈ c.core.lists.q (.blocked a) := by
  constructor
  · rintro ⟨d, hd⟩
    exact ⟨_, ((h.at_iff p d).mp hd).2⟩
  · rintro ⟨a, ha⟩
    obtain ⟨d, hd, rfl⟩ := h.rep.store.exists_semd ha
    exact ⟨d, (h.at_iff p d).mpr ⟨hd, ha⟩⟩

/-- A PCB is in one place only. -/
theorem at_unique (h : c.Sound) {p : Fin n} {i j : Spot} (hi : c.nuc.At p i) (hj : c.nuc.At p j) :
    i = j := by
  have hok := h.inv.ok
  have hdisjoint : ∀ {a b : Place}, p ∈ c.core.lists.q a → p ∈ c.core.lists.q b → a = b :=
    fun {a b} ha hb => hok.placed.disjoint a b p ha hb
  have hloose : c.nuc.currentProcess = some p → ∀ a, p ∉ c.core.lists.q a := fun hcur =>
    hok.placed.loose p (Option.mem_toList.mpr hcur)
  have hread : ∀ {i}, c.nuc.At p i → i = .current ∨ ∃ a, p ∈ c.core.lists.q a := by
    rintro (_ | _ | d | _) hi
    · exact .inr ⟨.free, hi⟩
    · exact .inr ⟨.ready, hi⟩
    · exact .inr ⟨_, ((h.at_iff p d).mp hi).2⟩
    · exact .inl rfl
  cases i with
  | current =>
    obtain rfl | ⟨a, ha⟩ := hread hj
    · rfl
    · exact absurd ha (hloose hi a)
  | free =>
    have hi : p ∈ c.core.lists.q .free := hi
    cases j with
    | current => exact absurd hi (hloose hj _)
    | free => rfl
    | ready => cases hdisjoint hi (show p ∈ c.core.lists.q .ready from hj)
    | semd d => cases hdisjoint hi ((h.at_iff p d).mp hj).2
  | ready =>
    have hi : p ∈ c.core.lists.q .ready := hi
    cases j with
    | current => exact absurd hi (hloose hj _)
    | free => cases hdisjoint hi (show p ∈ c.core.lists.q .free from hj)
    | ready => rfl
    | semd d => cases hdisjoint hi ((h.at_iff p d).mp hj).2
  | semd d =>
    obtain ⟨hd, hi⟩ := (h.at_iff p d).mp hi
    cases j with
    | current => exact absurd hi (hloose hj _)
    | free => cases hdisjoint hi (show p ∈ c.core.lists.q .free from hj)
    | ready => cases hdisjoint hi (show p ∈ c.core.lists.q .ready from hj)
    | semd e =>
      obtain ⟨he, hj⟩ := (h.at_iff p e).mp hj
      rw [h.rep.store.semd_inj hd he (Place.blocked.inj (hdisjoint hi hj))]

/-- Each PCB is somewhere. -/
theorem exists_at (h : c.Sound) (p : Fin n) : ∃ i, c.nuc.At p i := by
  obtain hcur | ⟨a, ha⟩ := h.inv.ok.placed.cover p
  · exact ⟨.current, Option.mem_toList.mp hcur⟩
  · cases a with
    | free => exact ⟨.free, ha⟩
    | ready => exact ⟨.ready, ha⟩
    | blocked a =>
      obtain ⟨d, hd⟩ := (h.exists_semd_iff p).mpr ⟨a, ha⟩
      exact ⟨.semd d, hd⟩

/-- In a sound state the PCBs are partitioned when no allocated process has the address of a
semaphore without being blocked. -/
theorem partitioned_iff (h : c.Sound) : c.nuc.Partitioned ↔ c.core.Clean := by
  have hok := h.inv.ok
  constructor
  · intro hpart p hp hne
    exact (h.exists_semd_iff p).mp ((hpart.semAdd p hp).mp hne)
  · intro hclean
    refine ⟨fun p => ?_, hok.placed.nodup .free, hok.placed.nodup .ready, fun d hd => ?_,
      fun p hp => ⟨fun hne => ?_, ?_⟩, fun p d hd => ?_⟩
    · obtain ⟨i, hi⟩ := h.exists_at p
      exact ⟨i, hi, fun j hj => h.at_unique hj hi⟩
    · rw [h.rep.store.procQ_eq hd]
      exact hok.placed.nodup _
    · exact (h.exists_semd_iff p).mpr (hclean p hp hne)
    · intro hd
      obtain ⟨a, ha⟩ := (h.exists_semd_iff p).mp hd
      have haddr : c.nuc.store.pSemAdd p = a := hok.blocked a p ha
      rw [haddr]
      exact hok.ne_null ha
    · exact hok.blocked _ p ((h.at_iff p d).mp hd).2

end Config.Sound

/-! ## Every effect keeps the processes clean -/

/-- A ready process of a clean state has no address. -/
theorem Core.Clean.ready {c : Core n} (h : c.Clean) (hok : c.lists.Ok c.cur) {p : Fin n}
    (hp : p ∈ c.lists.q .ready) : c.lists.semAdd p = null := by
  by_contra hne
  have hfree : p ∉ c.lists.q .free := fun hf => by
    cases hok.placed.disjoint .free .ready p hf hp
  obtain ⟨a, ha⟩ := h p hfree hne
  cases hok.placed.disjoint .ready (.blocked a) p hp ha

namespace Core.Clean

variable {c c' : Core n} {p r : Fin n} {ps : List (Fin n)} {a : ℕ}

/-- Clean is kept when the blocked stay blocked, the free stay free and the addresses are the
same. -/
theorem congr (h : c.Clean) (hsem : c'.lists.semAdd = c.lists.semAdd)
    (hfree : ∀ p, p ∉ c'.lists.q .free → p ∉ c.lists.q .free)
    (hblocked : ∀ p, p ∉ c'.lists.q .free → ∀ a, p ∈ c.lists.q (.blocked a) →
      p ∈ c'.lists.q (.blocked a)) : c'.Clean := by
  intro p hp hne
  rw [hsem] at hne
  obtain ⟨a, ha⟩ := h p (hfree p hp) hne
  exact ⟨a, hblocked p hp a ha⟩

theorem create (h : c.Clean) (hq : c.lists.q .free = p :: ps) (hfresh : c.lists.semAdd p = null) :
    (c.create r p ps).Clean := by
  intro x hx hne
  have hsem : (c.create r p ps).lists.semAdd = c.lists.semAdd := rfl
  rw [hsem] at hne
  have hxp : x ≠ p := by
    rintro rfl
    exact hne hfresh
  have hx' : x ∉ ps := by simpa [Core.create] using hx
  obtain ⟨b, hb⟩ := h x (by simp [hq, hxp, hx']) hne
  exact ⟨b, by simpa [Core.create] using hb⟩

theorem wake (h : c.Clean) (hq : c.lists.q (.blocked a) = p :: ps) : (c.wake a p ps).Clean := by
  intro x hx hne
  have hsem : (c.wake a p ps).lists.semAdd = Function.update c.lists.semAdd p null := rfl
  rw [hsem] at hne
  have hxp : x ≠ p := by
    rintro rfl
    exact hne (Function.update_self ..)
  rw [Function.update_of_ne hxp] at hne
  obtain ⟨b, hb⟩ := h x (by simpa [Core.wake] using hx) hne
  refine ⟨b, ?_⟩
  by_cases hba : b = a
  · subst hba
    rw [hq] at hb
    simpa [Core.wake, hxp] using hb
  · simpa [Core.wake, hba] using hb

theorem wakes (h : c.Clean) (hw : Wakes a c c') : c'.Clean := by
  induction hw with
  | refl => exact h
  | next _ hq ih => exact ih.wake hq

theorem block (h : c.Clean) : (c.block p a).Clean := by
  intro x hx hne
  by_cases hxp : x = p
  · exact ⟨a, by simp [Core.block, hxp]⟩
  · have hsem : (c.block p a).lists.semAdd = Function.update c.lists.semAdd p a := rfl
    rw [hsem, Function.update_of_ne hxp] at hne
    obtain ⟨b, hb⟩ := h x (by simpa [Core.block] using hx) hne
    refine ⟨b, ?_⟩
    by_cases hba : b = a
    · subst hba
      simp [Core.block, hb]
    · simpa [Core.block, hba] using hb

/-- A process that waits in a queue is freed. -/
theorem reap {j : Place} (h : c.Clean) (hj : j ≠ .free) : (c.reap j p).Clean := by
  have hfree : (c.reap j p).lists.q .free = c.lists.q .free ++ [p] := by
    simp [Core.reap, Function.update_of_ne hj.symm]
  refine h.congr rfl (fun x hx hf => hx (by simp [hfree, hf])) fun x hx b hb => ?_
  have hxp : x ≠ p := fun e => hx (by simp [hfree, e])
  have hq : (c.reap j p).lists.q (.blocked b) =
      Function.update c.lists.q j ((c.lists.q j).erase p) (.blocked b) := by simp [Core.reap]
  rw [hq]
  by_cases hjb : j = .blocked b
  · subst hjb
    rw [Function.update_self]
    exact (List.mem_erase_of_ne hxp).mpr hb
  · rw [Function.update_of_ne (Ne.symm hjb)]
    exact hb

variable [Layout]

theorem kills (h : c.Clean) (hk : Kills c c') : c'.Clean := by
  induction hk with
  | refl => exact h
  | orphan _ _ ih => exact ih.congr rfl (fun _ hp => hp) fun _ _ _ hb => hb
  | ready _ _ _ ih => exact ih.reap (by simp)
  | @blocked k q b _ _ _ ih =>
    have hreap := ih.reap (p := q) (j := .blocked b) (by simp)
    rw [Core.compensate]
    split
    · exact hreap
    · exact hreap
  | @cur k q _ _ _ ih =>
    refine ih.congr rfl (fun x hx hf => hx (by simp [Core.reapCur, hf])) fun x hx b hb => ?_
    simpa [Core.reapCur] using hb

end Core.Clean

/-- A live handler keeps the processes clean, if SYS1 takes a fresh PCB. -/
theorem Effect.clean [Layout] {areas : Fin n → TrapAreas} {c c' : Core n} {r : Request}
    {exit : Exit} (h : Effect areas c r exit c') (hclean : c.Clean)
    (hfresh : ∀ a p ps, r = .create a → c.lists.q .free = p :: ps → c.lists.semAdd p = null)
    (hexit : exit = .ldst ∨ exit = .getNewJob) : c'.Clean := by
  have hadd : ∀ a d, (c.add a d).Clean := fun _ _ => hclean
  cases h with
  | undefined | clockPanic => simp at hexit
  | createNone | specify | quantumIdle | signal | take | ioSignal | time | ioDone | passUp =>
    exact hclean
  | create a hcur hq => exact Core.Clean.create (c := c.save _ _) hclean hq (hfresh a _ _ rfl hq)
  | kill _ _ _ h => exact hclean.kills h
  | wake hcur ha hneg hq => exact (hadd _ _).wake hq
  | block | clock | ioWait => exact (hadd _ _).block
  | tick h hq =>
    have hwakes := hclean.wakes h
    exact hwakes
  | quantum hcur =>
    refine hclean.congr rfl (fun _ hp => by simpa [Core.preempt] using hp) fun _ _ _ hb => ?_
    simpa [Core.preempt] using hb
  | ioWake status keep hi hneg hq => exact (hadd _ _).wake hq
  | ioLost status keep => cases keep <;> exact hclean

/-- `getNewJob` keeps the processes clean. -/
theorem Sched.clean {c c' : Core n} {v : Verdict} (h : Sched c v c') (hclean : c.Clean) :
    c'.Clean := by
  cases h with
  | dispatch =>
    refine hclean.congr rfl (fun _ hp => by simpa [Core.dispatch] using hp) fun _ _ _ hb => ?_
    simpa [Core.dispatch] using hb
  | halt | panic | wait | returns => exact hclean

/-! ## Every run -/

section

variable [Layout] {c c' : Config n}

omit [Layout] in
/-- In a clean state every kill is safe. -/
theorem Config.Sound.killSafe (h : c.Sound) (hclean : c.core.Clean) (e : Event) : c.KillSafe e := by
  cases e with
  | write a v => trivial
  | trap t todIn todOut => exact fun p _ _ q _ hq => hclean.ready h.inv.ok hq

/-- A fresh step keeps a clean state clean. -/
theorem Config.Sound.step_clean (hn : n ≤ maxProc) (h : c.Sound) (hclean : c.core.Clean) {e : Event}
    (hfresh : c.FreshStep e) (hstep : c.step e = some c') (hlive : c'.mode.Live) :
    c'.Sound ∧ c'.core.Clean := by
  have hsafe := h.killSafe hclean e
  refine ⟨h.step hn hsafe hstep hlive, ?_⟩
  cases e with
  | write a v =>
    have hold := Config.step_live hstep
    rw [Config.step, if_pos hold] at hstep
    obtain rfl := Option.some.inj hstep
    exact hclean
  | trap t todIn todOut =>
    obtain ⟨exit, k, heffect, hfinish, -⟩ := h.trap_cases hn hsafe hstep
    have hlists : (c.core.entered t).lists = c.core.lists := c.core.entered_lists t
    have hentered : (c.core.entered t).Clean := by
      rw [Core.Clean, hlists]
      exact hclean
    have hk := heffect.clean hentered fun a p ps hr hq => by
      rw [hlists] at hq ⊢
      exact hfresh a p ps hr hq
    cases exit with
    | ldst => exact hfinish.2 ▸ hk (.inl rfl)
    | getNewJob =>
      obtain ⟨-, v, -, hsched⟩ := hfinish
      exact hsched.clean (hk (.inr rfl))
    | panic =>
      rw [hfinish] at hlive
      simp [Mode.Live] at hlive
    | undefined =>
      rw [hfinish] at hlive
      simp [Mode.Live] at hlive

/-- A SYS1 that takes a PCB with the address of a semaphore leaves a live state that is not
clean. -/
theorem Config.Sound.step_stale (hn : n ≤ maxProc) (h : c.Sound) (hclean : c.core.Clean) {e : Event}
    (hstale : ¬ c.FreshStep e) (hstep : c.step e = some c') :
    c'.mode.Live ∧ ¬ c'.core.Clean := by
  cases e with
  | write a v => exact absurd trivial hstale
  | trap t todIn todOut =>
    simp only [Config.FreshStep, not_forall] at hstale
    obtain ⟨a, p, ps, hr, hq, hne⟩ := hstale
    obtain ⟨exit, k, heffect, hfinish, -⟩ := h.trap_cases hn (h.killSafe hclean _) hstep
    rw [hr] at heffect
    have hq : (c.core.entered t).lists.q .free = p :: ps := by
      rw [Core.entered_lists]
      exact hq
    have hne : (c.core.entered t).lists.semAdd p ≠ null := by
      rw [Core.entered_lists]
      exact hne
    generalize hreq : Request.create a = r at heffect
    cases heffect with
    | create b hcur hq' =>
      obtain ⟨rfl, rfl⟩ := List.cons.inj (hq.symm.trans hq')
      refine ⟨.inl hfinish.1, fun hclean' => ?_⟩
      rw [hfinish.2] at hclean'
      have hinv := (h.inv.entered t).save p (readState (c.core.entered t).mem b)
      have hready := hclean'.ready (hinv.create hcur hq).ok (p := p) (by simp [Core.create])
      exact hne hready
    | createNone b hcur hq' =>
      rw [hq] at hq'
      cases hq'
    | kill r hcur hfatal =>
      rw [← hreq] at hfatal
      cases hfatal
    | undefined hfail =>
      rw [← hreq] at hfail
      cases hfail
    | _ => cases hreq

/-- The live states of a run whose steps are fresh. -/
theorem Config.clean_of_run (hn : n ≤ maxProc) {tr : List (Config n × Event)} (hrun : Run tr c)
    (hfresh : ∀ x ∈ tr, x.1.FreshStep x.2) (hlive : c.mode.Live) : c.Sound ∧ c.core.Clean := by
  refine hrun.invariant (I := fun c => c.mode.Live → c.Sound ∧ c.core.Clean)
    (G := Config.FreshStep) ?_ ?_ hfresh hlive
  · rintro c ⟨b, hb⟩ hlive
    obtain ⟨hsound, k, p, hbooted, -, hcore⟩ := Config.Sound.boot hn hb hlive
    refine ⟨hsound, fun q _ hne => ?_⟩
    rw [hcore] at hne
    exact absurd (hbooted.semAdd q) hne
  · intro c e c' hc hfresh hstep hlive
    obtain ⟨hsound, hclean⟩ := hc (Config.step_live hstep)
    exact hsound.step_clean hn hclean hfresh hstep hlive

/-- The states a run has been in. -/
def visited (tr : List (Config n × Event)) (c : Config n) : List (Config n) := c :: tr.map Prod.fst

/-- In a run the PCBs are partitioned in every live state exactly when each SYS1 that takes a PCB
takes one without the address of a semaphore. -/
theorem partitioned_iff_fresh (hn : n ≤ maxProc) {tr : List (Config n × Event)}
    (hrun : Run tr c) :
    (∀ k ∈ visited tr c, k.mode.Live → k.nuc.Partitioned) ↔ ∀ x ∈ tr, x.1.FreshStep x.2 := by
  constructor
  · induction hrun with
    | start h => simp
    | @next tr c c' e hrun hstep ih =>
      intro hpart
      have hfresh : ∀ x ∈ tr, x.1.FreshStep x.2 := ih fun k hk => hpart k (by
        simp only [visited, List.mem_cons, List.map_cons] at hk ⊢
        exact .inr hk)
      have hold := Config.step_live hstep
      obtain ⟨hsound, hclean⟩ := Config.clean_of_run hn hrun hfresh hold
      refine List.forall_mem_cons.mpr ⟨?_, hfresh⟩
      -- a stale step would leave a state that is not partitioned
      by_contra hstale
      obtain ⟨hlive, hnot⟩ := hsound.step_stale hn hclean hstale hstep
      have hsound' := hsound.step hn (hsound.killSafe hclean e) hstep hlive
      exact hnot (hsound'.partitioned_iff.mp (hpart c' (by simp [visited]) hlive))
  · intro hfresh k hk hlive
    obtain ⟨pre, hrun', hpre⟩ : ∃ pre, Run pre k ∧ ∀ x ∈ pre, x ∈ tr := by
      rcases List.mem_cons.mp hk with rfl | hk
      · exact ⟨tr, hrun, fun x hx => hx⟩
      · obtain ⟨x, hx, rfl⟩ := List.mem_map.mp hk
        obtain ⟨post, pre, htr⟩ := List.append_of_mem hx
        exact ⟨pre, hrun.before htr, fun y hy => by simp [htr, hy]⟩
    obtain ⟨hsound, hclean⟩ := Config.clean_of_run hn hrun' (fun x hx => hfresh x (hpre x hx)) hlive
    exact hsound.partitioned_iff.mpr hclean

end

/-- The first process creates another one. -/
theorem partitioned_iff_fresh_create : ∃ (_ : Layout) (tr : List (Config maxProc × Event))
    (c : Config maxProc), tr.map Prod.snd = [.call 1 0 0 0 0] ∧
      ∀ k ∈ visited tr c, k.mode.Live → k.nuc.Partitioned := by
  refine ⟨sampleLayout, ?_⟩
  let _ := sampleLayout
  have hexec : Boot.zero.config.bind (fun c => (c.step (.call 1 0 0 0 0)).map fun _ =>
      c.nuc.store.freeList.map c.nuc.store.pSemAdd) = some (List.replicate 19 null) := by
    decide +kernel
  obtain ⟨c₀, hc₀, hrest⟩ := Option.bind_eq_some_iff.mp hexec
  obtain ⟨c, hstep, hsem⟩ := Option.map_eq_some_iff.mp hrest
  have hrun : Run [(c₀, .call 1 0 0 0 0)] c := .next (.start ⟨_, hc₀⟩) hstep
  refine ⟨_, c, rfl, (partitioned_iff_fresh le_rfl hrun).mpr ?_⟩
  rintro x hx
  obtain rfl := List.mem_singleton.mp hx
  intro a p ps _ hq
  have hp : c₀.nuc.store.pSemAdd p ∈ c₀.nuc.store.freeList.map c₀.nuc.store.pSemAdd :=
    List.mem_map_of_mem (by rw [hq]; simp)
  rw [hsem] at hp
  exact List.eq_of_mem_replicate hp

/-- The PCB used again is ready with the address of the semaphore on which its former process was
blocked. -/
theorem partitioned_fails : ¬ ∀ (_ : Layout) (tr : List (Config maxProc × Event))
    (c : Config maxProc), Run tr c → (∀ x ∈ tr, x.2.Proper) → c.mode.Live → c.nuc.Partitioned := by
  intro h
  let _ := sampleLayout
  have hexec : (Boot.zero.config.bind (·.exec reuse)).map (fun c =>
      (c.mode, decide (2 ∈ c.nuc.store.readyList), c.nuc.store.pSemAdd 2)) =
        some (.running, true, 0x10000) := by
    decide +kernel
  obtain ⟨c, hc, hrest⟩ := Option.map_eq_some_iff.mp hexec
  simp only [Prod.mk.injEq, decide_eq_true_eq] at hrest
  obtain ⟨hmode, hready, hsem⟩ := hrest
  obtain ⟨tr, hrun, htr⟩ := Boot.exec_run hc
  have hpart := h _ tr c hrun.run (forall_event htr (by decide)) (.inl hmode)
  obtain ⟨i, -, huniq⟩ := hpart.place 2
  have hi : Spot.ready = i := huniq .ready hready
  have hfree : (2 : Fin maxProc) ∉ c.nuc.store.freeList := fun hf => by
    cases hi.trans (huniq .free hf).symm
  obtain ⟨d, hd⟩ := (hpart.semAdd 2 hfree).mp (by rw [hsem]; decide)
  cases hi.trans (huniq (.semd d) hd).symm

end Jaeos
