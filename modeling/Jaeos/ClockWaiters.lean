import Jaeos.Calls
import Jaeos.Reach

/-!
# A pseudo-clock tick

What the tick branch of `interruptHandler` leaves behind, exactly: the processes that wait
for the clock are at the end of the ready queue, the semaphore is 0, and the
descriptor of the clock is free. No interrupt takes a descriptor, so the
descriptors that are not free any more than before are those whose queues have become empty.
-/

namespace Jaeos

open Forest

variable {n : ℕ}

/-! ## Interrupts take no descriptor -/

/-- From one store to the other some active descriptors have been freed, and no other has changed
its address or its place. -/
structure Store.Drains (st st' : Store n) : Prop where
  /-- the addresses are the same -/
  semAdd : st'.sSemAdd = st.sSemAdd
  /-- the descriptors that are freed go to the front of the free list -/
  retired : Retired st.activeSemds st.freeSemds st'.activeSemds st'.freeSemds

namespace Store.Drains

variable {st st₁ st' : Store n}

theorem of_asl (h : st'.toAslData = st.toAslData) : st.Drains st' := by
  refine ⟨by rw [h], ?_⟩
  have hactive : st'.activeSemds = st.activeSemds := by rw [Store.activeSemds, Store.activeSemds, h]
  have hfree : st'.freeSemds = st.freeSemds := by rw [Store.freeSemds, Store.freeSemds, h]
  rw [hactive, hfree]
  exact .refl _ _

theorem trans (h : st.Drains st₁) (h' : st₁.Drains st') : st.Drains st' :=
  ⟨h'.semAdd.trans h.semAdd, h.retired.trans h'.retired⟩

end Store.Drains

/-- The calls of interrupt handlers into `pcb.c` and `asl.c`. -/
def StoreOp.Draining : ∀ {β : Type}, StoreOp n β → Prop
  | _, .data | _, .modifyData _ | _, .semAdd _ | _, .clearSemAdd _ | _, .insertReady _ => True
  | _, .removeBlocked _ => True
  | _, _ => False

/-- The operations of interrupt handlers. -/
def NucOp.Draining : ∀ β, NucOp n β → Prop
  | _, .globals | _, .modify _ | _, .stuck => True
  | _, .store o => o.Draining

/-- These calls take no descriptor. -/
theorem StoreOp.Draining.drains {β : Type} {o : StoreOp n β} {st st' : Store n} {d : PcbData n}
    {l : Lists n} {Q : β → View n → Prop} {b : β} (ho : o.Draining) (h : Rep st d l)
    (hspec : StoreOp.spec β o Q ⟨d, l⟩) (hrun : (StoreOp.sem β o).run st = some (b, st')) :
    st.Drains st' := by
  cases o with
  | data | modifyData | semAdd | clearSemAdd =>
    obtain ⟨-, rfl⟩ := Prod.mk.inj (Option.some.inj hrun)
    exact .of_asl rfl
  | insertReady p =>
    obtain ⟨k, hinsert, -⟩ := insertProcQ_run h.isQueue_ready (hspec.1 .ready)
    have hrun' : (StoreOp.sem _ (.insertReady p)).run st =
        some ((), { st.withLinks k with readyQueue := some p }) := by
      simp [StoreOp.sem, hinsert]
    obtain ⟨-, rfl⟩ := Prod.mk.inj (Option.some.inj (hrun'.symm.trans hrun))
    exact .of_asl rfl
  | removeBlocked a =>
    obtain ⟨hd, ds, fs, hs⟩ := h.asl
    obtain ⟨k, asl, ds', fs', hremove, hs', hsem, hretired, -⟩ :=
      hs.removeBlocked_run (h.rings (.blocked a))
    obtain ⟨-, rfl⟩ := Prod.mk.inj (Option.some.inj (hremove.symm.trans hrun))
    refine ⟨hsem, ?_⟩
    have hs₁ : AslShape ((st.withLinks k).withAsl asl).toAslData _ hd ds' fs' := hs'
    rw [hs.activeSemds_eq, hs.freeSemds_eq, hs₁.activeSemds_eq, hs₁.freeSemds_eq]
    exact hretired
  | _ => exact ho.elim

/-- A program that calls no other operation does on the store what it does on the lists, and takes
no descriptor. -/
theorem nucleus_drains (hn : n ≤ maxProc) {α : Type} {p : NucM n α} {Q : α → Abs n → Prop}
    {c : Nucleus n} {s : Abs n} (hp : p.Only NucOp.Draining) (hc : c.Rep s)
    (h : p.wp NucOp.spec Q s) :
    ∃ a c' s', (p.run NucOp.sem).run c = some (a, c') ∧ (c'.Rep s' ∧ c.store.Drains c'.store) ∧
      Q a s' := by
  refine hp.run_of_wp
    (R := fun (c' : Nucleus n) (s' : Abs n) => c'.Rep s' ∧ c.store.Drains c'.store) ?_
    ⟨hc, .of_asl rfl⟩ h
  rintro β o Q c₁ s₁ ho ⟨hc₁, hdrains⟩ hspec
  cases o with
  | globals => exact ⟨_, c₁, s₁, rfl, ⟨hc₁, hdrains⟩, hc₁.globals ▸ hspec⟩
  | modify f =>
    exact ⟨(), { c₁ with toGlobals := f c₁.toGlobals }, { s₁ with toGlobals := f s₁.toGlobals },
      rfl, ⟨⟨congrArg f hc₁.globals, hc₁.store⟩, hdrains⟩, hspec⟩
  | store o =>
    obtain ⟨b, st, v, hrun, hrep, hQ⟩ := storeOp_sound hn o hc₁.store hspec
    have ho : o.Draining := ho
    refine ⟨b, { c₁ with store := st }, { s₁ with data := v.data, lists := v.lists }, ?_,
      ⟨⟨hc₁.globals, hrep⟩, hdrains.trans (ho.drains hc₁.store hspec hrun)⟩, hQ⟩
    change ((StoreOp.sem _ o).run c₁.store >>= fun r => some (r.1, { c₁ with store := r.2 })) = _
    rw [hrun]
    rfl
  | stuck => exact hspec.elim

/-- Interrupt handlers call no other operation. -/
theorem draining_interruptHandler [Layout] :
    (interruptHandler (n := n)).Only NucOp.Draining := by
  refine Interrupting.interruptHandler.mono ?_
  intro β o ho
  cases o with
  | globals | modify f | stuck => trivial
  | store o =>
    cases o with
    | data | modifyData f | semAdd p | clearSemAdd p | insertReady p | removeBlocked a => trivial
    | _ => exact ho

/-! ## All processes of a queue become ready -/

/-- All processes that are blocked on `a` become ready, in their order. -/
def Lists.release (l : Lists n) (a : ℕ) : Lists n := { l with
  q := Function.update (Function.update l.q (.blocked a) []) .ready (l.q .ready ++ l.q (.blocked a))
  semAdd := fun p => if p ∈ l.q (.blocked a) then null else l.semAdd p }

namespace Lists

variable {l : Lists n} {a b : ℕ} {p : Fin n} {ps : List (Fin n)} {cur : Option (Fin n)}

theorem release_nil (h : l.q (.blocked a) = []) : l.release a = l := by
  have hq : Function.update (Function.update l.q (.blocked a) []) .ready
      (l.q .ready ++ l.q (.blocked a)) = l.q := by
    rw [h, List.append_nil, ← h, Function.update_eq_self, Function.update_eq_self]
  rw [release, hq, h]
  simp

/-- The oldest one first, and then the others. -/
theorem release_cons (h : l.q (.blocked a) = p :: ps) :
    (((l.setQ (.blocked a) ps).setSemAdd p Jaeos.null).append .ready p).release a =
        l.release a := by
  simp only [release, append, setQ, setSemAdd, h]
  congr 1
  · funext i
    by_cases hr : i = .ready
    · simp [hr]
    · by_cases hb : i = .blocked a
      · simp [hb]
      · simp [hr, hb]
  · funext x
    by_cases hx : x = p
    · simp [hx]
    · simp [hx]

theorem Ok.release (h : l.Ok cur) : (l.release a).Ok cur := by
  obtain ⟨ps, hps⟩ : ∃ ps, l.q (.blocked a) = ps := ⟨_, rfl⟩
  induction ps generalizing l with
  | nil => rwa [release_nil hps]
  | cons p ps ih =>
    rw [← release_cons hps]
    exact ih (h.wake hps) (by simp)

@[simp] theorem release_ready : (l.release a).q .ready = l.q .ready ++ l.q (.blocked a) := by
  simp [release]

@[simp] theorem release_free : (l.release a).q .free = l.q .free := by simp [release]

@[simp] theorem release_self : (l.release a).q (.blocked a) = [] := by simp [release]

theorem release_of_ne (h : b ≠ a) : (l.release a).q (.blocked b) = l.q (.blocked b) := by
  simp [release, h]

end Lists

/-! ## The tick -/

section

variable [Layout] {s : Abs n}

/-- What the loop of a tick leaves behind. -/
theorem wp_tickLoop_release {fuel : ℕ} {Q : Unit → Abs n → Prop}
    (hok : s.lists.Ok s.currentProcess)
    (hfuel : (s.lists.q (.blocked (semArr clckTimer))).length < fuel)
    (hQ : Q () ((s.setGlobals { s.toGlobals with softBlockCount :=
      s.softBlockCount - (s.lists.q (.blocked (semArr clckTimer))).length }).setLists
        (s.lists.release (semArr clckTimer)))) :
    (tickLoop (n := n) fuel).wp NucOp.spec Q s := by
  induction fuel generalizing s with
  | zero => omega
  | succ fuel ih =>
    rw [tickLoop, Prog.wp_bind, wp_removeBlocked]
    refine ⟨fun hnil => ?_, fun p ps hcons => ?_⟩
    · rw [Lists.release_nil hnil, hnil] at hQ
      simpa [Abs.setGlobals, Abs.setLists] using hQ
    · have hloose : (s.lists.setQ (.blocked (semArr clckTimer)) ps).Loose p :=
        (hok.placed.pop hcons).loose p (by simp)
      simp only [Prog.wp_bind, wp_clearSemAdd, wp_modifyGlobals, wp_insertReady]
      refine ⟨hloose, ih (hok.wake hcons) ?_ ?_⟩
      · rw [hcons, List.length_cons] at hfuel
        simpa using hfuel
      · have hrest : (((s.lists.setQ (.blocked (semArr clckTimer)) ps).setSemAdd p null).append
            .ready p).q (.blocked (semArr clckTimer)) = ps := by simp
        have hcount : s.softBlockCount - ((p :: ps).length : ℤ) =
            s.softBlockCount - 1 - (ps.length : ℤ) := by
          rw [List.length_cons]
          push_cast
          ring
        rw [hcons, hcount] at hQ
        simp only [Abs.setLists_lists, Abs.setGlobals_lists, hrest, Lists.release_cons hcons]
        exact hQ

/-- The time that is left when the running process has been charged. -/
def Globals.timeLeftNow (g : Globals n) : ℤ :=
  match g.currentProcess with
  | none => g.clock.timeLeft
  | some _ => g.clock.timeLeft - (g.clock.todIn - g.clock.startTOD)

/-- `interruptHandler` takes the tick branch. -/
def Globals.TickDue (g : Globals n) : Prop :=
  pendingOn g.intOld 0x04 ∧ (g.clock.intTimerFlag ∨ g.timeLeftNow < 0)

/-- The states of the processes once the running one has been saved. -/
def Abs.savedStates (s : Abs n) : Fin n → State :=
  match s.currentProcess with
  | none => s.data.pS
  | some p => Function.update s.data.pS p s.intOld.afterInterrupt

/-- What a tick leaves behind, seen on the lists. -/
structure AbsTicked (s : Abs n) (exit : Exit) (s' : Abs n) : Prop where
  /-- the processes that waited are ready -/
  lists : s'.lists = s.lists.release (semArr clckTimer)
  /-- they do not wait for a device any more -/
  softBlockCount : s'.softBlockCount =
    s.softBlockCount - (s.lists.q (.blocked (semArr clckTimer))).length
  /-- as many processes as before -/
  processCount : s'.processCount = s.processCount
  /-- the semaphore is 0, and no other word has changed -/
  mem : s'.mem = Function.update s.mem (semArr clckTimer) 0
  /-- the devices are as they were -/
  devices : s'.devStatus = s.devStatus ∧ s'.devReg = s.devReg
  /-- the same process runs -/
  currentProcess : s'.currentProcess = s.currentProcess
  /-- it is resumed, if there is one -/
  exit : exit = if s.currentProcess.isSome then .ldst else .getNewJob
  /-- where the interrupt has stopped it -/
  pS : s'.data.pS = s.savedStates
  /-- the areas are as they were -/
  trap : s'.data.trap = s.data.trap
  /-- no other process is charged -/
  pTime : ∀ p, s.currentProcess ≠ some p → s'.data.pTime p = s.data.pTime p

/-- The contract of a tick, once the running process has been saved. -/
theorem wp_timerInterrupt_tick (hok : s.lists.Ok s.currentProcess)
    (hdue : s.clock.intTimerFlag ∨ s.clock.timeLeft < 0) {Q : Exit → Abs n → Prop}
    (hQ : ∀ s' : Abs n, s'.lists = s.lists.release (semArr clckTimer) →
      s'.softBlockCount = s.softBlockCount - (s.lists.q (.blocked (semArr clckTimer))).length →
      s'.processCount = s.processCount → s'.mem = Function.update s.mem (semArr clckTimer) 0 →
      s'.devStatus = s.devStatus ∧ s'.devReg = s.devReg → s'.currentProcess = s.currentProcess →
      s'.data = s.data → Q (if s.currentProcess.isSome then .ldst else .getNewJob) s') :
    (timerInterrupt (n := n)).wp NucOp.spec Q s := by
  have hlen := (hok.placed.nodup (.blocked (semArr clckTimer))).length_le_card
  rw [Fintype.card_fin] at hlen
  simp only [timerInterrupt, Prog.wp_bind, wp_globals, Prog.wp_ite]
  rw [if_pos hdue]
  refine wp_tickLoop_release hok (by omega) ?_
  simp only [returnFromInterrupt, Prog.wp_bind, wp_modifyGlobals, wp_setTIMER, wp_modifyClock,
    wp_globals]
  cases hs : s.currentProcess with
  | none =>
    rw [hs] at hQ
    simp only [Abs.setGlobals_globals, Abs.setLists_globals, Globals.setMem, Prog.wp_pure]
    exact hQ _ rfl rfl rfl rfl ⟨rfl, rfl⟩ rfl rfl
  | some p =>
    rw [hs] at hQ
    simp only [Abs.setGlobals_globals, Abs.setLists_globals, Globals.setMem, Prog.wp_bind,
      wp_modifyClock, Prog.wp_pure]
    exact hQ _ rfl rfl rfl rfl ⟨rfl, rfl⟩ rfl rfl

theorem wp_interruptBranch_timer {old : State} {bitmap : ℕ → Word} {Q : Exit → Abs n → Prop}
    (h : pendingOn old 0x04) (hQ : (timerInterrupt (n := n)).wp NucOp.spec Q s) :
    (interruptBranch (n := n) old bitmap).wp NucOp.spec Q s := by
  rwa [interruptBranch, if_pos h]

/-- The contract of a tick. -/
theorem wp_interruptHandler_tick (hok : s.lists.Ok s.currentProcess) (hdue : s.TickDue) :
    (interruptHandler (n := n)).wp NucOp.spec (AbsTicked s) s := by
  obtain ⟨hpending, hdue⟩ := hdue
  have hpending' : pendingOn s.intOld.afterInterrupt 0x04 = true := by
    rw [pendingOn, State.afterInterrupt_sReg _ (by decide)]
    exact hpending
  simp only [interruptHandler, Prog.wp_bind, wp_globals, wp_modifyGlobals, Abs.setGlobals_globals]
  cases hcur : s.currentProcess with
  | none =>
    rw [Globals.timeLeftNow, hcur] at hdue
    rw [hcur] at hok
    apply wp_interruptBranch_timer hpending'
    refine wp_timerInterrupt_tick ?_ ?_ ?_
    · exact hok
    · exact hdue
    intro s' hlists hsoft hcount hmem hdev hcur' hdata
    refine ⟨hlists, hsoft, hcount, hmem, hdev, hcur'.trans hcur.symm, ?_, ?_, ?_, fun q _ => ?_⟩
    · rw [hcur]
      rfl
    · rw [hdata, Abs.savedStates, hcur]
      rfl
    · rw [hdata]
      rfl
    · rw [hdata]
      rfl
  | some p =>
    rw [Globals.timeLeftNow, hcur] at hdue
    rw [hcur] at hok
    simp only [chargeTime, Prog.wp_bind, wp_globals, wp_modifyData, wp_modifyClock, wp_setState]
    apply wp_interruptBranch_timer hpending'
    refine wp_timerInterrupt_tick ?_ ?_ ?_
    · exact hok
    · exact hdue
    intro s' hlists hsoft hcount hmem hdev hcur' hdata
    refine ⟨hlists, hsoft, hcount, hmem, hdev, hcur'.trans hcur.symm, ?_, ?_, ?_, fun q hq => ?_⟩
    · rw [hcur]
      rfl
    · rw [hdata, Abs.savedStates, hcur]
      rfl
    · rw [hdata]
      rfl
    · have hqp : q ≠ p := fun h => hq (h ▸ hcur)
      rw [hdata]
      exact Function.update_of_ne hqp ..

end

/-! ## On the store -/

/-- A descriptor whose queue is the only one that has become empty is the only one that has been
freed. -/
theorem Store.Drains.single {st st' : Store n} {Q : ℕ → List (Fin n)} {a : ℕ} {d : SemdPtr}
    (h : st.Drains st') (hrep : AslRep st.toAslData Q)
    (hrep' : AslRep st'.toAslData (Function.update Q a [])) (hd : d ∈ st.activeSemds)
    (hda : st.sSemAdd d = a) :
    st'.activeSemds = st.activeSemds.erase d ∧ st'.freeSemds = d :: st.freeSemds := by
  obtain ⟨h₀, ds, fs, hs⟩ := hrep
  obtain ⟨h₁, ds', fs', hs'⟩ := hrep'
  obtain ⟨hsem, xs, hfree, hxs, hactive⟩ := h
  rw [hs.activeSemds_eq] at hd hxs hactive ⊢
  rw [hs.freeSemds_eq, hs'.freeSemds_eq] at hfree
  rw [hs'.activeSemds_eq] at hactive
  rw [hs'.activeSemds_eq, hs.freeSemds_eq, hs'.freeSemds_eq]
  have hds : ds.Nodup := (List.nodup_cons.mp (List.nodup_append.mp hs.nodup).1).2
  have hxsnd : xs.Nodup := by
    have hnd := (List.nodup_append.mp hs'.nodup).2.1
    rw [hfree] at hnd
    exact (List.nodup_append.mp hnd).1
  -- the node of `a` is not active any more, and each other one is
  have hmem : ∀ x, x ∈ xs ↔ x = d := by
    intro x
    constructor
    · intro hx
      by_contra hxd
      have hxa : st.sSemAdd x ≠ a := fun e => hxd (hs.semAdd_inj (hxs x hx) hd (e.trans hda.symm))
      have hqueue : Function.update Q a [] (st.sSemAdd x) ≠ [] := by
        rw [Function.update_of_ne hxa]
        exact hs.nonempty x (hxs x hx)
      obtain ⟨y, hy, hyx⟩ := hs'.complete _ hqueue
      rw [hactive] at hy
      obtain ⟨hyds, hyxs⟩ := List.mem_filter.mp hy
      rw [hsem] at hyx
      obtain rfl := hs.semAdd_inj hyds (hxs x hx) hyx
      simp [hx] at hyxs
    · rintro rfl
      by_contra hx
      have hact : x ∈ ds' := by
        rw [hactive]
        exact List.mem_filter.mpr ⟨hd, by simpa using hx⟩
      apply hs'.nonempty x hact
      rw [hsem, hda, Function.update_self]
  have hsingle : xs = [d] := by
    have hperm : xs.Perm [d] := (List.perm_ext_iff_of_nodup hxsnd (List.nodup_singleton d)).mpr
      fun x => by rw [hmem, List.mem_singleton]
    exact List.perm_singleton.mp hperm
  subst hsingle
  refine ⟨?_, hfree⟩
  rw [hactive, hds.erase_eq_filter]
  refine List.filter_congr fun x _ => ?_
  by_cases hx : x = d
  · simp [hx]
  · simp [hx]

variable [Layout]

/-- What a tick leaves behind: all processes that waited for the clock are ready, and everything
else is as it was. -/
structure Nucleus.Ticked (c : Nucleus n) (exit : Exit) (c' : Nucleus n) : Prop where
  /-- the state is well formed, so nobody is in a queue twice or in two queues -/
  wellFormed : c'.WellFormed
  /-- the processes that waited are behind those that were ready, in their order -/
  ready : c'.store.readyList = c.store.readyList ++ c.store.blockedOn (semArr clckTimer)
  /-- nobody waits for the clock -/
  clock : c'.store.blockedOn (semArr clckTimer) = []
  /-- the other queues are as they were -/
  others : ∀ a ≠ semArr clckTimer, c'.store.blockedOn a = c.store.blockedOn a
  /-- and so is the free list -/
  free : c'.store.freeList = c.store.freeList
  /-- the processes that waited have no semaphore, and the others the same as before -/
  semAdd : ∀ p, c'.store.pSemAdd p =
    if p ∈ c.store.blockedOn (semArr clckTimer) then null else c.store.pSemAdd p
  /-- the process tree is as it was -/
  tree : c'.store.pPrnt = c.store.pPrnt ∧ c'.store.children = c.store.children
  /-- the counts -/
  counts : c'.processCount = c.processCount ∧
    c'.softBlockCount = c.softBlockCount - (c.store.blockedOn (semArr clckTimer)).length
  /-- the descriptor of the clock, if there is one, goes from the active list to the free list -/
  descriptor : ∀ d ∈ c.store.activeSemds, c.store.sSemAdd d = semArr clckTimer →
    c'.store.activeSemds = c.store.activeSemds.erase d ∧
      c'.store.freeSemds = d :: c.store.freeSemds
  /-- the semaphore is 0, and no other word has changed -/
  mem : c'.mem = Function.update c.mem (semArr clckTimer) 0
  /-- the devices are as they were -/
  devices : c'.devStatus = c.devStatus ∧ c'.devReg = c.devReg
  /-- the same process runs -/
  currentProcess : c'.currentProcess = c.currentProcess
  /-- it is resumed, if there is one -/
  exit : exit = if c.currentProcess.isSome then .ldst else .getNewJob
  /-- where the interrupt has stopped it, and the other states are as they were -/
  pS : c'.store.pS = c.abs.savedStates
  /-- the trap areas are as they were -/
  trap : c'.store.trap = c.store.trap
  /-- no other process is charged -/
  pTime : ∀ p, c.currentProcess ≠ some p → c'.store.pTime p = c.store.pTime p

/-- A tick releases exactly the processes that wait for the clock. -/
theorem tick_releases_clock_waiters (hn : n ≤ maxProc) {c : Nucleus n} (hwf : c.WellFormed)
    (hdue : c.TickDue) : ∃ exit c', (interruptHandler.run NucOp.sem).run c = some (exit, c') ∧
      c.Ticked exit c' := by
  obtain ⟨exit, c', s', hrun, ⟨hrep, hdrains⟩, hticked⟩ :=
    nucleus_drains hn draining_interruptHandler
    hwf.rep (wp_interruptHandler_tick (s := c.abs) hwf.ok hdue)
  obtain rfl := hrep.abs_eq
  have hlists : c'.store.lists = c.store.lists.release (semArr clckTimer) := hticked.lists
  have hq : ∀ i, c'.store.lists.q i = (c.store.lists.release (semArr clckTimer)).q i := by
    rw [hlists]
    exact fun i => rfl
  have hcur : c'.currentProcess = c.currentProcess := hticked.currentProcess
  have hasl : (fun a => c'.store.lists.q (.blocked a)) =
      Function.update (fun a => c.store.lists.q (.blocked a)) (semArr clckTimer) [] := by
    funext a
    rw [hq]
    by_cases ha : a = semArr clckTimer
    · rw [ha, Lists.release_self, Function.update_self]
    · rw [Lists.release_of_ne ha, Function.update_of_ne ha]
  refine ⟨exit, c', hrun, ⟨hrep, ?_⟩, ?_, ?_, ?_, ?_, ?_, ⟨?_, ?_⟩,
    ⟨hticked.processCount, hticked.softBlockCount⟩, ?_, hticked.mem, hticked.devices, hcur,
    hticked.exit, hticked.pS, hticked.trap, hticked.pTime⟩
  · rw [hlists, hcur]
    exact hwf.ok.release
  · exact (hq .ready).trans Lists.release_ready
  · exact (hq (.blocked (semArr clckTimer))).trans Lists.release_self
  · exact fun a ha => (hq (.blocked a)).trans (Lists.release_of_ne ha)
  · exact (hq .free).trans Lists.release_free
  · exact fun p => congrFun (congrArg Lists.semAdd hlists) p
  · exact congrArg Lists.parent hlists
  · exact congrArg Lists.kids hlists
  · intro d hd hda
    have hrep₀ := hwf.rep.store.asl
    have hrep₁ : AslRep c'.store.toAslData fun a => c'.store.lists.q (.blocked a) := hrep.store.asl
    rw [hasl] at hrep₁
    exact hdrains.single hrep₀ hrep₁ hd hda

omit [Layout] in
/-- The first process and a child wait for the clock, a second child is running and a third one is
ready. A tick releases the two that wait. -/
theorem tick_releases_clock_waiters_two : ∃ (_ : Layout) (c : Nucleus maxProc) (exit : Exit)
    (c' : Nucleus maxProc), c.store.blockedOn (semArr clckTimer) = [0, 1] ∧
      c.store.readyList = [3] ∧ c.currentProcess = some 2 ∧
        (interruptHandler.run NucOp.sem).run c = some (exit, c') ∧ c.Ticked exit c' := by
  refine ⟨sampleLayout, ?_⟩
  let _ := sampleLayout
  have hexec : (Boot.zero.config.bind (·.exec [.call 1 0 0 0 0, .call 1 0 0 0 0, .call 1 0 0 0 0,
      .call 7 0 0 0 97000, .call 7 0 0 0 97500])).map (fun c =>
        (c.mode, c.nuc.store.blockedOn (semArr clckTimer), c.nuc.store.readyList,
          c.nuc.currentProcess, c.nuc.clock.intTimerFlag)) =
        some (.running, [0, 1], [3], some 2, true) := by
    decide +kernel
  obtain ⟨c, hc, hrest⟩ := Option.map_eq_some_iff.mp hexec
  simp only [Prod.mk.injEq] at hrest
  obtain ⟨hmode, hblocked, hready, hcur, hflag⟩ := hrest
  obtain ⟨tr, hrun, htr⟩ := Boot.exec_run hc
  have hcreate : ∀ tod, (Event.call 1 0 0 0 tod).Harmless := fun _ _ h => h
  have hwait : ∀ tod, (Event.call 7 0 0 0 tod).Harmless := fun _ _ h => h
  have hsafe : ∀ x ∈ tr, x.2.Harmless := forall_event htr
    (List.forall_mem_cons.mpr ⟨hcreate 0, List.forall_mem_cons.mpr ⟨hcreate 0,
      List.forall_mem_cons.mpr ⟨hcreate 0, List.forall_mem_cons.mpr ⟨hwait 97000,
        List.forall_mem_singleton.mpr (hwait 97500)⟩⟩⟩⟩)
  have hsound : c.Sound := Config.Sound.of_run le_rfl hrun.run
    (fun x hx => (hsafe x hx).killSafe x.1) (.inl hmode)
  have hpending : pendingOn (State.zero.setReg sCause 0x04000000) 0x04 := by decide
  obtain ⟨exit, c', hhandler, hticked⟩ := tick_releases_clock_waiters le_rfl
    (c := { c.nuc with intOld := State.zero.setReg sCause 0x04000000 })
    (hsound.wellFormed.congr rfl rfl) ⟨hpending, .inl hflag⟩
  exact ⟨{ c.nuc with intOld := State.zero.setReg sCause 0x04000000 }, exit, c', hblocked, hready,
    hcur, hhandler, hticked⟩

end Jaeos
