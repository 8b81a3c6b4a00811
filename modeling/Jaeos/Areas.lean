import Jaeos.Calls
import Jaeos.Reach

/-!
# The areas of a process

Besides `freePcb` and `allocPcb`, which clear the areas of a PCB, only SYS5 writes them.
`Trap.areasAfter` is what a trap does to the areas of the PCBs in use, SYS5 with the cases of its
`switch` that fall through (`TrapAreas.afterSesv`).
-/

namespace Jaeos

variable {n : ℕ}

/-! ## The arguments of SYS5 -/

/-- The arguments of a SYS5. -/
structure SesvCall where
  /-- the trap type -/
  type : Word
  /-- the old area -/
  old : ℕ
  /-- the new area -/
  new : ℕ
  deriving DecidableEq

/-- The SYS5 that the trap is, if it is one in system mode. -/
def Trap.sesvCall : Trap → Option SesvCall
  | .sysCall old =>
    if old.sReg sCpsr &&& systemMode = systemMode ∧ SysCall.ofNum (old.sReg sA1) = some .sesv then
      some ⟨old.sReg sA2, (old.sReg sA3).toNat, (old.sReg sA4).toNat⟩
    else none
  | _ => none

/-- The arguments of a SYS5. -/
theorem Trap.sesvCall_cases {old : State} {k : SesvCall}
    (hk : (Trap.sysCall old).sesvCall = some k) :
    (Trap.sysCall old).request = .sesv (sysFiveCases k.type) ∧
      k.old = (old.sReg sA3).toNat ∧ k.new = (old.sReg sA4).toNat := by
  rw [Trap.sesvCall] at hk
  split at hk
  case isFalse => cases hk
  case isTrue h =>
    obtain rfl := Option.some.inj hk
    refine ⟨?_, rfl, rfl⟩
    rw [Trap.request, if_pos h.1, h.2]
    rfl

/-- The areas that `sysFiveHandle` leaves the caller: it takes the first case from the one of the
type on whose old area is `NULL`. -/
def TrapAreas.afterSesv (areas : TrapAreas) (k : SesvCall) : TrapAreas :=
  match (sysFiveCases k.type).find? fun type => areas.old type = null with
  | some type => areas.install type k.old k.new
  | .none => areas

/-- The areas of the processes after a trap. -/
def Trap.areasAfter (t : Trap) (cur : Option (Fin n)) (g : Fin n → TrapAreas) : Fin n → TrapAreas :=
  fun p => if cur = some p then t.sesvCall.elim (g p) (g p).afterSesv else g p

theorem Trap.areasAfter_of_none {t : Trap} (h : t.sesvCall = none) (cur : Option (Fin n))
    (g : Fin n → TrapAreas) : t.areasAfter cur g = g := by
  funext p
  simp [areasAfter, h]

theorem Trap.areasAfter_self {t : Trap} {k : SesvCall} (h : t.sesvCall = some k) (p : Fin n)
    (g : Fin n → TrapAreas) :
    t.areasAfter (some p) g = Function.update g p ((g p).afterSesv k) := by
  funext q
  by_cases hq : q = p
  · subst hq
    simp [areasAfter, h]
  · simp [areasAfter, hq, Ne.symm hq]

/-! ## The areas and the operations -/

/-- The PCBs in use have these areas. -/
def Abs.HasAreas (s : Abs n) (g : Fin n → TrapAreas) : Prop :=
  ∀ p, p ∉ s.lists.q .free → s.data.trap p = g p

section

variable {s : Abs n} {g : Fin n → TrapAreas} {p : Fin n}

/-- Only `freePcb` touches the areas of a PCB, and it frees it. -/
theorem NucOp.KeepsAreas.hasAreas {β : Type} {o : NucOp n β} {Q : β → Abs n → Prop}
    (ho : o.KeepsAreas) (hs : s.HasAreas g) (h : NucOp.spec β o Q s) :
    NucOp.spec β o (fun b s' => Q b s' ∧ s'.HasAreas g) s := by
  cases o with
  | globals | modify f => exact ⟨h, hs⟩
  | stuck => exact h
  | store o =>
    cases o with
    | data | semAdd p | clearSemAdd p | emptyChild p => exact ⟨h, hs⟩
    | modifyData f =>
      refine ⟨h, fun x hx => ?_⟩
      exact (congrFun (ho s.data) x).trans (hs x hx)
    | allocPcb => exact absurd ho id
    | freePcb p =>
      obtain ⟨hloose, hiso, hQ⟩ := h
      refine ⟨hloose, hiso, hQ, fun x hx => ?_⟩
      have hx : x ∉ s.lists.q .free ∧ x ≠ p := by simpa using hx
      exact (Function.update_of_ne hx.2 _ _).trans (hs x hx.1)
    | insertChild r p => exact ⟨h.1, h.2, hs⟩
    | removeChild r =>
      exact ⟨fun hnil => ⟨h.1 hnil, hs⟩, fun p ps hcons => ⟨h.2 p ps hcons, hs⟩⟩
    | outChild p => exact ⟨fun hnone => ⟨h.1 hnone, hs⟩, fun r hr => ⟨h.2 r hr, hs⟩⟩
    | insertReady p => exact ⟨h.1, h.2, hs⟩
    | removeReady | removeBlocked a =>
      exact ⟨fun hnil => ⟨h.1 hnil, hs⟩, fun p ps hcons => ⟨h.2 p ps hcons, hs⟩⟩
    | outReady p | outBlocked p =>
      exact ⟨fun hnot => ⟨h.1 hnot, hs⟩, fun hmem => ⟨h.2 hmem, hs⟩⟩
    | insertBlocked a p => exact ⟨h.1, h.2, hs⟩

/-- Programs of such operations leave the PCBs in use their areas. -/
theorem wp_keepsAreas {α : Type} {prog : NucM n α} {Q : α → Abs n → Prop}
    (hp : prog.Only NucOp.KeepsAreas) (hs : s.HasAreas g) (h : prog.wp NucOp.spec Q s) :
    prog.wp NucOp.spec (fun _ s' => s'.HasAreas g) s :=
  Prog.wp_mono NucOp.spec_mono (fun _ _ h => h.2)
    (hp.wp_and NucOp.spec_mono (fun _ _ _ ho hs h => ho.hasAreas hs h) hs h)

/-! ## The areas and the handlers -/

/-- SYS1 takes a free PCB, and clears its areas. -/
theorem wp_createProcess_areas (hinv : s.core.Inv) (hcur : s.currentProcess = some p)
    (hfree : ∀ x ∈ s.lists.q .free, g x = .none) (hs : s.HasAreas g) :
    (createProcess p).wp NucOp.spec (fun _ s' => s'.HasAreas g) s := by
  have hok : s.lists.Ok (some p) := hcur ▸ hinv.ok
  rw [createProcess, Prog.wp_bind, wp_allocPcb]
  refine ⟨fun hnil => ?_, fun q qs hcons => ?_⟩
  · simp only [Prog.wp_bind, wp_modifyGlobals]
    exact wp_headBackHome hcur hs
  · have hiso : s.lists.Isolated q := hok.free q (by simp [hcons])
    have hloose : (s.lists.setQ .free qs).Loose q := (hok.placed.pop hcons).loose q (by simp)
    refine ⟨hiso, ?_⟩
    simp only [Prog.wp_bind, wp_modifyGlobals, wp_globals, wp_setState, wp_insertChild,
      wp_insertReady]
    refine ⟨hiso.1, hloose, wp_headBackHome hcur fun x hx => ?_⟩
    have hx : x ∉ qs := by simpa using hx
    by_cases hxq : x = q
    · subst hxq
      rw [hfree x (by simp [hcons])]
      exact Function.update_self ..
    · have hold : x ∉ s.lists.q .free := by simpa [hcons] using ⟨hxq, hx⟩
      exact (Function.update_of_ne hxq _ _).trans (hs x hold)

variable [Layout]

/-- SYS5 writes the areas of its caller. -/
theorem wp_sysFiveFrom_areas {types : List TrapType} {k : SesvCall} (hinv : s.core.Inv)
    (hcur : s.currentProcess = some p)
    (hold : (s.sysCallOld.sReg sA3).toNat = k.old) (hnew : (s.sysCallOld.sReg sA4).toNat = k.new)
    (hsafe : (∀ type ∈ types, (s.data.trap p).old type ≠ null) → s.core.KillSafe p)
    (hs : s.HasAreas g) :
    (sysFiveFrom p types).wp NucOp.spec (fun _ s' => s'.HasAreas (Function.update g p
      (match types.find? fun type => (s.data.trap p).old type = null with
        | some type => (s.data.trap p).install type k.old k.new
        | none => s.data.trap p))) s := by
  have hp : p ∉ s.lists.q .free := (hcur ▸ hinv.ok : s.lists.Ok (some p)).cur_loose .free
  induction types with
  | nil =>
    -- nothing is installed, and the caller is killed
    have hg : Function.update g p (s.data.trap p) = g := by
      rw [hs p hp, Function.update_eq_self]
    simp only [List.find?_nil, hg]
    refine wp_keepsAreas (Q := fun _ _ => True) ((KeepsAreas.nuke _ p).bind fun _ => .pure _) hs ?_
    rw [sysFiveFrom, Prog.wp_bind]
    exact wp_nuke hinv hcur (hsafe (by simp)) fun _ _ => trivial
  | cons type types ih =>
    simp only [sysFiveFrom, Prog.wp_bind, wp_data, Prog.wp_ite, wp_globals, wp_modifyData]
    split
    case isTrue hnull =>
      refine wp_headBackHome hcur ?_
      rw [List.find?_cons_of_pos (by simpa using hnull)]
      intro x hx
      rw [Abs.setData_data, hold, hnew]
      by_cases hxp : x = p
      · subst hxp
        simp only [Function.update_self]
      · simp only [Function.update_of_ne hxp]
        exact hs x hx
    case isFalse hne =>
      rw [List.find?_cons_of_neg (by simpa using hne)]
      exact ih fun hall => hsafe (List.forall_mem_cons.mpr ⟨hne, hall⟩)

/-- The areas that a system call leaves behind. -/
theorem wp_sysCallHandler_areas {old : State} (hinv : s.core.Inv) (hcur : s.currentProcess = some p)
    (hold : s.sysCallOld = old)
    (hsafe : (Trap.sysCall old).request.Fatal (s.data.trap p) → s.core.KillSafe p)
    (hfree : ∀ x ∈ s.lists.q .free, g x = .none) (hs : s.HasAreas g) :
    (sysCallHandler (n := n)).wp NucOp.spec
      (fun _ s' => s'.HasAreas ((Trap.sysCall old).areasAfter (some p) g)) s := by
  have hp : p ∉ s.lists.q .free := (hcur ▸ hinv.ok : s.lists.Ok (some p)).cur_loose .free
  have hinv₁ : (s.called p old).core.Inv := hinv.save p old.afterCall
  refine wp_sysCallHandler_cases hcur hold (fun hsys => ?_) (fun hsys hpriv => ?_)
    fun hsys huser => ?_
  · simp only [Trap.request, if_pos hsys] at hsafe
    -- other calls than SYS5 keep the areas
    have hother : SysCall.ofNum (old.sReg sA1) ≠ some .sesv →
        (Trap.sysCall old).areasAfter (some p) g = g := fun hne =>
      Trap.areasAfter_of_none (by simp [Trap.sesvCall, hne]) _ _
    cases hcallNum : SysCall.ofNum (old.sReg sA1) with
    | none =>
      rw [hcallNum] at hsafe hother
      rw [hother (by simp)]
      exact wp_keepsAreas (KeepsAreas.passUpOrDie .sysTrap) hs
        (wp_passUpOrDie .sysTrap hinv₁ hcur hsafe)
    | some call =>
      rw [hcallNum] at hsafe hother
      by_cases hsesv : call = .sesv
      · subst hsesv
        have hk : (Trap.sysCall old).sesvCall =
            some ⟨old.sReg sA2, (old.sReg sA3).toNat, (old.sReg sA4).toNat⟩ :=
          if_pos ⟨hsys, hcallNum⟩
        have ha : (s.called p old).sysCallOld = old.afterCall := rfl
        simp only [serve, sysFiveHandle, Prog.wp_bind, wp_globals, ha]
        rw [old.afterCall_sReg (by decide), Trap.areasAfter_self hk, ← hs p hp]
        refine wp_sysFiveFrom_areas (s := s.called p old) (k := ⟨_, _, _⟩) hinv₁ hcur ?_ ?_ hsafe hs
        · rw [ha, old.afterCall_sReg (by decide)]
        · rw [ha, old.afterCall_sReg (by decide)]
      · rw [hother (by simpa using hsesv)]
        by_cases hcreate : call = .createProcess
        · subst hcreate
          exact wp_createProcess_areas (s := s.called p old) hinv₁ hcur hfree hs
        · have hkeeps : (serve p (some call)).Only NucOp.KeepsAreas :=
            KeepsAreas.serve p (by simpa using hcreate) (by simpa using hsesv)
          exact wp_keepsAreas hkeeps hs (wp_serve call hinv₁ hcur rfl hsafe)
  · have hk : (Trap.sysCall old).sesvCall = none := if_neg fun h => hsys h.1
    simp only [Trap.request, if_neg hsys, if_pos hpriv] at hsafe
    rw [Trap.areasAfter_of_none hk]
    exact wp_keepsAreas (KeepsAreas.passUpOrDie .progTrap) hs
      (wp_passUpOrDie (s := s.calledAsTrap p old) .progTrap hinv₁ hcur hsafe)
  · have hk : (Trap.sysCall old).sesvCall = none := if_neg fun h => hsys h.1
    simp only [Trap.request, if_neg hsys, if_neg huser] at hsafe
    rw [Trap.areasAfter_of_none hk]
    exact wp_keepsAreas (KeepsAreas.passUpOrDie .sysTrap) hs
      (wp_passUpOrDie .sysTrap hinv₁ hcur hsafe)

/-- The areas that a trap and the scheduler leave behind. -/
theorem wp_react_areas (t : Trap) (todIn todOut : ℤ) (hinv : s.core.Inv)
    (hcaller : t.HasCaller s.core)
    (hsafe : ∀ p, s.core.cur = some p → t.request.Fatal (s.data.trap p) → s.core.KillSafe p)
    (hfree : ∀ x ∈ s.lists.q .free, g x = .none) (hs : s.HasAreas g) :
    (t.react todIn todOut).wp NucOp.spec
      (fun _ s' => s'.HasAreas (t.areasAfter s.currentProcess g)) s := by
  -- the scheduler keeps the areas
  rw [Trap.react, Prog.wp_bind]
  refine Prog.wp_mono NucOp.spec_mono (Q := fun _ s₁ =>
    s₁.HasAreas (t.areasAfter s.currentProcess g)) (fun exit s₁ hs₁ => ?_) ?_
  · rw [Prog.wp_bind]
    exact wp_keepsAreas (KeepsAreas.finish exit) hs₁ (wp_finish exit)
  simp only [Trap.handle, Prog.wp_bind, wp_modifyGlobals, wp_modifyClock]
  generalize hg : Abs.setGlobals (s.setGlobals _) _ = s₁
  have hcore : s₁.core = s.core := by
    subst hg
    cases t <;> rfl
  have hcur : s₁.currentProcess = s.currentProcess := congrArg Core.cur hcore
  have hs₁ : s₁.HasAreas g := by
    subst hg
    exact hs
  have htrap : s₁.data.trap = s.data.trap := by rw [← hg]; rfl
  have hlists : s₁.lists = s.lists := congrArg Core.lists hcore
  rw [← hcore] at hinv hcaller hsafe
  rw [← htrap] at hsafe
  rw [← hlists] at hfree
  rw [← hcur]
  cases t with
  | sysCall old =>
    obtain ⟨p, hp⟩ := Option.isSome_iff_exists.mp hcaller
    have hp' : s₁.currentProcess = some p := hp
    rw [hp']
    exact wp_sysCallHandler_areas hinv hp (by rw [← hg]; rfl) (hsafe p hp) hfree hs₁
  | progTrap old =>
    obtain ⟨p, hp⟩ := Option.isSome_iff_exists.mp hcaller
    rw [Trap.areasAfter_of_none rfl]
    exact wp_keepsAreas (KeepsAreas.passUpOrDie .progTrap) hs₁
      (wp_passUpOrDie .progTrap hinv hp (hsafe p hp))
  | tlbTrap old =>
    obtain ⟨p, hp⟩ := Option.isSome_iff_exists.mp hcaller
    rw [Trap.areasAfter_of_none rfl]
    exact wp_keepsAreas (KeepsAreas.passUpOrDie .tlbTrap) hs₁
      (wp_passUpOrDie .tlbTrap hinv hp (hsafe p hp))
  | interrupt old bitmap devReg =>
    rw [Trap.areasAfter_of_none rfl]
    exact wp_keepsAreas KeepsAreas.interruptHandler hs₁ (wp_interruptHandler hinv rfl rfl rfl)

/-- The first process has no areas. -/
theorem wp_main_areas (b : Boot n) (hlists : s.lists = Lists.booted b.tables.pSemAdd) :
    b.main.wp NucOp.spec (fun _ s' => s'.HasAreas fun _ => .none) s := by
  have hok := Lists.booted_ok b.tables.pSemAdd
  rw [← hlists] at hok
  have hall : ∀ x, x ∈ s.lists.q .free := fun x => by simp [hlists, Lists.booted]
  rw [Boot.main, Prog.wp_bind]
  refine Prog.wp_mono NucOp.spec_mono (Q := fun _ s₁ => s₁.HasAreas fun _ => .none)
    (fun exit s₁ hs₁ => wp_keepsAreas (KeepsAreas.finish exit) hs₁ (wp_finish exit)) ?_
  simp only [Boot.prepare, Prog.wp_bind, wp_modifyGlobals, wp_modifyClock, Abs.setGlobals_globals]
  rw [wp_allocPcb]
  refine ⟨fun hnil => ?_, fun p ps (hcons : s.lists.q .free = p :: ps) => ?_⟩
  · intro x hx
    exact absurd (hall x) hx
  · have hloose : (s.lists.setQ .free ps).Loose p := (hok.placed.pop hcons).loose p (by simp)
    refine ⟨hok.free p (by simp [hcons]), ?_⟩
    simp only [Prog.wp_bind, wp_modifyGlobals, wp_modifyClock, wp_setState, wp_globals, wp_setTIMER,
      wp_insertReady, Prog.wp_pure]
    refine ⟨hloose, fun x hx => ?_⟩
    -- the only PCB in use is the one that has been washed
    have hx : x ∉ ps := by simpa using hx
    obtain rfl : x = p := by
      have hmem := hall x
      rw [hcons] at hmem
      exact (List.mem_cons.mp hmem).resolve_right hx
    exact Function.update_self ..

end

/-! ## The areas and the machine -/

variable [Layout]

omit [Layout] in
/-- The areas of the PCBs; a free PCB has none. -/
def Store.areas (st : Store n) (p : Fin n) : TrapAreas :=
  if p ∈ st.freeList then .none else st.trap p

/-- What a trap does to the areas of the PCBs in use. -/
theorem Config.Sound.areas (hn : n ≤ maxProc) {c c' : Config n} {t : Trap} {todIn todOut : ℤ}
    (h : c.Sound) (hsafe : c.KillSafe (.trap t todIn todOut))
    (hstep : c.step (.trap t todIn todOut) = some c') :
    c'.nuc.abs.HasAreas (t.areasAfter c.nuc.currentProcess c.nuc.store.areas) := by
  have henabled : t.Enabled c.mode := by
    by_contra hnot
    simp [Config.step, hnot] at hstep
  have hfree : ∀ x ∈ c.nuc.abs.lists.q .free, c.nuc.store.areas x = .none := fun x hx => if_pos hx
  have hareas : c.nuc.abs.HasAreas c.nuc.store.areas := fun x hx => (if_neg hx).symm
  obtain ⟨r, nuc', s', hrun, hrep, hafter⟩ := nucleus_sound hn h.rep
    (wp_react_areas t todIn todOut h.inv (h.hasCaller henabled) hsafe hfree hareas)
  obtain rfl := hrep.abs_eq
  have hreact : c.react t todIn todOut = some (r, nuc') := hrun
  rw [Config.step, if_pos henabled, hreact] at hstep
  obtain rfl := Option.some.inj hstep
  exact hafter

/-- When the first process is dispatched, it has no areas. -/
theorem Boot.areas (hn : n ≤ maxProc) {b : Boot n} {c : Config n} (hb : b.config = some c) :
    c.nuc.abs.HasAreas fun _ => .none :=
  (Boot.config_of_wp hn (Q := fun _ s => s.HasAreas fun _ => .none)
    (fun _ _ hlists => wp_main_areas b hlists) hb).2

end Jaeos
