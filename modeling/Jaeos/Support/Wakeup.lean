import Jaeos.Support.Pairs
import Jaeos.Support.Waiters

/-!
# Whom a SYS11 wakes

A SYS11 that leaves a semaphore word that is not positive asks `vRemoveBlocked` for a process to
wake up. The word belongs to the user, so there may be none. `vRemoveBlocked` says so with
`FALSE`, and the handler asks for `FAILURE`: it goes on with the place in front of `uProcs`.
-/

namespace Jaeos

variable [Support]

/-- What an observer of a SYS11 knows. -/
structure Wakeup where
  /-- the words of memory -/
  mem : Word → Word
  /-- the data of `avsl.c` -/
  avsl : Avsl
  /-- the `procID` of each V on `uProcs[procID - 1].Tp_sem`, oldest first -/
  woken : List ℤ

namespace Wakeup

omit [Support] in
/-- The results that operations can have. Those of the nucleus and of the pager are free. -/
def law (p : Caller) : ∀ β, SupOp β → β → Wakeup → Prop
  | _, .getEntryHi, b, _ => asid b = p.procID
  | _, .readOld procID type r, b, _ => procID = p.procID → type = .sysTrap → b = p.regs r
  | _, .loadWord a, b, w => b = w.mem a
  | _, .vRemoveBlocked v, b, w => ∃ a', (vRemoveBlocked v).run w.avsl = some (b, a')
  | _, _, _, _ => True

omit [Support] in
/-- What the observer knows after an operation. -/
def see : ∀ β, SupOp β → β → Wakeup → Wakeup
  | _, .storeWord a v, _, w => { w with mem := Function.update w.mem a v }
  | _, .vRemoveBlocked v, _, w =>
    match (vRemoveBlocked v).run w.avsl with
    | none => w
    | some (_, a') => { w with avsl := a' }
  | _, .verhogen (.tpSem procID), _, w => { w with woken := w.woken ++ [procID] }
  | _, _, _, w => w

omit [Support] in
theorem see_storeWord_self (w : Wakeup) (a v : Word) :
    (see _ (.storeWord a v) () w).mem a = v := Function.update_self ..

omit [Support] in
theorem see_vRemoveBlocked {w : Wakeup} {v : Word} {b q : ℤ} {a' : Avsl}
    (h : (vRemoveBlocked v).run w.avsl = some (b, a')) :
    see _ (.vRemoveBlocked v) q w = { w with avsl := a' } := by
  change (match (vRemoveBlocked v).run w.avsl with
    | none => w
    | some (_, a') => { w with avsl := a' }) = _
  rw [h]

/-- Either one process is woken up, and it waits for `v`; or nobody waits for `v`, nobody is
woken up, and the caller terminates. Each process woken up has a place in `uProcs`. -/
def OnlyWaiting (es : List (Word × ℤ)) (v : Word) (w : Wakeup) (tr : List (Prog.Event SupOp))
    (r : Except End Unit) : Prop :=
  ((∃ q, (v, q) ∈ es ∧ (Prog.notes see w tr).woken = [q]) ∨
    (∀ e ∈ es, e.1 ≠ v) ∧ (Prog.notes see w tr).woken = [] ∧ r = .error .terminated) ∧
  ∀ q ∈ (Prog.notes see w tr).woken, IsUser q

end Wakeup

variable {a : Avsl} {es : List (Word × ℤ)} {v : Word} {p : Caller} {mem : Word → Word}

omit [Support] in
/-- What `vRemoveBlocked` returns, also when it takes out the head. -/
theorem Avsl.Holds.remove_result (h : a.Holds es) (v : Word) :
    ∃ a', (vRemoveBlocked v).run a = some ((AvslCall.vRemoveBlocked v).result es, a') := by
  by_cases hc : (AvslCall.vRemoveBlocked v).SparesHead es
  · obtain ⟨a', hrun, -⟩ := (h.refines_iff _).mpr hc
    exact ⟨a', hrun⟩
  · obtain ⟨q, e, es', rfl⟩ : ∃ q e es', es = (v, q) :: e :: es' := by
      by_contra hnot
      exact hc fun q e es' heq => hnot ⟨q, e, es', heq⟩
    obtain ⟨a', hrun, -⟩ := h.not_holds_of_head
    refine ⟨a', ?_⟩
    rw [hrun]
    simp [AvslCall.result]

omit [Support] in
/-- The result is a process that waits, or `FALSE`. -/
theorem AvslCall.result_cases (es : List (Word × ℤ)) (v : Word) :
    (v, (AvslCall.vRemoveBlocked v).result es) ∈ es ∨
    (∀ e ∈ es, e.1 ≠ v) ∧ (AvslCall.vRemoveBlocked v).result es = 0 := by
  cases hfind : es.find? fun e => e.1 = v with
  | none =>
    right
    refine ⟨?_, ?_⟩
    · simpa using hfind
    · simp [AvslCall.result, hfind]
  | some e =>
    left
    obtain rfl : e.1 = v := by simpa using List.find?_some hfind
    have he := List.mem_of_find?_eq_some hfind
    simp only [AvslCall.result, hfind]
    exact he

/-! ## The handler -/

section

variable {spec : Prog.Contract SupOp Wakeup} {Q : Unit → Wakeup → Prop} {E : End → Wakeup → Prop}
  {w : Wakeup} {fuel : ℕ} {q : ℤ}

/-- What a SYS11 does that does not leave the word positive, if the list answers with `q`, whether
all results that the law allows are looked at or one. -/
theorem vmSysHandler_wakes (hnum : (p.regs sA1).toInt = 11)
    (hle : (w.mem (p.regs sA2) + 1).toInt ≤ 0) (hq : q ≠ -1)
    (hasid : ∀ {Q w}, (∀ b, asid b = p.procID → Q b w) → spec Word .getEntryHi Q w)
    (hregs : ∀ {r Q w}, Q (p.regs r) w → spec Word (.readOld p.procID .sysTrap r) Q w)
    (hload : ∀ {a Q w}, Q (w.mem a) w → spec Word (.loadWord a) Q w)
    (hstore : ∀ {a x Q w}, Q () (Wakeup.see _ (.storeWord a x) () w) →
      spec Unit (.storeWord a x) Q w)
    (hremove : ∀ {Q : ℤ → Wakeup → Prop} {w' : Wakeup}, w'.avsl = w.avsl →
      (∀ a', Q q { w' with avsl := a' }) → spec ℤ (.vRemoveBlocked (p.regs sA2)) Q w')
    (hverhogen : ∀ {Q w}, Q () (Wakeup.see _ (.verhogen (.tpSem q)) () w) →
      spec Unit (.verhogen (.tpSem q)) Q w)
    (h : ∀ w' : Wakeup, w'.woken = w.woken ++ [q] → E (.ldst p.procID .sysTrap) w') :
    Prog.wpx spec (vmSysHandler fuel) Q E w := by
  refine Caller.handler hasid hregs ?_
  rw [service_eleven hnum]
  simp only [vSemVirt, Prog.wpx_bind, wpx_sup]
  apply hload
  apply hstore
  apply hload
  have hupdate : ((Wakeup.see _ (.storeWord (p.regs sA2) (w.mem (p.regs sA2) + 1)) () w).mem
      (p.regs sA2)).toInt ≤ 0 := by
    rwa [Wakeup.see_storeWord_self]
  rw [Prog.wpx_ite, if_pos hupdate]
  simp only [Prog.wpx_bind, wpx_sup]
  refine hremove rfl fun a' => ?_
  rw [Prog.wpx_ite, if_neg hq]
  apply hverhogen
  exact h _ rfl

/-- Every trace of a SYS11 that does not leave the word positive wakes up what the list answers
with, and there is one. -/
theorem vmSysHandler_wakes_result (hholds : w.avsl.Holds es) (husers : ∀ e ∈ es, IsUser e.2)
    (h0 : 0 ≤ p.procID) (h64 : p.procID < 64) (hnum : (p.regs sA1).toInt = 11)
    (hle : (w.mem (p.regs sA2) + 1).toInt ≤ 0) (fuel : ℕ) :
    (∃ tr r, (vmSysHandler fuel).run.Trace tr r ∧ Prog.Along (Wakeup.law p) Wakeup.see w tr) ∧
    ∀ tr r, (vmSysHandler fuel).run.Trace tr r → Prog.Along (Wakeup.law p) Wakeup.see w tr →
      (Prog.notes Wakeup.see w tr).woken =
        w.woken ++ [(AvslCall.vRemoveBlocked (p.regs sA2)).result es] ∧
      r = .error (.ldst p.procID .sysTrap) := by
  obtain ⟨q, hq⟩ : ∃ q, q = (AvslCall.vRemoveBlocked (p.regs sA2)).result es := ⟨_, rfl⟩
  have hne : q ≠ -1 := by
    rcases AvslCall.result_cases es (p.regs sA2) with hmem | ⟨-, h⟩
    · have := (husers _ hmem).1
      rw [← hq] at this
      intro h
      omega
    · rw [hq, h]
      decide
  obtain ⟨a', hrun⟩ := hholds.remove_result (p.regs sA2)
  rw [← hq] at hrun ⊢
  constructor
  · have hwp : Prog.wpx (Prog.possible (Wakeup.law p) Wakeup.see) (vmSysHandler fuel)
        (fun _ _ => True) (fun _ _ => True) w := by
      refine vmSysHandler_wakes hnum hle hne ?_ ?_ ?_ ?_ ?_ ?_ fun _ _ => trivial
      · exact fun h => ⟨_, asid_word h0 h64, h _ (asid_word h0 h64)⟩
      · exact fun h => ⟨_, fun _ _ => rfl, h⟩
      · exact fun h => ⟨_, rfl, h⟩
      · exact fun h => ⟨_, trivial, h⟩
      · intro Q w' hw' h
        have hrun' : (vRemoveBlocked (p.regs sA2)).run w'.avsl = some (q, a') := hw' ▸ hrun
        refine ⟨q, ⟨a', hrun'⟩, ?_⟩
        rw [Wakeup.see_vRemoveBlocked hrun']
        exact h a'
      · exact fun h => ⟨_, trivial, h⟩
    obtain ⟨tr, r, htr, hlaw, -⟩ := Prog.exists_trace hwp
    exact ⟨tr, r, htr, hlaw⟩
  · intro tr r htr hlaw
    have hwp : Prog.wpx (Prog.tracked (Wakeup.law p) (fun _ _ _ _ => True) Wakeup.see)
        (vmSysHandler fuel) (fun _ _ => False)
        (fun e w' => w'.woken = w.woken ++ [q] ∧ e = .ldst p.procID .sysTrap) w := by
      refine vmSysHandler_wakes hnum hle hne ?_ ?_ ?_ ?_ ?_ ?_ fun _ h => ⟨h, rfl⟩
      · exact fun h b hb => ⟨trivial, h b hb⟩
      · exact fun h b hb => ⟨trivial, hb rfl rfl ▸ h⟩
      · exact fun h b hb => ⟨trivial, hb ▸ h⟩
      · exact fun h b _ => ⟨trivial, h⟩
      · rintro Q w' hw' h b ⟨a₁, hb⟩
        obtain ⟨rfl, -⟩ := Prod.mk.inj (Option.some.inj ((hw' ▸ hrun).symm.trans hb))
        refine ⟨trivial, ?_⟩
        rw [Wakeup.see_vRemoveBlocked hb]
        exact h a₁
      · exact fun h b _ => ⟨trivial, h⟩
    have hend := (Prog.of_tracked hwp htr hlaw).2
    cases r with
    | ok u => exact hend.elim
    | error e => exact ⟨hend.1, congrArg Except.error hend.2⟩

end

/-- A SYS11 that does not leave the word positive behaves well exactly when somebody waits for it,
after any sequence of calls of `avsl.c` for user processes that spare the head. -/
theorem wakes_only_waiting (hrun : AvslRun a es) (husers : ∀ e ∈ es, IsUser e.2)
    (h0 : 0 ≤ p.procID) (h64 : p.procID < 64) (hnum : (p.regs sA1).toInt = 11)
    (hle : (mem (p.regs sA2) + 1).toInt ≤ 0) (fuel : ℕ) :
    (∃ tr r, (vmSysHandler fuel).run.Trace tr r ∧
      Prog.Along (Wakeup.law p) Wakeup.see ⟨mem, a, []⟩ tr) ∧
    ((∀ tr r, (vmSysHandler fuel).run.Trace tr r →
      Prog.Along (Wakeup.law p) Wakeup.see ⟨mem, a, []⟩ tr →
        Wakeup.OnlyWaiting es (p.regs sA2) ⟨mem, a, []⟩ tr r) ↔ ∃ q, (p.regs sA2, q) ∈ es) := by
  obtain ⟨⟨tr, r, htr, hlaw⟩, hall⟩ := vmSysHandler_wakes_result (w := ⟨mem, a, []⟩) hrun.holds
    husers h0 h64 hnum hle fuel
  refine ⟨⟨tr, r, htr, hlaw⟩, fun hgood => ?_, ?_⟩
  · rcases AvslCall.result_cases es (p.regs sA2) with hmem | ⟨-, hfalse⟩
    · exact ⟨_, hmem⟩
    · -- the process that is not there is woken up
      obtain ⟨hwoken, -⟩ := hall tr r htr hlaw
      rw [hfalse] at hwoken
      have h1 := (hgood tr r htr hlaw).2 0 (by rw [hwoken]; simp)
      exact absurd h1.1 (by decide)
  · rintro ⟨q, hq⟩ tr r htr hlaw
    obtain ⟨hwoken, -⟩ := hall tr r htr hlaw
    rcases AvslCall.result_cases es (p.regs sA2) with hmem | ⟨hnone, -⟩
    · refine ⟨.inl ⟨_, hmem, hwoken⟩, fun x hx => ?_⟩
      rw [hwoken] at hx
      obtain rfl : x = _ := by simpa using hx
      exact husers _ hmem
    · exact absurd rfl (hnone _ hq)

omit [Support] in
/-- The first of two waiting processes is woken up. -/
theorem wakes_only_waiting_two : ∃ (_ : Support) (a : Avsl) (tr : List (Prog.Event SupOp))
    (r : Except End Unit), (vmSysHandler 0).run.Trace tr r ∧
      Wakeup.OnlyWaiting [(8, 1), (16, 2)] 8 ⟨fun _ => -1, a, []⟩ tr r := by
  let _ := threeUsers
  obtain ⟨a, hrun⟩ := exists_avslRun
  obtain ⟨mem, hmem⟩ : ∃ mem : Word → Word, mem = fun _ => -1 := ⟨_, rfl⟩
  have hle : (mem 8 + 1).toInt ≤ 0 := by rw [hmem]; decide
  obtain ⟨⟨tr, r, htr, hlaw⟩, hiff⟩ := wakes_only_waiting
    (p := ⟨3, fun r => if r = sA1 then 11 else 8⟩) hrun (by decide) (by decide) (by decide)
    (by decide) hle 0
  subst hmem
  exact ⟨threeUsers, a, tr, r, htr, hiff.mpr ⟨1, by decide⟩ tr r htr hlaw⟩

omit [Support] in
/-- Nobody waits, and the place in front of `uProcs` gets a V. -/
theorem wakes_only_waiting_fails : ¬ ∀ (_ : Support) (a : Avsl) (es : List (Word × ℤ)) (p : Caller)
    (mem : Word → Word) (tr : List (Prog.Event SupOp)) (r : Except End Unit), AvslRun a es →
      (∀ e ∈ es, IsUser e.2) → (p.regs sA1).toInt = 11 → (mem (p.regs sA2) + 1).toInt ≤ 0 →
        (vmSysHandler 0).run.Trace tr r → Prog.Along (Wakeup.law p) Wakeup.see ⟨mem, a, []⟩ tr →
          Wakeup.OnlyWaiting es (p.regs sA2) ⟨mem, a, []⟩ tr r := by
  intro hall
  let _ := threeUsers
  obtain ⟨a, -, hinit, -⟩ := initAVSL_run ⟨fun _ => none, fun _ => none, fun _ => 0, fun _ => 0,
    none, none⟩
  have hrun := AvslRun.init hinit
  have hle : ((-1 : Word) + 1).toInt ≤ 0 := by decide
  obtain ⟨⟨tr, r, htr, hlaw⟩, hresult⟩ := vmSysHandler_wakes_result (w := ⟨fun _ => -1, a, []⟩)
    (p := ⟨3, fun r => if r = sA1 then 11 else 8⟩) hrun.holds (by decide) (by decide) (by decide)
    (by decide) hle 0
  obtain ⟨hwoken, -⟩ := hresult tr r htr hlaw
  have hgood := hall threeUsers a [] ⟨3, fun r => if r = sA1 then 11 else 8⟩ (fun _ => -1) tr r hrun
    (by decide) (by decide) (by decide) htr hlaw
  have h1 := hgood.2 0 (by rw [hwoken]; exact List.mem_singleton.mpr rfl)
  exact absurd h1.1 (by decide)

end Jaeos
