import Jaeos.Support.DiskLoader

/-!
# Runs of the disks

The rules put together: a process keeps its promises in user mode and in its programs, whatever the
others do, and the proof begins with the processes in front of `uProcInit`.
-/

namespace Jaeos

namespace Disks

open Hardware

/-! ## The outline is a proof -/

section

variable [Support] {blocks : ℤ → Block → Page} {tapes : ℤ → List Page} {i : ℤ} {s s' : Disks}
  {x : Disks × Unit}

theorem wp_of_runs {m : SupM Unit} (h : Prog.wpx ((outline blocks tapes).spec i) m
    (fun b => (outline blocks tapes).post i (.ok b))
    (fun e => (outline blocks tapes).post i (.error e)) x) :
    m.run.wp ((outline blocks tapes).spec i) ((outline blocks tapes).post i) x := by
  refine Prog.wp_mono ((outline blocks tapes).spec_mono i) ?_ h
  rintro (e | b) y hy
  · exact hy
  · exact hy

/-- A program of a user that has no mutex may end in user mode. -/
theorem post_of_point (hi : IsUser i) {a : Except End Unit}
    (h : Point blocks i [] (HasTape tapes i) s) : (outline blocks tapes).post i a (s, ()) :=
  ⟨h.inv, fun _ => ⟨hi, fun m hm => absurd ((h.held m).mp hm) (by simp), h.own⟩⟩

omit [Support] in
/-- The trap of a call. -/
theorem rely_trap {j : ℤ} (hj : j ≠ i) (q : Request) : Rely j s (s.trap i q) :=
  { Rely.refl j s with
    old := by
      refine (Function.update_of_ne hj ..).trans ((Function.update_of_ne hj ..).trans ?_)
      exact (Function.update_of_ne hj ..).trans (Function.update_of_ne hj ..) }

omit [Support] in
theorem trap_asked (q : Request) : Asked q ((s.trap i q).old i) := by
  have h12 : sA1 ≠ sA2 ∧ sA1 ≠ sA3 ∧ sA1 ≠ sA4 ∧ sA2 ≠ sA3 ∧ sA2 ≠ sA4 ∧ sA3 ≠ sA4 := by decide
  obtain ⟨h12, h13, h14, h23, h24, h34⟩ := h12
  constructor <;> simp [trap, onto, setOld, setStatus, h12, h13, h14, h23, h24, h34]

/-- The outline is a proof about all interleavings. -/
theorem outline_sound (hmax : Support.maxUserProc ≤ 8) (blocks : ℤ → Block → Page)
    (tapes : ℤ → List Page) : (outline blocks tapes).Sound where
  refl i x := .refl i x.1
  trans _ _ _ _ := Rely.trans
  done i a x y h hr _ hmode := by
    obtain ⟨hi, hfree, htape⟩ := h hmode
    exact ⟨hi, fun m hm => hfree m ((hr.holder m).mpr hm),
      (HasTape.steady hi.1) htape hr⟩
  act i l a x p s' hinv hdone hfits hact := by
    change x.1.act i l a = some (p, s') at hact
    unfold act at hact
    split at hact
    · next hmode =>
      obtain ⟨hi, hfree, htape⟩ := hdone hmode
      have hpoint : Point blocks i [] (HasTape tapes i) x.1 :=
        ⟨hinv, fun m => iff_of_false (hfree m) (by simp), htape⟩
      cases l with
      | store b v =>
        simp only at hact
        split at hact
        · next hb =>
          obtain ⟨rfl, rfl⟩ := Prod.mk.inj (Option.some.inj hact)
          have hword : wordAt b 0 = b := by simp [wordAt]
          have hsame : Same x.1 (x.1.store i b v) := hword ▸ same_store hb 0
          have hrely : ∀ j, j ≠ i → Rely j x.1 (x.1.store i b v) := fun _ _ => .of_same hsame
          exact ⟨⟨htape, leavesBuffers hrely, hsame.leavesSpare⟩, (), hrely, post_of_point hi
            (hpoint.same (HasTape.steady hi.1) hsame)⟩
        · cases hact
      | call q =>
        simp only at hact
        split at hact
        · next hnum =>
          obtain ⟨rfl, rfl⟩ := Prod.mk.inj (Option.some.inj hact)
          have hrely : ∀ j, j ≠ i → Rely j x.1 (x.1.trap i q) := fun _ hj => rely_trap hj q
          have h8 : i ≤ 8 := by
            have := hi.2
            omega
          refine ⟨⟨htape, leavesBuffers hrely, fun _ _ _ => rfl⟩, (), hrely,
            wp_of_runs (runs_vmSysHandler hi.1 (by omega) hfits hnum
              (fun y hy => post_of_point hi hy) ?_)⟩
          exact ⟨hinv.of_hardware rfl fun _ _ _ _ => rfl, hpoint.held, trap_asked q, htape⟩
        · cases hact
    · cases hact

/-! ## The beginning -/

omit [Support] in
theorem inv_of_initial (hput : ∀ d n, s.put d n = none) :
    Inv s.blocks s := by
  intro d _ _ _ n _
  rw [Right, hput]
  rfl

/-- The proof begins with the processes in front of `uProcInit`. -/
theorem Initial.begins (hmax : Support.maxUserProc ≤ 8) (h : s.Initial)
    (hsize : ∀ i, IsUser i → (s.tape (tapeDev i)).length ≤ 2 ^ 16) (pc : Handler → Word)
    (fuel : ℤ → ℕ) :
    (outline s.blocks fun i => s.tape (tapeDev i)).Begins (s.configFor pc fuel) () := by
  have hinv := inv_of_initial h.put
  refine ⟨rfl, hinv, fun i => ?_, fun i => ?_⟩
  · simp only [configFor]
    split
    · rfl
    · rfl
  · simp only [configFor]
    split
    · next hi =>
      have h8 : i ≤ 8 := by
        have := hi.2
        omega
      refine wp_of_runs (runs_uProcInit hi.1 h8 pc (hsize i hi)
        (fun st y hy => post_of_point hi hy) ⟨hinv, fun m => ?_, rfl⟩)
      exact iff_of_false (by simp [h.holder m]) (by simp)
    · exact ⟨hinv, fun hmode => hmode.elim⟩

end

end Disks

end Jaeos
