import Jaeos.Support.InitProc

/-!
# What the routines are built from

Most routines of the support level use neither `swapSem` nor `masterSem` nor `nextFrame`, unless
they call `virtualDeath`. What the other operations and `virtualDeath` keep, the routines keep
(`Prog.Built.wpx`). Only the handler of page faults takes `swapSem` itself.
-/

namespace Jaeos

variable [Support]

omit [Support] in
/-- The operation uses neither `swapSem` nor `masterSem` nor `nextFrame`. -/
def SupOp.Plain : ∀ β, SupOp β → Prop
  | _, .passeren s | _, .verhogen s => s ≠ .swapSem ∧ s ≠ .masterSem
  | _, .nextFrame | _, .setNextFrame _ => False
  | _, _ => True

/-- `virtualDeath` of some process. -/
def Deadly (β : Type) (m : SupM β) : Prop := ∃ procID, m = virtualDeath procID

/-- The program is built from plain operations and from programs that do not come back. -/
abbrev Routine.Made (stops : ∀ β, SupM β → Prop) {α : Type} (m : SupM α) : Prop :=
  Prog.Built SupOp.Plain (· ≠ .terminated) stops m

namespace Routine

/-! ## Routines without `virtualDeath` -/

section

omit [Support]

variable {stops : ∀ β, SupM β → Prop} {ends : End → Prop}

theorem enableInterrupts_made (onOff : Bool) :
    Prog.Built SupOp.Plain ends stops (enableInterrupts onOff) :=
  .step trivial fun _ => .op trivial

theorem invalidateFrames_made (hends : ends .stuck) (procID : ℤ) (k i : ℕ) (m : Bool) :
    Prog.Built SupOp.Plain ends stops (invalidateFrames procID k i m) := by
  induction k generalizing i m with
  | zero => exact .ret m
  | succ k ih =>
    apply Prog.Built.step trivial
    intro frame
    split
    · split
      · exact .fails hends
      · exact .step trivial fun _ => .step trivial fun _ => .step trivial fun _ => ih _ _
    · exact ih _ _

/-- A mutex is taken before a program. -/
theorem made_between {α : Type} {m : SupM α} {f : α → SupM Unit} {i : ℤ} (hm : Made stops m)
    (hf : ∀ a, Made stops (f a)) :
    Made stops (do sup (.passeren (.mutexSemArray i)); let a ← m; f a) :=
  .step ⟨nofun, nofun⟩ fun _ => hm.andThen hf

theorem setUpTrap_made [Support] (pc : Handler → Word) (procID : ℤ) (type : TrapType) :
    Made stops (setUpTrap pc procID type) :=
  .step trivial fun _ => .step trivial fun _ => .step trivial fun _ => .step trivial fun _ =>
    .step trivial fun _ => .op trivial

theorem loadTape_made (procID : ℤ) (fuel : ℕ) (block : ℤ) :
    Made stops (loadTape procID fuel block) := by
  have hon : ∀ onOff, Made stops (enableInterrupts onOff) := enableInterrupts_made
  induction fuel generalizing block with
  | zero => exact .fails nofun
  | succ fuel ih =>
    have hrest : ∀ tapeStatus, Made stops (do
        sup (.verhogen (.mutexSemArray backingStore))
        let finished := (← sup (.readDev (tapeDev procID) .dData1)) ≠ eob
        if tapeStatus = ready ∧ ¬ finished then
          loadTape procID fuel (block + 1) : SupM Unit) := by
      intro tapeStatus
      refine .step ⟨nofun, nofun⟩ fun _ => .step trivial fun marker => ?_
      simp only
      split
      · exact ih _
      · exact .ret ()
    simp only [loadTape]
    apply (hon false).andThen
    intro _
    refine .step trivial fun _ => .step trivial fun _ => .step trivial fun _ => ?_
    refine (hon true).andThen fun _ => .step ⟨nofun, nofun⟩ fun _ => ?_
    refine (hon false).andThen fun _ => .step trivial fun _ => .step trivial fun status => ?_
    apply (hon true).andThen
    intro _
    split
    · refine .andThen ?_ fun _ => hrest _
      refine (hon false).andThen fun _ => .step trivial fun _ => .step trivial fun _ => ?_
      exact .step trivial fun _ => hon true
    · exact (Prog.Built.ret ()).andThen fun _ => hrest _

theorem uProcInit_made [Support] (pc : Handler → Word) (fuel : ℕ) :
    Made stops (uProcInit pc fuel) := by
  refine .step trivial fun entryHi => (setUpTrap_made _ _ _).andThen fun _ => ?_
  refine (setUpTrap_made _ _ _).andThen fun _ => (setUpTrap_made _ _ _).andThen fun _ => ?_
  refine made_between (loadTape_made _ _ _) fun _ => ?_
  exact .step ⟨nofun, nofun⟩ fun _ => .step trivial fun _ => .fails nofun

end

/-! ## Routines with `virtualDeath` -/

end Routine

end Jaeos
