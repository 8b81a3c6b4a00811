import Jaeos.Lib.Guarded
import Jaeos.Support.Mutexes
import Jaeos.Support.Routines

/-!
# Frames are replaced in turn

`nextFrame` is one variable for all user processes, which take page faults in any order, also
within other handlers. It is read and written under `swapSem`, and so no fault is given the frame
of another one: the frames are chosen round and round, first in, first out.
-/

namespace Jaeos

/-- What the operations do with `swapSem` and `nextFrame`. -/
def SupOp.frameAccess : ∀ β, SupOp β → Access ℕ β
  | _, .passeren s => if s = .swapSem then .acquire else .other
  | _, .verhogen s => if s = .swapSem then .release else .other
  | _, .nextFrame => .read id
  | _, .setNextFrame v => .write v
  | _, _ => .other

theorem SupOp.Plain.frameAccess {β : Type} {o : SupOp β} (h : SupOp.Plain β o) :
    SupOp.frameAccess β o = .other := by
  cases o with
  | passeren s => exact if_neg h.1
  | verhogen s => exact if_neg h.1
  | nextFrame => exact h.elim
  | setNextFrame v => exact h.elim
  | _ => rfl

variable [Support]

/-- `nextFrame`, and the user processes. -/
def frames : Guarded SupOp ℤ ℕ Outcome where
  access := SupOp.frameAccess
  next := mutexes.next

namespace Frames

/-- The states of `nextFrame` and the user processes. -/
abbrev Config : Type 1 := Guarded.Config SupOp ℤ ℕ Outcome

/-- `swapSem` is free, no frame has been chosen, and the user processes are in front of
`uProcInit`. -/
structure Starts (c : Config) : Prop where
  /-- `swapSem` is free -/
  holder : c.holder = none
  /-- `nextFrame` -/
  value : c.value = 0
  /-- the user processes -/
  user : ∀ i, IsUser i → ∃ pc fuel, c.prog i = .ended <$> (uProcInit pc fuel).run
  /-- there are no others -/
  others : ∀ i, ¬ IsUser i → c.prog i = .ret (.ended (.error .terminated))

/-- The frame after this one. -/
def advance (n : ℕ) : ℕ := (n + 1) % Support.swapSize

/-- The contract of the operations. -/
abbrev turn : Prog.Contract SupOp (Guarded.Phase ℕ) := frames.spec advance

theorem turn_mono : Prog.Monotone turn := Guarded.spec_mono advance frames

section

variable {p : Guarded.Phase ℕ} {E : End → Guarded.Phase ℕ → Prop}

/-- An operation that uses neither `swapSem` nor `nextFrame`. -/
theorem turn_plain {β : Type} {o : SupOp β} {Q : β → Guarded.Phase ℕ → Prop}
    (ho : SupOp.Plain β o) (hQ : ∀ b, Q b p) : turn β o Q p := by
  rw [turn, Guarded.spec_other ho.frameAccess]
  exact hQ

theorem plain {β : Type} {o : SupOp β} {Q : β → Guarded.Phase ℕ → Prop} (ho : SupOp.Plain β o)
    (hQ : ∀ b, Q b p) : Prog.wpx turn (sup o) Q E p := turn_plain ho hQ

/-- A process that holds `swapSem` does not come back from SYS4 on it. -/
theorem lock {Q : Unit → Guarded.Phase ℕ → Prop} (hQ : p = .out → Q () .held) :
    Prog.wpx turn (sup (.passeren .swapSem)) Q E p := by
  have ho : SupOp.frameAccess Unit (.passeren .swapSem) = .acquire := rfl
  rw [wpx_sup, turn, Guarded.spec_acquire ho]
  exact fun hp _ => hQ hp

theorem unlock {Q : Unit → Guarded.Phase ℕ → Prop} (hp : p ≠ .out) (hQ : Q () .out) :
    Prog.wpx turn (sup (.verhogen .swapSem)) Q E p := by
  have ho : SupOp.frameAccess Unit (.verhogen .swapSem) = .release := rfl
  rw [wpx_sup, turn, Guarded.spec_release ho]
  exact ⟨hp, fun _ => hQ⟩

/-- How a program ends that began in this phase: in the same one, unless the machine stops or the
program is not followed any further. -/
def Ends (p : Guarded.Phase ℕ) (e : End) (q : Guarded.Phase ℕ) : Prop :=
  ¬ (Outcome.ended (.error e)).IsLost → q = p

/-- A part of a section under `swapSem`. -/
theorem inside {β : Type} {m : SupM β} {Q : β → Guarded.Phase ℕ → Prop} {q : Guarded.Phase ℕ}
    (hm : Prog.Built SupOp.Plain (fun e => (Outcome.ended (.error e)).IsLost) (fun _ _ => False) m)
    (hQ : ∀ b, Q b p) : Prog.wpx turn m Q (Ends q) p := by
  have hkeep : Prog.wpx turn m (fun _ r => r = p) (Ends q) p := by
    refine hm.wpx (I := (· = p)) turn_mono ?_ ?_ (fun _ _ _ h => h.elim) rfl
    · rintro β o r ho rfl
      exact turn_plain ho fun _ => rfl
    · rintro e r he -
      exact fun hne => absurd he hne
  refine Prog.wpx_mono turn_mono (fun b r hr => ?_) (fun _ _ h => h) hkeep
  subst hr
  exact hQ b

theorem setInterrupts {onOff : Bool} {Q : Unit → Guarded.Phase ℕ → Prop} {q : Guarded.Phase ℕ}
    (hQ : Q () p) : Prog.wpx turn (enableInterrupts onOff) Q (Ends q) p :=
  inside (Routine.enableInterrupts_made onOff) fun _ => hQ

/-- `virtualDeath` gives `swapSem` back. -/
theorem virtualDeath_turn {α : Type} (procID : ℤ) :
    Prog.wpx turn (virtualDeath procID : SupM α) (fun _ _ => False) (Ends p) p := by
  simp only [virtualDeath, Prog.wpx_bind]
  apply lock
  rintro rfl
  have hend : Prog.wpx turn (do
      enableInterrupts true
      sup (.verhogen .swapSem)
      sup (.verhogen .masterSem)
      throw .terminated : SupM α) (fun _ _ => False) (Ends .out) .held := by
    simp only [Prog.wpx_bind]
    apply setInterrupts
    refine unlock (by simp) ?_
    -- `masterSem` is not `swapSem`
    have ho : SupOp.frameAccess Unit (.verhogen .masterSem) = .other := rfl
    rw [wpx_sup, turn, Guarded.spec_other ho]
    exact fun _ _ => rfl
  simp only [Prog.wpx_bind] at hend
  apply setInterrupts
  apply inside (Routine.invalidateFrames_made trivial _ _ _ _)
  intro modified
  split
  · rw [Prog.wpx_bind]
    exact plain trivial fun _ => hend
  · exact hend

/-- A program that is built from plain operations and `virtualDeath` ends as it began. -/
theorem made_turn {β : Type} {m : SupM β} (hm : Routine.Made Deadly m) :
    Prog.wpx turn m (fun _ q => q = p) (Ends p) p := by
  refine hm.wpx (I := (· = p)) turn_mono ?_ ?_ ?_ rfl
  · rintro β o q ho rfl
    exact turn_plain ho fun _ => rfl
  · rintro e q - rfl
    exact fun _ => rfl
  · rintro β m q ⟨procID, rfl⟩ rfl
    exact virtualDeath_turn procID

/-- A program that has ended does not hold `swapSem`, unless it is lost. -/
def Rests (a : Outcome) (q : Guarded.Phase ℕ) : Prop := ¬ a.IsLost → q = .out

/-- What a program leaves behind that ends as it began. -/
theorem ended {m : SupM Unit}
    (h : Prog.wpx turn m (fun _ q => q = .out) (Ends .out) .out) :
    m.run.wp turn (fun r => Rests (.ended r)) .out := by
  refine Prog.wp_mono turn_mono (fun r q hr => ?_) h
  rcases r with (e | _)
  · exact hr
  · exact fun _ => hr

/-! ## Every run -/

theorem Starts.begins {c : Config} (h : Starts c) : Guarded.Guards advance frames Rests c := by
  refine fun i => ⟨.out, ?_, iff_of_false (fun hne => hne rfl) (by simp [h.holder]), nofun⟩
  by_cases hi : IsUser i
  · obtain ⟨pc, fuel, hprog⟩ := h.user i hi
    rw [hprog, Prog.wp_map]
    exact ended (made_turn (Routine.uProcInit_made pc fuel))
  · rw [h.others i hi]
    exact fun _ => rfl

end

/-! ## A run -/

/-- The user processes in front of `uProcInit`, which reads one block. -/
def tapes : Config where
  prog i := if IsUser i then .ended <$> (uProcInit (fun _ => 0) 1).run else
    .ret (.ended (.error .terminated))
  holder := none
  value := 0

end Frames

end Jaeos
