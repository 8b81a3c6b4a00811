import Jaeos.Support.VmIo
import Mathlib.Tactic.IntervalCases

/-!
# The caller of a system call

`vmSysHandler` reads the number of its process and its registers, and does what
they ask for. Whatever the meaning of the operations is, if these reads give the
caller's number and registers, it is enough to look at `Caller.service`.
-/

namespace Jaeos

/-- There is an `EntryHi` for each process. -/
theorem asid_word {procID : ℤ} (h0 : 0 ≤ procID) (h64 : procID < 64) :
    asid (word procID <<< asidShift) = procID := by
  interval_cases procID <;> rfl

/-- The caller: its number and the registers in its old area. -/
structure Caller where
  /-- its number -/
  procID : ℤ
  /-- its registers -/
  regs : Fin stateRegNum → Word

namespace Caller

/-- What a call asks for. A `READTERMINAL` is followed for `fuel` characters. -/
def service [Support] (fuel : ℕ) (p : Caller) : SupM Unit :=
  match (p.regs sA1).toInt with
  | 9 => readTerminal fuel (p.regs sA2) p.procID
  | 10 => writeTerminal (p.regs sA2) (p.regs sA3).toInt p.procID
  | 11 => vSemVirt p.procID (p.regs sA2)
  | 12 => pSemVirt p.procID (p.regs sA2)
  | 13 => delay p.procID (p.regs sA2)
  | 14 => diskIo (p.regs sA2) (p.regs sA3) (p.regs sA4) writeBlk p.procID
  | 15 => diskIo (p.regs sA2) (p.regs sA3) (p.regs sA4) readBlk p.procID
  | 16 => writePrinter (p.regs sA1) (p.regs sA2).toInt p.procID
  | 17 => do sup (.writeOld p.procID .sysTrap sA1 (← sup .stck))
  | 18 => virtualDeath p.procID
  | _ => pure ()

/-- The handler serves its caller, and loads its state. -/
theorem handler [Support] {A : Type} {spec : Prog.Contract SupOp A} {p : Caller} {fuel : ℕ}
    {Q : Unit → A → Prop} {E : End → A → Prop} {s : A}
    (hasid : ∀ {Q s}, (∀ b, asid b = p.procID → Q b s) → spec Word .getEntryHi Q s)
    (hregs : ∀ {r Q s}, Q (p.regs r) s → spec Word (.readOld p.procID .sysTrap r) Q s)
    (h : Prog.wpx spec (p.service fuel) (fun _ => E (.ldst p.procID .sysTrap)) E s) :
    Prog.wpx spec (vmSysHandler fuel) Q E s := by
  simp only [vmSysHandler, Prog.wpx_bind, wpx_sup]
  refine hasid fun b hb => ?_
  rw [hb]
  refine hregs ?_
  rw [service] at h
  generalize hnum : (p.regs sA1).toInt = num at h
  split at h
  case h_11 =>
    have hend : Prog.wpx spec (throw (End.ldst p.procID .sysTrap)) Q E s := h
    simpa only [Prog.wpx_bind] using hend
  all_goals simp only [Prog.wpx_bind, wpx_sup] at h ⊢
  case h_1 => exact hregs h
  case h_2 => exact hregs (hregs h)
  case h_3 | h_4 | h_5 => exact hregs h
  case h_6 | h_7 => exact hregs (hregs (hregs h))
  case h_8 => exact hregs (hregs h)
  case h_9 | h_10 => exact h

end Caller

end Jaeos
