import Jaeos.Support.Confined

/-!
# What the terminals and the printers receive

The caller of SYS10 or SYS16, with its registers and its bytes in memory, and the statuses that
the devices will report. `Wire` follows the device registers and lists the characters that come
out of the transmitters and the printers.
-/

namespace Jaeos

/-! ## Bytes -/

/-- The bytes of a buffer. -/
def bytes (mem : Word → BitVec 8) (a : Word) (len : ℕ) : List (BitVec 8) :=
  (List.range len).map fun i => mem (a + BitVec.ofNat 32 i)

theorem bytes_succ (mem : Word → BitVec 8) (a : Word) (len : ℕ) :
    bytes mem a (len + 1) = mem a :: bytes mem (a + 1) len := by
  have hzero : a + BitVec.ofNat 32 0 = a := by simp
  rw [bytes, List.range_succ_eq_map, List.map_cons, List.map_map, hzero]
  refine congrArg (mem a :: ·) (List.map_congr_left fun i _ => ?_)
  have hshift : a + BitVec.ofNat 32 (i + 1) = a + 1 + BitVec.ofNat 32 i := by bv_omega
  exact congrArg mem hshift

@[simp] theorem length_bytes (mem : Word → BitVec 8) (a : Word) (len : ℕ) :
    (bytes mem a len).length = len := by
  simp [bytes]

/-! ## The devices -/

/-- The data registers of the devices, and the characters that have come out of the terminals and
the printers, oldest first, each with the index of its device. -/
structure Wire where
  /-- `d_data0` of each device -/
  data0 : ℤ → Word
  /-- the characters -/
  received : List (ℤ × BitVec 8)

namespace Wire

/-- No character yet. -/
def quiet : Wire := ⟨fun _ => 0, []⟩

/-- One more character. -/
def put (g : Wire) (dev : ℤ) (c : BitVec 8) : Wire :=
  { g with received := g.received ++ [(dev, c)] }

/-- The index is that of a terminal. -/
def IsTerminal (dev : ℤ) : Prop := term0Dev ≤ dev ∧ dev < term0Dev + 8

/-- The index is that of a printer. -/
def IsPrinter (dev : ℤ) : Prop := print0Dev ≤ dev ∧ dev < print0Dev + 8

instance (dev : ℤ) : Decidable (IsTerminal dev) := inferInstanceAs (Decidable (_ ∧ _))

instance (dev : ℤ) : Decidable (IsPrinter dev) := inferInstanceAs (Decidable (_ ∧ _))

/-- A terminal transmits the character in its command; a printer prints the one in `d_data0`. -/
def see : ∀ β, SupOp β → β → Wire → Wire
  | _, .writeDev dev .dData1 v, _, g =>
    if IsTerminal dev ∧ v &&& 0xFF = transChar then g.put dev ((v >>> charShift).truncate 8) else g
  | _, .writeDev dev .dData0 v, _, g => { g with data0 := Function.update g.data0 dev v }
  | _, .writeDev dev .dCommand v, _, g =>
    if IsPrinter dev ∧ v = printChar then g.put dev ((g.data0 dev).truncate 8) else g
  | _, _, _, g => g

end Wire

/-! ## The caller -/

namespace Caller

/-- What an operation does for the caller, with the statuses that are still to come. -/
def printing (p : Caller) (mem : Word → BitVec 8) : ∀ β, SupOp β → StateT (ℕ → Word) Option β
  | _, .getEntryHi => pure (word p.procID <<< asidShift)
  | _, .readOld procID type r =>
    if procID = p.procID ∧ type = .sysTrap then pure (p.regs r) else failure
  | _, .getSTATUS => pure allOff
  | _, .setSTATUS _ => pure ()
  | _, .passeren _ => pure ()
  | _, .verhogen _ => pure ()
  | _, .loadByte a => pure (mem a)
  | _, .writeDev _ _ _ => pure ()
  | _, .waitForIo _ _ _ => fun io => some (io 0, fun i => io (i + 1))
  | _, _ => failure

/-- The same caller, with another number of a call. -/
def calling (p : Caller) (num : Word) : Caller := { p with regs := Function.update p.regs sA1 num }

/-- The call returns, and the devices have received these characters and no others. -/
def Sends [Support] (p : Caller) (mem : Word → BitVec 8) (io : ℕ → Word)
    (out : List (ℤ × BitVec 8)) : Prop :=
  ∃ io', ((vmSysHandler 0).run.run (p.printing mem)).run io =
      some (.error (.ldst p.procID .sysTrap), io') ∧
    ((vmSysHandler 0).run.observe (p.printing mem) Wire.see io .quiet).received = out

end Caller

/-! ## The loops -/

section

variable {p : Caller} {mem : Word → BitVec 8} {io : ℕ → Word} {g : Wire} {procID : ℤ}
  {E : End → (ℕ → Word) × Wire → Prop}

/-- The contract of the operations. -/
abbrev Caller.prints (p : Caller) (mem : Word → BitVec 8) :
    Prog.Contract SupOp ((ℕ → Word) × Wire) := Prog.certain (p.printing mem) Wire.see

theorem prints_op {α : Type} {o : SupOp α} {b : α} {io' : ℕ → Word}
    {Q : α → (ℕ → Word) × Wire → Prop} (h : (p.printing mem α o).run io = some (b, io'))
    (hQ : Q b (io', Wire.see α o b g)) : Prog.wpx (p.prints mem) (sup o) Q E (io, g) :=
  ⟨b, io', h, hQ⟩

theorem prints_enableInterrupts {on : Bool} {Q : Unit → (ℕ → Word) × Wire → Prop}
    (hQ : Q () (io, g)) : Prog.wpx (p.prints mem) (enableInterrupts on) Q E (io, g) := by
  simp only [enableInterrupts, Prog.wpx_bind]
  exact prints_op rfl (prints_op rfl hQ)

theorem ready_masked : ready &&& 0xFF = ready := by decide

/-- A character in a command of a terminal. -/
theorem transmit_char (c : BitVec 8) :
    (transChar ||| (c.zeroExtend 32 <<< charShift)) &&& 0xFF = transChar ∧
    ((transChar ||| (c.zeroExtend 32 <<< charShift)) >>> charShift).truncate 8 = c := by
  constructor
  · apply BitVec.eq_of_getLsbD_eq
    intro i hi
    rw [BitVec.getLsbD_and, BitVec.getLsbD_or, BitVec.getLsbD_shiftLeft]
    interval_cases i <;> simp [transChar, charShift]
  · apply BitVec.eq_of_getLsbD_eq
    intro i hi
    simp only [BitVec.truncate_eq_setWidth, BitVec.getLsbD_setWidth, BitVec.getLsbD_ushiftRight,
      BitVec.getLsbD_or, BitVec.getLsbD_shiftLeft]
    interval_cases i <;> simp [transChar, charShift]

/-- The loop transmits the bytes of the buffer. -/
theorem prints_writeTerminalLoop {Q : Unit → (ℕ → Word) × Wire → Prop}
    (hdev : Wire.IsTerminal (term0Dev + (procID - 1))) (hio : ∀ i, io i &&& 0xFF = transmitChar)
    (k : ℕ) (a : Word)
    (hQ : ∀ io' g', g'.received = g.received ++
      (bytes mem a k).map (term0Dev + (procID - 1), ·) → Q () (io', g')) :
    Prog.wpx (p.prints mem) (writeTerminalLoop (term0Dev + (procID - 1)) procID k a) Q
        E (io, g) := by
  induction k generalizing a io g with
  | zero => exact hQ io g (by simp [bytes])
  | succ k ih =>
    obtain ⟨hcmd, hchar⟩ := transmit_char (mem a)
    simp only [writeTerminalLoop, Prog.wpx_bind]
    refine prints_enableInterrupts (prints_op rfl (prints_op rfl (prints_op rfl ?_)))
    refine prints_enableInterrupts ?_
    rw [if_neg (not_not.mpr (hio 0))]
    refine ih (fun i => hio (i + 1)) (a + 1) fun io' g' hg' => hQ io' g' ?_
    rw [hg', bytes_succ]
    simp only [Wire.see, if_pos (And.intro hdev hcmd), hchar, Wire.put, List.append_assoc,
      List.map_cons, List.singleton_append]

/-- The loop prints the bytes of the buffer. -/
theorem prints_writePrinterLoop {Q : Unit → (ℕ → Word) × Wire → Prop}
    (hdev : Wire.IsPrinter (print0Dev + (procID - 1))) (hio : ∀ i, io i &&& 0xFF = ready)
    (k : ℕ) (a : Word)
    (hQ : ∀ io' g', g'.received = g.received ++
      (bytes mem a k).map (print0Dev + (procID - 1), ·) → Q () (io', g')) :
    Prog.wpx (p.prints mem) (writePrinterLoop (print0Dev + (procID - 1)) procID k a) Q
        E (io, g) := by
  induction k generalizing a io g with
  | zero => exact hQ io g (by simp [bytes])
  | succ k ih =>
    have hchar : ((mem a).zeroExtend 32).truncate 8 = mem a := by
      simp
    simp only [writePrinterLoop, Prog.wpx_bind]
    refine prints_enableInterrupts
      (prints_op rfl (prints_op rfl (prints_op rfl (prints_op rfl ?_))))
    refine prints_enableInterrupts ?_
    rw [if_neg (not_not.mpr (hio 0))]
    refine ih (fun i => hio (i + 1)) (a + 1) fun io' g' hg' => hQ io' g' ?_
    rw [hg', bytes_succ]
    simp only [Wire.see, hdev, and_self, if_true, Function.update_self, hchar, Wire.put,
      List.append_assoc, List.map_cons, List.singleton_append]

end

/-! ## The two calls -/

section

variable [Support] {p : Caller} {mem : Word → BitVec 8} {io : ℕ → Word}

/-- A call of the handler prints what the service prints. -/
theorem Caller.Sends.of_service {out : List (ℤ × BitVec 8)} (h1 : 1 ≤ p.procID)
    (h8 : p.procID ≤ 8)
    (h : Prog.wpx (p.prints mem) (p.service 0) (fun _ s => s.2.received = out) (fun _ _ => False)
      (io, .quiet)) : p.Sends mem io out := by
  have hwp : Prog.wpx (p.prints mem) (vmSysHandler 0) (fun _ _ => False)
      (fun e s => e = .ldst p.procID .sysTrap ∧ s.2.received = out) (io, .quiet) := by
    refine Caller.handler (p := p) (fun {Q s} hQ => ?_) (fun {r Q s} hQ => ?_) ?_
    · exact ⟨_, s.1, rfl, hQ _ (asid_word (by omega) (by omega))⟩
    · exact ⟨p.regs r, s.1, congrArg (StateT.run · s.1) (if_pos ⟨rfl, rfl⟩), hQ⟩
    · refine Prog.wpx_mono Prog.certain_mono ?_ ?_ h
      · exact fun _ _ hout => ⟨rfl, hout⟩
      · exact fun _ _ hfalse => hfalse.elim
  obtain ⟨r, io', hrun, hr⟩ := Prog.run_of_certain hwp
  cases r with
  | ok b => exact hr.elim
  | error e =>
    obtain ⟨rfl, hout⟩ := hr
    exact ⟨io', hrun, hout⟩

/-- A call prints one thing. -/
theorem Caller.Sends.unique {out out' : List (ℤ × BitVec 8)} (h : p.Sends mem io out)
    (h' : p.Sends mem io out') : out = out' := by
  obtain ⟨_, -, hout⟩ := h
  obtain ⟨_, -, hout'⟩ := h'
  exact hout.symm.trans hout'

/-- SYS10 transmits its buffer on the terminal of the process. -/
theorem sends_writeTerminal (h1 : 1 ≤ p.procID) (h8 : p.procID ≤ 8)
    (hio : ∀ i, io i &&& 0xFF = transmitChar) :
    (p.calling 10).Sends mem io ((bytes mem (p.regs sA2) (p.regs sA3).toInt.toNat).map
      (term0Dev + (p.procID - 1), ·)) := by
  refine .of_service h1 h8 ?_
  have hservice : (p.calling 10).service 0 =
      writeTerminal (p.regs sA2) (p.regs sA3).toInt p.procID := rfl
  rw [hservice]
  simp only [writeTerminal, Prog.wpx_bind]
  refine prints_op rfl (prints_writeTerminalLoop ⟨by omega, by omega⟩ hio _ _ fun io' g' hg' => ?_)
  exact prints_op rfl hg'

variable (mem) in
/-- SYS16 takes the number of the call for the buffer, and the buffer for its length. -/
theorem sends_writePrinter (h1 : 1 ≤ p.procID) (h8 : p.procID ≤ 8)
    (hio : ∀ i, io i &&& 0xFF = ready) :
    (p.calling 16).Sends mem io ((bytes mem 16 (p.regs sA2).toInt.toNat).map
      (print0Dev + (p.procID - 1), ·)) := by
  refine .of_service h1 h8 ?_
  have hservice : (p.calling 16).service 0 =
      writePrinter 16 (p.regs sA2).toInt p.procID := rfl
  rw [hservice]
  simp only [writePrinter, Prog.wpx_bind]
  refine prints_op rfl (prints_writePrinterLoop ⟨by omega, by omega⟩ hio _ _ fun io' g' hg' => ?_)
  exact prints_op rfl hg'

/-- The two calls send the buffer of the caller, each to the device of its process. -/
def OutputAgrees (p : Caller) (mem : Word → BitVec 8) : Prop :=
  (∀ io : ℕ → Word, (∀ i, io i &&& 0xFF = transmitChar) →
    (p.calling 10).Sends mem io ((bytes mem (p.regs sA2) (p.regs sA3).toInt.toNat).map
      (term0Dev + (p.procID - 1), ·))) ∧
  ∀ io : ℕ → Word, (∀ i, io i &&& 0xFF = ready) →
    (p.calling 16).Sends mem io ((bytes mem (p.regs sA2) (p.regs sA3).toInt.toNat).map
      (print0Dev + (p.procID - 1), ·))

/-- The two calls agree with the request only if nothing is to be printed, and the address is not
a positive number. -/
theorem outputAgrees_iff (h1 : 1 ≤ p.procID) (h8 : p.procID ≤ 8)
    (hbuffer : UserBuffer (p.regs sA2) (p.regs sA3).toInt.toNat) :
    OutputAgrees p mem ↔ (p.regs sA3).toInt ≤ 0 ∧ (p.regs sA2).toInt ≤ 0 := by
  constructor
  · rintro ⟨-, hprint⟩
    have hout := (hprint (fun _ => ready) fun _ => ready_masked).unique
      (sends_writePrinter mem h1 h8 fun _ => ready_masked)
    have hlen := congrArg List.length hout
    simp only [List.length_map, length_bytes] at hlen
    -- the buffer of a user is at an address that is a negative number
    rcases hbuffer with hzero | ⟨ha, -⟩
    · omega
    · have hneg : (p.regs sA2).toInt < 0 := by
        have ha : (2147483648 : ℕ) ≤ (p.regs sA2).toNat := ha
        rw [BitVec.toInt_eq_toNat_cond, if_neg (by omega)]
        omega
      omega
  · rintro ⟨hlen, haddr⟩
    refine ⟨fun io hio => sends_writeTerminal h1 h8 hio, fun io hio => ?_⟩
    have hsends := sends_writePrinter mem h1 h8 hio
    have hzero : (p.regs sA2).toInt.toNat = 0 := by omega
    have hzero' : (p.regs sA3).toInt.toNat = 0 := by omega
    rw [hzero] at hsends
    rw [hzero']
    exact hsends

end

/-- A process with a buffer of `len` bytes at the start of kUseg2. -/
abbrev samplePrint (len : Word) : Caller :=
  ⟨1, fun r => if r = sA2 then kUseg2Addr else if r = sA3 then len else 0⟩

/-- Nothing is to be printed. -/
theorem outputAgrees_iff_empty : ∃ _ : Support,
    UserBuffer kUseg2Addr 0 ∧ OutputAgrees (samplePrint 0) fun _ => 65 := by
  let _ := sampleSupport
  exact ⟨sampleSupport, .inl rfl,
    (outputAgrees_iff (p := samplePrint 0) (by decide) (by decide) (.inl rfl)).mpr
      ⟨by decide, by decide⟩⟩

/-- One character is to be printed. -/
theorem output_differs : ¬ ∀ (_ : Support) (p : Caller) (mem : Word → BitVec 8), 1 ≤ p.procID →
    p.procID ≤ 8 → UserBuffer (p.regs sA2) (p.regs sA3).toInt.toNat → OutputAgrees p mem := by
  intro h
  let _ := sampleSupport
  have hagrees := h sampleSupport (samplePrint 1) (fun _ => 65) (by decide) (by decide)
    (.inr ⟨by decide, by decide⟩)
  have hout := (hagrees.2 (fun _ => ready) fun _ => ready_masked).unique
    (sends_writePrinter (p := samplePrint 1) _ (by decide) (by decide) fun _ => ready_masked)
  exact absurd (congrArg List.length hout) (by decide)

end Jaeos
