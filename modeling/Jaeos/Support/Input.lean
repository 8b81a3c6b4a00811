import Jaeos.Support.Caller
import Jaeos.Support.Sections

/-!
# What SYS9 reads

The caller of SYS9, its memory, and the statuses that its terminal will report, each with the
character that was received. `readTerminal` follows the terminal to the end of a line, or to the
first status that is no success.
-/

namespace Jaeos

/-! ## Characters -/

/-- The character of a status: `(status & 0xFF00) >> 8`. -/
def received (status : Word) : Word := (status &&& 0xFF00) >>> 8

/-- The status of a character that does not end the line. -/
def GoesOn (status : Word) : Prop := status &&& 0xFF = receiveChar ∧ received status ≠ 0x0A

instance (status : Word) : Decidable (GoesOn status) := inferInstanceAs (Decidable (_ ∧ _))

/-- The first `n` characters are stored, from `a` on. -/
def typed (io : ℕ → Word) (a : Word) : ℕ → (Word → BitVec 8) → Word → BitVec 8
  | 0, mem => mem
  | n + 1, mem => typed (fun i => io (i + 1)) (a + 1) n
    (Function.update mem a ((received (io 0)).truncate 8))

/-- They are in the buffer, and the rest of memory is as before. -/
theorem typed_apply (io : ℕ → Word) (a : Word) {n : ℕ} (hn : n ≤ 2 ^ 32) (mem : Word → BitVec 8)
    (x : Word) : typed io a n mem x =
      if (x - a).toNat < n then (received (io (x - a).toNat)).truncate 8 else mem x := by
  induction n generalizing io a mem with
  | zero => exact (if_neg (Nat.not_lt_zero _)).symm
  | succ n ih =>
    rw [typed, ih _ _ (by omega)]
    by_cases hx : x = a
    · subst hx
      have hback : (x - (x + 1)).toNat = 2 ^ 32 - 1 := by bv_omega
      have hself : (x - x).toNat = 0 := by simp
      rw [hback, hself, if_neg (by omega), if_pos (Nat.succ_pos _), Function.update_self]
    · have hpos : (x - a).toNat = (x - (a + 1)).toNat + 1 := by bv_omega
      rw [hpos, Function.update_of_ne hx]
      by_cases hlt : (x - (a + 1)).toNat < n
      · rw [if_pos hlt, if_pos (by omega)]
      · rw [if_neg hlt, if_neg (by omega)]

/-! ## The caller -/

/-- The memory of the caller, the statuses that are still to come, and the result of the call. -/
structure Reading where
  /-- memory -/
  mem : Word → BitVec 8
  /-- the statuses of the terminal -/
  io : ℕ → Word
  /-- the new `a1` of the caller -/
  a1 : Option Word

/-- What an operation does for the caller. -/
def Caller.reading (p : Caller) : ∀ β, SupOp β → StateT Reading Option β
  | _, .getEntryHi => pure (word p.procID <<< asidShift)
  | _, .readOld procID type r =>
    if procID = p.procID ∧ type = .sysTrap then pure (p.regs r) else failure
  | _, .writeOld procID type r v => fun s =>
    if procID = p.procID ∧ type = .sysTrap ∧ r = sA1 then some ((), { s with a1 := some v })
    else none
  | _, .getSTATUS => pure allOff
  | _, .setSTATUS _ => pure ()
  | _, .passeren _ => pure ()
  | _, .verhogen _ => pure ()
  | _, .storeByte a v => fun s => some ((), { s with mem := Function.update s.mem a v })
  | _, .writeDev _ _ _ => pure ()
  | _, .waitForIo _ _ _ => fun s => some (s.io 0, { s with io := fun i => s.io (i + 1) })
  | _, _ => failure

section

variable {p : Caller} {s : Reading} {procID : ℤ}

/-- The contract of the operations. -/
abbrev Caller.reads (p : Caller) : Prog.Contract SupOp (Reading × Unit) :=
  Prog.certain p.reading fun _ _ _ g => g

theorem reads_op {α : Type} {o : SupOp α} {b : α} {s' : Reading} {Q : α → Reading × Unit → Prop}
    {E : End → Reading × Unit → Prop} (h : (p.reading α o).run s = some (b, s'))
    (hQ : Q b (s', ())) : Prog.wpx p.reads (sup o) Q E (s, ()) :=
  ⟨b, s', h, hQ⟩

theorem reads_enableInterrupts {on : Bool} {Q : Unit → Reading × Unit → Prop}
    {E : End → Reading × Unit → Prop} (hQ : Q () (s, ())) :
    Prog.wpx p.reads (enableInterrupts on) Q E (s, ()) := by
  simp only [enableInterrupts, Prog.wpx_bind]
  exact reads_op rfl (reads_op rfl hQ)

/-- What has been read after `k` characters, `n` of which have been stored. -/
def Reading.after (s : Reading) (a : Word) (k n : ℕ) : Reading :=
  { s with mem := typed s.io a n s.mem, io := fun i => s.io (i + k) }

/-- How many characters have been stored when the status `k` ends the loop: a character that was
received with an error is stored too. -/
def stored (io : ℕ → Word) (k : ℕ) : ℕ := if received (io k) = 0x0A then k else k + 1

theorem stored_succ (io : ℕ → Word) (k : ℕ) :
    stored io (k + 1) = stored (fun i => io (i + 1)) k + 1 := by
  rw [stored, stored]
  split <;> rfl

/-! ## The loop -/

section

variable {devNum : ℤ} {Q : Word → Reading × Unit → Prop} {E : End → Reading × Unit → Prop}

/-- A round of the loop. -/
theorem reads_round {fuel : ℕ} {a count : Word}
    (hQ : received (s.io 0) = 0x0A → s.io 0 &&& 0xFF = receiveChar → Q count (s.after a 1 0, ()))
    (hE : s.io 0 &&& 0xFF ≠ receiveChar → E .panic (s.after a 1 (stored s.io 0), ()))
    (hgo : GoesOn (s.io 0) → Prog.wpx p.reads
      (readTerminalLoop devNum procID fuel (a + 1) (count + 1)) Q E (s.after a 1 1, ())) :
    Prog.wpx p.reads (readTerminalLoop devNum procID (fuel + 1) a count) Q E (s, ()) := by
  have hfold : (s.io 0 &&& 0xFF00) >>> 8 = received (s.io 0) := rfl
  simp only [readTerminalLoop, Prog.wpx_bind]
  refine reads_enableInterrupts (reads_op rfl (reads_op rfl (reads_enableInterrupts ?_)))
  simp only [hfold]
  by_cases hnl : received (s.io 0) = 0x0A
  · have hnone : stored s.io 0 = 0 := if_pos hnl
    rw [hnone] at hE
    rw [if_pos hnl]
    by_cases hok : s.io 0 &&& 0xFF = receiveChar
    · rw [if_neg (not_not.mpr hok)]
      exact hQ hnl hok
    · rw [if_pos hok]
      exact hE hok
  · have hone : stored s.io 0 = 1 := if_neg hnl
    rw [hone] at hE
    rw [if_neg hnl]
    simp only [Prog.wpx_bind]
    refine reads_op rfl ?_
    by_cases hok : s.io 0 &&& 0xFF = receiveChar
    · rw [if_neg (not_not.mpr hok)]
      exact hgo ⟨hok, hnl⟩
    · rw [if_pos hok]
      exact hE hok

/-- The loop reads up to the first status that does not go on. -/
theorem reads_readTerminalLoop {fuel k : ℕ} (hfuel : k < fuel) (a count : Word)
    (hline : ∀ i < k, GoesOn (s.io i)) (hend : ¬ GoesOn (s.io k))
    (hQ : s.io k &&& 0xFF = receiveChar → Q (count + BitVec.ofNat 32 k) (s.after a (k + 1) k, ()))
    (hE : s.io k &&& 0xFF ≠ receiveChar → E .panic (s.after a (k + 1) (stored s.io k), ())) :
    Prog.wpx p.reads (readTerminalLoop devNum procID fuel a count) Q E (s, ()) := by
  induction k generalizing fuel a count s with
  | zero =>
    obtain ⟨fuel, rfl⟩ : ∃ m, fuel = m + 1 := ⟨fuel - 1, by omega⟩
    refine reads_round (fun _ hok => ?_) hE fun hgo => absurd hgo hend
    simpa using hQ hok
  | succ k ih =>
    obtain ⟨fuel, rfl⟩ : ∃ m, fuel = m + 1 := ⟨fuel - 1, by omega⟩
    have hzero : GoesOn (s.io 0) := hline 0 (Nat.succ_pos _)
    refine reads_round (fun hnl => absurd hnl hzero.2) (fun hno => absurd hzero.1 hno) fun _ => ?_
    refine ih (by omega) (a + 1) (count + 1) (fun i hi => hline (i + 1) (by omega)) hend
      (fun hok => ?_) fun hno => ?_
    · have hcount : count + 1 + BitVec.ofNat 32 k = count + BitVec.ofNat 32 (k + 1) := by bv_omega
      rw [hcount]
      exact hQ hok
    · have herr := hE hno
      rw [stored_succ] at herr
      exact herr

/-- While the statuses go on, so does the loop. -/
theorem reads_unended {fuel : ℕ} (a count : Word) (hline : ∀ i < fuel, GoesOn (s.io i))
    (hE : ∀ s', E .stuck s') :
    Prog.wpx p.reads (readTerminalLoop devNum procID fuel a count) Q E (s, ()) := by
  induction fuel generalizing a count s with
  | zero => exact hE _
  | succ fuel ih =>
    have hzero : GoesOn (s.io 0) := hline 0 (Nat.succ_pos _)
    refine reads_round (fun hnl => absurd hnl hzero.2) (fun hno => absurd hzero.1 hno) fun _ => ?_
    exact ih (a + 1) (count + 1) fun i hi => hline (i + 1) (by omega)

end

end

/-! ## The call -/

section

variable [Support] {p : Caller} {mem : Word → BitVec 8} {io : ℕ → Word} {fuel k : ℕ} {e : End}
  {s s' : Reading}

/-- The call ends in this way. -/
def Caller.Reads (p : Caller) (fuel : ℕ) (s : Reading) (e : End) (s' : Reading) : Prop :=
  ((vmSysHandler fuel).run.run p.reading).run s = some (.error e, s')

/-- What the service does, the call does. -/
theorem Caller.Reads.of_service (h1 : 1 ≤ p.procID) (h8 : p.procID ≤ 8) {E : End → Reading → Prop}
    (h : Prog.wpx p.reads (p.service fuel) (fun _ x => E (.ldst p.procID .sysTrap) x.1)
      (fun e x => E e x.1) (s, ())) : ∃ e s', p.Reads fuel s e s' ∧ E e s' := by
  have hwp : Prog.wpx p.reads (vmSysHandler fuel) (fun _ _ => False) (fun e x => E e x.1)
      (s, ()) := by
    refine Caller.handler (p := p) (fun {Q s} hQ => ?_) (fun {r Q s} hQ => ?_) h
    · exact ⟨_, s.1, rfl, hQ _ (asid_word (by omega) (by omega))⟩
    · exact ⟨p.regs r, s.1, congrArg (StateT.run · s.1) (if_pos ⟨rfl, rfl⟩), hQ⟩
  obtain ⟨r, s', hrun, hr⟩ := Prog.run_of_certain hwp
  cases r with
  | ok b => exact hr.elim
  | error e => exact ⟨e, s', hrun, hr⟩

/-- A call ends in one way. -/
theorem Caller.Reads.unique {e' : End} {s'' : Reading} (h : p.Reads fuel s e s')
    (h' : p.Reads fuel s e' s'') : e = e' ∧ s' = s'' := by
  have heq := Prod.mk.inj (Option.some.inj (h.symm.trans h'))
  exact ⟨Except.error.inj heq.1, heq.2⟩

theorem Caller.service_readTerminal (hcall : (p.regs sA1).toInt = 9) :
    p.service fuel = readTerminal fuel (p.regs sA2) p.procID := by
  simp only [service, hcall]

/-- How the call ends at the status `k`. -/
def Caller.ending (p : Caller) (io : ℕ → Word) (k : ℕ) : End :=
  if io k &&& 0xFF = receiveChar then .ldst p.procID .sysTrap else .panic

/-- What has been read when the call ends at the status `k`. -/
def Caller.result (p : Caller) (s : Reading) (k : ℕ) : Reading :=
  { s.after (p.regs sA2) (k + 1) (stored s.io k) with
    a1 := if s.io k &&& 0xFF = receiveChar then some (BitVec.ofNat 32 k) else s.a1 }

/-- The call reads up to the first status that does not go on. -/
theorem reads_readTerminal (h1 : 1 ≤ p.procID) (h8 : p.procID ≤ 8)
    (hcall : (p.regs sA1).toInt = 9) (hfuel : k < fuel) (hline : ∀ i < k, GoesOn (s.io i))
    (hend : ¬ GoesOn (s.io k)) : p.Reads fuel s (p.ending s.io k) (p.result s k) := by
  have hservice : Prog.wpx p.reads (p.service fuel)
      (fun _ x => .ldst p.procID .sysTrap = p.ending s.io k ∧ x.1 = p.result s k)
      (fun e x => e = p.ending s.io k ∧ x.1 = p.result s k) (s, ()) := by
    rw [Caller.service_readTerminal hcall, Caller.ending, Caller.result]
    simp only [readTerminal, Prog.wpx_bind]
    refine reads_op rfl (reads_readTerminalLoop hfuel _ _ hline hend (fun hok => ?_) fun hno => ?_)
    · have hnl : received (s.io k) = 0x0A := not_not.mp fun h => hend ⟨hok, h⟩
      have hstored : stored s.io k = k := if_pos hnl
      rw [if_pos hok, if_pos hok, hstored]
      refine reads_op (if_pos ⟨rfl, rfl, rfl⟩) (reads_op rfl ⟨rfl, ?_⟩)
      simp
    · rw [if_neg hno, if_neg hno]
      exact ⟨rfl, rfl⟩
  obtain ⟨e, s', hreads, rfl, rfl⟩ := Caller.Reads.of_service
    (E := fun e s' => e = p.ending s.io k ∧ s' = p.result s k) h1 h8 hservice
  exact hreads

/-- The call does not end while the statuses go on. -/
theorem reads_forever (h1 : 1 ≤ p.procID) (h8 : p.procID ≤ 8) (hcall : (p.regs sA1).toInt = 9)
    (hline : ∀ i < fuel, GoesOn (s.io i)) : ∃ s', p.Reads fuel s .stuck s' := by
  have hservice : Prog.wpx p.reads (p.service fuel) (fun _ _ => .ldst p.procID .sysTrap = End.stuck)
      (fun e _ => e = .stuck) (s, ()) := by
    rw [Caller.service_readTerminal hcall]
    simp only [readTerminal, Prog.wpx_bind]
    exact reads_op rfl (reads_unended _ _ hline fun _ => rfl)
  obtain ⟨e, s', hreads, rfl⟩ := Caller.Reads.of_service (E := fun e _ => e = .stuck) h1 h8 hservice
  exact ⟨s', hreads⟩

/-- SYS9 reads one line. If the statuses up to a newline are successes, the characters in front of
it are in the buffer, one byte each and nothing after them, `a1` is their number, and the next call
goes on behind the newline. The first status that is no success stops the machine; its character, if
it is no newline, has been stored. Memory outside is as before. -/
theorem readTerminal_line (h1 : 1 ≤ p.procID) (h8 : p.procID ≤ 8) (hcall : (p.regs sA1).toInt = 9)
    (hfuel : k < fuel) (hk : k < 2 ^ 32) (hline : ∀ i < k, GoesOn (io i)) (hend : ¬ GoesOn (io k)) :
    ∃ mem', p.Reads fuel ⟨mem, io, none⟩
        (if io k &&& 0xFF = receiveChar then .ldst p.procID .sysTrap else .panic)
        ⟨mem', fun i => io (i + (k + 1)),
          if io k &&& 0xFF = receiveChar then some (BitVec.ofNat 32 k) else none⟩ ∧
      ∀ x, mem' x = if (x - p.regs sA2).toNat < stored io k then
        (received (io (x - p.regs sA2).toNat)).truncate 8 else mem x := by
  refine ⟨_, reads_readTerminal (s := ⟨mem, io, none⟩) h1 h8 hcall hfuel hline hend, ?_⟩
  have hle : stored io k ≤ 2 ^ 32 := by
    rw [stored]
    split <;> omega
  exact typed_apply io (p.regs sA2) hle mem

/-- A process that calls SYS9 with a buffer at the start of kUseg2. -/
abbrev sampleRead : Caller := ⟨1, fun r => if r = sA1 then 9 else if r = sA2 then kUseg2Addr else 0⟩

/-- Two characters and a newline. -/
abbrev sampleLine : ℕ → Word
  | 0 => 0x4805
  | 1 => 0x6905
  | _ => 0x0A05

omit [Support] in
/-- A line of two characters. -/
theorem readTerminal_line_two : ∃ (_ : Support) (mem' : Word → BitVec 8),
    sampleRead.Reads 3 ⟨fun _ => 0, sampleLine, none⟩ (.ldst 1 .sysTrap)
      ⟨mem', fun i => sampleLine (i + 3), some 2⟩ ∧
    mem' 0x80000000 = 0x48 ∧ mem' 0x80000001 = 0x69 ∧ mem' 0x80000002 = 0 := by
  refine ⟨sampleSupport, ?_⟩
  let _ := sampleSupport
  have hline : ∀ i < 2, GoesOn (sampleLine i) := by decide
  obtain ⟨mem', hreads, hmem⟩ := @readTerminal_line _ sampleRead (fun _ => 0) sampleLine 3 2
    (by decide) (by decide) (by decide) (by decide) (by decide) hline (by decide)
  refine ⟨mem', hreads, ?_, ?_, ?_⟩
  · rw [hmem]
    decide
  · rw [hmem]
    decide
  · rw [hmem]
    decide

omit [Support] in
/-- The statuses go on for ever, or up to a first one that does not. -/
theorem goesOn_or (io : ℕ → Word) :
    (∀ i, GoesOn (io i)) ∨ ∃ k, (∀ i < k, GoesOn (io i)) ∧ ¬ GoesOn (io k) := by
  by_cases hall : ∀ i, GoesOn (io i)
  · exact .inl hall
  · have hex : ∃ i, ¬ GoesOn (io i) := not_forall.mp hall
    exact .inr ⟨Nat.find hex, fun i hi => not_not.mp (Nat.find_min hex hi), Nat.find_spec hex⟩

/-- A call that has ended has come to the first status that does not go on. -/
theorem Caller.Reads.ended (h1 : 1 ≤ p.procID) (h8 : p.procID ≤ 8)
    (hcall : (p.regs sA1).toInt = 9) (hreads : p.Reads fuel ⟨mem, io, none⟩ e s')
    (he : e ≠ .stuck) :
    ∃ k, (∀ i < k, GoesOn (io i)) ∧ ¬ GoesOn (io k) ∧ e = p.ending io k := by
  have hfar : ¬ ∀ i < fuel, GoesOn (io i) := by
    intro hall
    obtain ⟨s'', hstuck⟩ := reads_forever (s := ⟨mem, io, none⟩) h1 h8 hcall hall
    exact he (hreads.unique hstuck).1
  rcases goesOn_or io with hall | ⟨k, hline, hend⟩
  · exact absurd (fun i _ => hall i) hfar
  · have hfuel : k < fuel := by
      by_contra hge
      exact hfar fun i hi => hline i (by omega)
    have hends := reads_readTerminal (s := ⟨mem, io, none⟩) h1 h8 hcall hfuel hline hend
    exact ⟨k, hline, hend, (hreads.unique hends).1⟩

/-- SYS9 returns to its caller exactly when the terminal reports a newline with success, and
successes up to there. It stops the machine exactly when a status before that is no success. If
successes go on and no newline comes, the loop has no end. -/
theorem readTerminal_returns_iff (h1 : 1 ≤ p.procID) (h8 : p.procID ≤ 8)
    (hcall : (p.regs sA1).toInt = 9) :
    ((∃ fuel s', p.Reads fuel ⟨mem, io, none⟩ (.ldst p.procID .sysTrap) s') ↔
      ∃ k, (∀ i < k, GoesOn (io i)) ∧ received (io k) = 0x0A ∧ io k &&& 0xFF = receiveChar) ∧
    ((∃ fuel s', p.Reads fuel ⟨mem, io, none⟩ .panic s') ↔
      ∃ k, (∀ i < k, GoesOn (io i)) ∧ io k &&& 0xFF ≠ receiveChar) ∧
    ((∀ fuel, ∃ s', p.Reads fuel ⟨mem, io, none⟩ .stuck s') ↔ ∀ i, GoesOn (io i)) := by
  have hends : ∀ k, (∀ i < k, GoesOn (io i)) → ¬ GoesOn (io k) →
      ∃ s', p.Reads (k + 1) ⟨mem, io, none⟩ (p.ending io k) s' := fun k hline hend =>
    ⟨_, reads_readTerminal (s := ⟨mem, io, none⟩) h1 h8 hcall (Nat.lt_succ_self k) hline hend⟩
  refine ⟨⟨?_, ?_⟩, ⟨?_, ?_⟩, ⟨?_, ?_⟩⟩
  · rintro ⟨fuel, s', hreads⟩
    obtain ⟨k, hline, hend, he⟩ := hreads.ended h1 h8 hcall (by simp)
    rw [Caller.ending] at he
    split at he
    next hok => exact ⟨k, hline, not_not.mp fun h => hend ⟨hok, h⟩, hok⟩
    next => cases he
  · rintro ⟨k, hline, hnl, hok⟩
    obtain ⟨s', hreads⟩ := hends k hline fun h => h.2 hnl
    rw [Caller.ending, if_pos hok] at hreads
    exact ⟨_, s', hreads⟩
  · rintro ⟨fuel, s', hreads⟩
    obtain ⟨k, hline, hend, he⟩ := hreads.ended h1 h8 hcall (by simp)
    rw [Caller.ending] at he
    split at he
    next => cases he
    next hno => exact ⟨k, hline, hno⟩
  · rintro ⟨k, hline, hno⟩
    obtain ⟨s', hreads⟩ := hends k hline fun h => hno h.1
    rw [Caller.ending, if_neg hno] at hreads
    exact ⟨_, s', hreads⟩
  · intro hstuck
    rcases goesOn_or io with hall | ⟨k, hline, hend⟩
    · exact hall
    · -- enough rounds to come to its end
      obtain ⟨s', hreads⟩ := hends k hline hend
      obtain ⟨s'', hreads'⟩ := hstuck (k + 1)
      have he := (hreads.unique hreads').1
      rw [Caller.ending] at he
      split at he <;> cases he
  · exact fun hall fuel => reads_forever (s := ⟨mem, io, none⟩) h1 h8 hcall fun i _ => hall i

/-- A character and then a status that is no success. -/
abbrev sampleBroken : ℕ → Word
  | 0 => 0x4805
  | _ => 0x0004

omit [Support] in
/-- A line of two characters comes to its end, a status that is no success stops the machine, and a
terminal that reports one letter for ever has the call read for ever. -/
theorem readTerminal_returns_iff_two : ∃ _ : Support,
    (∃ fuel s', sampleRead.Reads fuel ⟨fun _ => 0, sampleLine, none⟩ (.ldst 1 .sysTrap) s') ∧
    (∃ fuel s', sampleRead.Reads fuel ⟨fun _ => 0, sampleBroken, none⟩ .panic s') ∧
    ∀ fuel, ∃ s', sampleRead.Reads fuel ⟨fun _ => 0, fun _ => 0x4805, none⟩ .stuck s' := by
  refine ⟨sampleSupport, ?_⟩
  let _ := sampleSupport
  have hends := fun io => @readTerminal_returns_iff _ sampleRead (fun _ => 0) io
    (by decide) (by decide) (by decide)
  exact ⟨(hends sampleLine).1.mpr ⟨2, by decide, by decide, by decide⟩,
    (hends sampleBroken).2.1.mpr ⟨1, by decide, by decide⟩,
    (hends _).2.2.mpr fun _ => by decide⟩

end

end Jaeos
