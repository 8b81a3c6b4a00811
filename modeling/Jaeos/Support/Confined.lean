import Jaeos.Support.Sections
import Jaeos.Support.Caller

/-!
# What a user process can make the handlers touch

`UserCall.ok` says which memory, semaphores and device registers a call may use.
The argument registers of the caller and the statuses of the terminal are given,
and everything else answers anything. For each call there is an exact condition
on them under which the handler keeps to what it may use.
-/

namespace Jaeos

/-! ## What a call may use -/

/-- A call with pointers or devices among its arguments. -/
inductive UserCall where
  /-- SYS9 -/
  | readTerminal
  /-- SYS10 -/
  | writeTerminal
  /-- SYS11 -/
  | vSemVirt
  /-- SYS12 -/
  | pSemVirt
  /-- SYS14 -/
  | diskPut
  /-- SYS15 -/
  | diskGet

/-- All bytes of the word are in kUseg2 or kUseg3. -/
def UserWord (a : Word) : Prop := kUseg2Addr ≤ a ∧ a.toNat + 4 ≤ 2 ^ 32

/-- All bytes of the word are in the buffer of one of the disks 1 to 7. -/
def BufferWord (a : Word) : Prop :=
  ∃ d : ℕ, 1 ≤ d ∧ d ≤ 7 ∧ osCodeTop.toNat + d * 4096 ≤ a.toNat ∧
    a.toNat + 4 ≤ osCodeTop.toNat + (d + 1) * 4096

namespace UserCall

/-- The number of the call. -/
def num : UserCall → Word
  | readTerminal => 9
  | writeTerminal => 10
  | vSemVirt => 11
  | pSemVirt => 12
  | diskPut => 14
  | diskGet => 15

/-- The indexes of the devices of the intended type. -/
def Device : UserCall → ℤ → Prop
  | readTerminal, i | writeTerminal, i => term0Dev ≤ i ∧ i < term0Dev + 8
  | vSemVirt, _ | pSemVirt, _ => False
  | diskPut, i | diskGet, i => 1 ≤ i ∧ i ≤ 7

/-- The indexes of their mutexes. -/
def Mutex : UserCall → ℤ → Prop
  | readTerminal, i => termReadSem ≤ i ∧ i < termReadSem + 8
  | writeTerminal, i => termWriteSem ≤ i ∧ i < termWriteSem + 8
  | vSemVirt, _ | pSemVirt, _ => False
  | diskPut, i | diskGet, i => 1 ≤ i ∧ i ≤ 7

/-- The words of memory: those of the segments of the user for a block or, for the disks, of the
buffer of a disk; those of kUseg3 for a semaphore. -/
def Memory : UserCall → Word → Prop
  | vSemVirt, a | pSemVirt, a => kUseg3Addr ≤ a ∧ a.toNat + 4 ≤ 2 ^ 32
  | diskPut, a | diskGet, a => UserWord a ∨ BufferWord a
  | readTerminal, _ | writeTerminal, _ => False

/-- The operations a call may use. -/
def ok (c : UserCall) : ∀ β, SupOp β → Prop
  | _, .loadByte a | _, .storeByte a _ => kUseg2Addr ≤ a
  | _, .loadWord a | _, .storeWord a _ => c.Memory a
  | _, .passeren (.mutexSemArray i) | _, .verhogen (.mutexSemArray i) => c.Mutex i
  | _, .writeDev i .dData0 v => c.Device i ∧ v = diskBuffer (word i)
  | _, .writeDev i _ _ => c.Device i
  | _, .waitForIo line dev _ => c.Device ((line - diskInt) * 8 + dev)
  | _, _ => True

end UserCall

/-! ## The caller and the terminal -/

/-- An operation that reads `EntryHi` or the registers of the caller. -/
def SupOp.ReadsCaller {β : Type} : SupOp β → Prop
  | .getEntryHi | .readOld _ _ _ => True
  | _ => False

/-- The caller is terminated, and nothing but its registers has been looked at before. -/
def Dies [Support] (procID : ℤ) (tr : List (Prog.Event SupOp)) : Prop :=
  ∃ pre post r, tr = pre ++ post ∧ (∀ e ∈ pre, e.2.1.ReadsCaller) ∧
    (virtualDeath procID : SupM Unit).run.Trace post r

/-- The handler of a call of process `procID` keeps to what it may use, or it terminates the
caller first. -/
def Confined [Support] (c : UserCall) (procID : ℤ) (tr : List (Prog.Event SupOp)) : Prop :=
  Dies procID tr ∨ ∀ e ∈ tr, c.ok _ e.2.1

namespace Caller

/-- The results that the caller and the devices give, with the statuses that are still to come. -/
def law (p : Caller) : ∀ β, SupOp β → β → (ℕ → Word) → Prop
  | _, .getEntryHi, b, _ => asid b = p.procID
  | _, .readOld _ _ r, b, _ => b = p.regs r
  | _, .waitForIo _ _ _, b, io => b = io 0
  | _, _, _, _ => True

/-- A status is taken. -/
def see : ∀ β, SupOp β → β → (ℕ → Word) → ℕ → Word
  | _, .waitForIo _ _ _, _, io => fun i => io (i + 1)
  | _, _, _, io => io

end Caller

/-! ## The condition -/

/-- The character of a status of a terminal. -/
def Word.char (status : Word) : Word := (status &&& 0xFF00) >>> 8

/-- The terminal gives `k` characters before a newline, all but the last of them without an
error. -/
def Typed (io : ℕ → Word) (k : ℕ) : Prop :=
  ∀ i < k, (io i).char ≠ 0x0A ∧ (i + 1 < k → io i &&& 0xFF = receiveChar)

/-- The terminal takes `k` characters, all but the last of them without an error. -/
def Sent (io : ℕ → Word) (k : ℕ) : Prop :=
  ∀ i, i + 1 < k → io i &&& 0xFF = transmitChar

/-- All bytes of a buffer of `k` bytes are in kUseg2 or kUseg3. -/
def UserBuffer (a : Word) (k : ℕ) : Prop := k = 0 ∨ kUseg2Addr ≤ a ∧ a.toNat + k ≤ 2 ^ 32

/-- The condition on the registers of the caller, and on the statuses of its terminal. -/
def UserCall.Harmless (regs : Fin stateRegNum → Word) (io : ℕ → Word) : UserCall → Prop
  | readTerminal => ∀ k, Typed io k → UserBuffer (regs sA2) k
  | writeTerminal => ∀ k : ℕ, k ≤ (regs sA3).toInt → Sent io k → UserBuffer (regs sA2) k
  | vSemVirt | pSemVirt => kUseg3Addr ≤ regs sA2 ∧ (regs sA2).toNat + 4 ≤ 2 ^ 32
  | diskPut | diskGet =>
    (regs sA3).toInt ≤ 0 ∨ regs sA2 < kUseg2Addr ∨
      (regs sA3).toInt ≤ 7 ∧ UserBuffer (regs sA2) 4096

/-! ## Buffers -/

section

variable {a : Word} {k : ℕ}

theorem userBuffer_iff : UserBuffer a k ↔ ∀ i < k, kUseg2Addr ≤ a + BitVec.ofNat 32 i := by
  constructor
  · rintro (rfl | ⟨ha, hk⟩) i hi
    · omega
    · bv_omega
  · intro h
    by_cases hk : k = 0
    · exact .inl hk
    have h0 := h 0 (by omega)
    refine .inr ⟨by simpa using h0, ?_⟩
    -- otherwise the byte at address 0 is one of them
    by_contra hlt
    have hwrap := h (2 ^ 32 - a.toNat) (by omega)
    bv_omega

/-- The words of a buffer. -/
theorem UserBuffer.word (h : UserBuffer a (4 * k)) {i : ℕ} (hi : i < k) :
    UserWord (a + BitVec.ofNat 32 (4 * i)) := by
  rcases h with hk | ⟨ha, hk⟩
  · omega
  · constructor
    · bv_omega
    · bv_omega

/-- A block that does not fit has a word that is neither the user's nor of a disk buffer. -/
theorem exists_bad_word (h : ¬ UserBuffer a (4 * k)) (ha : kUseg2Addr ≤ a) :
    ∃ i < k, ¬ (UserWord (a + BitVec.ofNat 32 (4 * i)) ∨
      BufferWord (a + BitVec.ofNat 32 (4 * i))) := by
  have hlt : ¬ a.toNat + 4 * k ≤ 2 ^ 32 := fun hle => h (.inr ⟨ha, hle⟩)
  refine ⟨(2 ^ 32 - a.toNat) / 4, by omega, ?_⟩
  rintro (⟨hu, hu'⟩ | ⟨d, hd, hd', hb, hb'⟩)
  · bv_omega
  · bv_omega

/-- The disks 1 to 7. -/
theorem disk_toNat {d : Word} (hd : 1 ≤ d.toInt) (hd' : d.toInt ≤ 7) :
    1 ≤ d.toNat ∧ d.toNat ≤ 7 := by
  rw [BitVec.toInt_eq_toNat_cond] at hd hd'
  split at hd
  · rw [if_pos (by assumption)] at hd'
    omega
  · omega

theorem bufferWord {d : Word} (hd : 1 ≤ d.toInt) (hd' : d.toInt ≤ 7) {i : ℕ} (hi : i < 1024) :
    BufferWord (diskBuffer d + BitVec.ofNat 32 (4 * i)) := by
  obtain ⟨h1, h7⟩ := disk_toNat hd hd'
  refine ⟨d.toNat, h1, h7, ?_⟩
  simp only [diskBuffer, osCodeTop, pageSize]
  constructor
  · bv_omega
  · bv_omega

end

/-! ## The handlers keep to what they may use -/

section

variable [Support] {c : UserCall} {p : Caller} {io : ℕ → Word} {E : End → (ℕ → Word) → Prop}

/-- The contract of a call. -/
abbrev UserCall.contract (c : UserCall) (p : Caller) : Prog.Contract SupOp (ℕ → Word) :=
  Prog.tracked p.law (fun β o _ _ => c.ok β o) Caller.see

namespace UserCall

omit [Support] in
theorem may {β : Type} {o : SupOp β} {Q : β → (ℕ → Word) → Prop} (hok : c.ok β o)
    (hQ : ∀ b, p.law β o b io → Q b (Caller.see β o b io)) :
    Prog.wpx (c.contract p) (sup o) Q E io :=
  fun b hb => ⟨hok, hQ b hb⟩

section

omit [Support]

variable {Q : Unit → (ℕ → Word) → Prop}

theorem enableInterrupts (b : Bool) (hQ : Q () io) :
    Prog.wpx (c.contract p) (Jaeos.enableInterrupts b) Q E io := by
  simp only [Jaeos.enableInterrupts, Prog.wpx_bind]
  exact may trivial fun _ _ => may trivial fun _ _ => hQ

theorem copyWords (k : ℕ) (source target : Word)
    (hs : ∀ i < k, c.Memory (source + BitVec.ofNat 32 (4 * i)))
    (ht : ∀ i < k, c.Memory (target + BitVec.ofNat 32 (4 * i))) (hQ : Q () io) :
    Prog.wpx (c.contract p) (Jaeos.copyWords k source target) Q E io := by
  induction k generalizing source target with
  | zero => exact hQ
  | succ k ih =>
    have hshift : ∀ (a : Word) (i : ℕ),
        a + 4 + BitVec.ofNat 32 (4 * i) = a + BitVec.ofNat 32 (4 * (i + 1)) := by
      intro a i
      bv_omega
    simp only [Jaeos.copyWords, Prog.wpx_bind]
    refine may (show c.Memory source by simpa using hs 0 (by omega)) fun v _ => ?_
    refine may (show c.Memory target by simpa using ht 0 (by omega)) fun _ _ => ?_
    refine ih _ _ (fun i hi => ?_) fun i hi => ?_
    · rw [hshift]
      exact hs (i + 1) (by omega)
    · rw [hshift]
      exact ht (i + 1) (by omega)

theorem invalidateFrames {procID : ℤ} {Q : Bool → (ℕ → Word) → Prop} (k i : ℕ) (m : Bool)
    (hQ : ∀ b, Q b io) (hE : E .stuck io) :
    Prog.wpx (c.contract p) (Jaeos.invalidateFrames procID k i m) Q E io := by
  induction k generalizing i m with
  | zero => exact hQ m
  | succ k ih =>
    simp only [Jaeos.invalidateFrames, Prog.wpx_bind]
    refine may trivial fun frame _ => ?_
    split
    · split
      · exact hE
      · simp only [Prog.wpx_bind]
        exact may trivial fun _ _ => may trivial fun _ _ => may trivial fun _ _ => ih _ _
    · exact ih _ _

end

/-- `virtualDeath` uses nothing on behalf of the caller. -/
theorem virtualDeath {α : Type} {procID : ℤ} {Q : α → (ℕ → Word) → Prop} :
    Prog.wpx (c.contract p) (Jaeos.virtualDeath procID) Q (fun _ _ => True) io := by
  simp only [Jaeos.virtualDeath, Prog.wpx_bind]
  refine may trivial fun _ _ => enableInterrupts _ ?_
  refine invalidateFrames _ _ _ (fun b => ?_) trivial
  split
  · simp only [Prog.wpx_bind]
    refine may trivial fun _ _ => enableInterrupts _ ?_
    exact may trivial fun _ _ => may trivial fun _ _ => trivial
  · simp only [Prog.wpx_bind]
    refine enableInterrupts _ ?_
    exact may trivial fun _ _ => may trivial fun _ _ => trivial

section

omit [Support]

variable {i procID : ℤ}

/-- The characters that the terminal takes are in the segments of the user. -/
theorem writeTerminalLoop {Q : Unit → (ℕ → Word) → Prop} (hdev : UserCall.writeTerminal.Device
    (term0Dev + (procID - 1))) (k : ℕ) (a : Word) (hQ : ∀ io, Q () io) (hE : ∀ e io, E e io)
    (ha : ∀ j < k, (∀ i < j, io i &&& 0xFF = transmitChar) →
      kUseg2Addr ≤ a + BitVec.ofNat 32 j) :
    Prog.wpx (UserCall.writeTerminal.contract p)
      (Jaeos.writeTerminalLoop (term0Dev + (procID - 1)) procID k a) Q E io := by
  induction k generalizing a io with
  | zero => exact hQ io
  | succ k ih =>
    simp only [Jaeos.writeTerminalLoop, Prog.wpx_bind]
    refine enableInterrupts _ ?_
    have h0 : kUseg2Addr ≤ a := by simpa using ha 0 (by omega)
    refine may h0 fun b _ => may hdev fun _ _ => may hdev ?_
    rintro st rfl
    refine enableInterrupts _ ?_
    split
    · exact hE _ _
    rename_i hst
    refine ih _ fun j hj hsent => ?_
    have hshift : a + 1 + BitVec.ofNat 32 j = a + BitVec.ofNat 32 (j + 1) := by bv_omega
    rw [hshift]
    refine ha (j + 1) (by omega) fun i hi => ?_
    cases i with
    | zero => exact not_not.mp hst
    | succ i => exact hsent i (by omega)

/-- The characters that are typed before a newline go to the segments of the user. -/
theorem readTerminalLoop {Q : Word → (ℕ → Word) → Prop} (hdev : UserCall.readTerminal.Device
    (term0Dev + (procID - 1))) (fuel : ℕ) (a count : Word) (hQ : ∀ b io, Q b io)
    (hE : ∀ e io, E e io)
    (ha : ∀ j, (∀ i < j, (io i).char ≠ 0x0A ∧ io i &&& 0xFF = receiveChar) →
      (io j).char ≠ 0x0A → kUseg2Addr ≤ a + BitVec.ofNat 32 j) :
    Prog.wpx (UserCall.readTerminal.contract p)
      (Jaeos.readTerminalLoop (term0Dev + (procID - 1)) procID fuel a count) Q E io := by
  induction fuel generalizing a count io with
  | zero => exact hE _ _
  | succ fuel ih =>
    simp only [Jaeos.readTerminalLoop, Prog.wpx_bind]
    refine enableInterrupts _ (may hdev fun _ _ => may hdev ?_)
    rintro st rfl
    refine enableInterrupts _ ?_
    split
    · split
      · exact hE _ _
      · exact hQ _ _
    rename_i hchar
    simp only [Prog.wpx_bind]
    have h0 : kUseg2Addr ≤ a := by simpa using ha 0 (by simp) hchar
    refine may h0 fun _ _ => ?_
    split
    · exact hE _ _
    rename_i hst
    refine ih _ _ fun j hj htyped => ?_
    have hshift : a + 1 + BitVec.ofNat 32 j = a + BitVec.ofNat 32 (j + 1) := by bv_omega
    rw [hshift]
    refine ha (j + 1) (fun i hi => ?_) htyped
    cases i with
    | zero => exact ⟨hchar, not_not.mp hst⟩
    | succ i => exact hj i (by omega)

end

omit [Support] in
/-- Characters one by one. -/
theorem typed_iff {a : Word} : (∀ k, Typed io k → UserBuffer a k) ↔
    ∀ j, (∀ i < j, (io i).char ≠ 0x0A ∧ io i &&& 0xFF = receiveChar) → (io j).char ≠ 0x0A →
      kUseg2Addr ≤ a + BitVec.ofNat 32 j := by
  constructor
  · intro h j hj hchar
    refine userBuffer_iff.mp (h (j + 1) fun i hi => ?_) j (by omega)
    by_cases hij : i = j
    · exact ⟨hij ▸ hchar, fun hlt => by omega⟩
    · exact ⟨(hj i (by omega)).1, fun _ => (hj i (by omega)).2⟩
  · intro h k hk
    refine userBuffer_iff.mpr fun j hj => h j (fun i hi => ?_) (hk j hj).1
    exact ⟨(hk i (by omega)).1, (hk i (by omega)).2 (by omega)⟩

omit [Support] in
/-- Characters one by one. -/
theorem sent_iff {a : Word} {len : ℤ} :
    (∀ k : ℕ, k ≤ len → Sent io k → UserBuffer a k) ↔
      ∀ j < len.toNat, (∀ i < j, io i &&& 0xFF = transmitChar) →
        kUseg2Addr ≤ a + BitVec.ofNat 32 j := by
  constructor
  · intro h j hj hsent
    exact userBuffer_iff.mp (h (j + 1) (by omega) fun i hi => hsent i (by omega)) j (by omega)
  · intro h k hk hsent
    refine userBuffer_iff.mpr fun j hj => h j (by omega) fun i hi => hsent i (by omega)

omit [Support] in
theorem readTerminal_ok {fuel : ℕ} {a : Word} (h1 : 1 ≤ p.procID) (h8 : p.procID ≤ 8)
    (h : ∀ k, Typed io k → UserBuffer a k) :
    Prog.wpx (UserCall.readTerminal.contract p) (Jaeos.readTerminal fuel a p.procID)
      (fun _ _ => True) (fun _ _ => True) io := by
  have hmutex : UserCall.readTerminal.Mutex (termReadSem + (p.procID - 1)) :=
    ⟨by omega, by omega⟩
  simp only [Jaeos.readTerminal, Prog.wpx_bind]
  refine may hmutex fun _ _ => ?_
  refine readTerminalLoop ⟨by omega, by omega⟩ _ _ _ (fun _ _ => ?_) (fun _ _ => trivial)
    (typed_iff.mp h)
  exact may trivial fun _ _ => may hmutex fun _ _ => trivial

omit [Support] in
theorem writeTerminal_ok {a : Word} {len : ℤ} (h1 : 1 ≤ p.procID) (h8 : p.procID ≤ 8)
    (h : ∀ k : ℕ, k ≤ len → Sent io k → UserBuffer a k) :
    Prog.wpx (UserCall.writeTerminal.contract p) (Jaeos.writeTerminal a len p.procID)
      (fun _ _ => True) (fun _ _ => True) io := by
  have hmutex : UserCall.writeTerminal.Mutex (termWriteSem + (p.procID - 1)) :=
    ⟨by omega, by omega⟩
  simp only [Jaeos.writeTerminal, Prog.wpx_bind]
  refine may hmutex fun _ _ => ?_
  refine writeTerminalLoop ⟨by omega, by omega⟩ _ _ (fun _ => ?_) (fun _ _ => trivial)
    (sent_iff.mp h)
  exact may hmutex fun _ _ => trivial

theorem vSemVirt_ok {a : Word} (ha : kUseg3Addr ≤ a ∧ a.toNat + 4 ≤ 2 ^ 32) :
    Prog.wpx (UserCall.vSemVirt.contract p) (Jaeos.vSemVirt p.procID a)
      (fun _ _ => True) (fun _ _ => True) io := by
  simp only [Jaeos.vSemVirt, Prog.wpx_bind]
  refine may ha fun _ _ => may ha fun _ _ => may ha fun _ _ => ?_
  split
  · simp only [Prog.wpx_bind]
    refine may trivial fun _ _ => ?_
    split
    · rw [Prog.wpx_bind]
      exact virtualDeath
    · exact may trivial fun _ _ => trivial
  · trivial

omit [Support] in
theorem pSemVirt_ok {a : Word} (ha : kUseg3Addr ≤ a ∧ a.toNat + 4 ≤ 2 ^ 32) :
    Prog.wpx (UserCall.pSemVirt.contract p) (Jaeos.pSemVirt p.procID a)
      (fun _ _ => True) (fun _ _ => True) io := by
  simp only [Jaeos.pSemVirt, Prog.wpx_bind]
  refine may ha fun _ _ => may ha fun _ _ => may ha fun _ _ => ?_
  split
  · simp only [Prog.wpx_bind]
    exact may trivial fun _ _ => may trivial fun _ _ => trivial
  · trivial

/-- The disk calls. -/
structure IsDisk (c : UserCall) : Prop where
  /-- the disks 1 to 7 -/
  device : ∀ i, 1 ≤ i → i ≤ 7 → c.Device i
  /-- their mutexes -/
  mutex : ∀ i, 1 ≤ i → i ≤ 7 → c.Mutex i
  /-- the segments of the user, and the buffers -/
  memory : ∀ a, c.Memory a ↔ UserWord a ∨ BufferWord a

omit [Support] in
theorem diskPut_isDisk : IsDisk diskPut :=
    ⟨fun _ h h' => ⟨h, h'⟩, fun _ h h' => ⟨h, h'⟩, fun _ => .rfl⟩

omit [Support] in
theorem diskGet_isDisk : IsDisk diskGet :=
    ⟨fun _ h h' => ⟨h, h'⟩, fun _ h h' => ⟨h, h'⟩, fun _ => .rfl⟩

omit [Support] in
theorem diskTransfer {diskNo head cylinder sector comm : Word} {Q : Word → (ℕ → Word) → Prop}
    (hc : c.IsDisk) (h1 : 1 ≤ diskNo.toInt) (h7 : diskNo.toInt ≤ 7) (hQ : ∀ b io, Q b io) :
    Prog.wpx (c.contract p) (Jaeos.diskTransfer diskNo head cylinder sector comm) Q E io := by
  have hdev := hc.device _ h1 h7
  have hio : c.Device ((diskInt - diskInt) * 8 + diskNo.toInt) := by simpa using hdev
  have hbuf : diskBuffer diskNo = diskBuffer (word diskNo.toInt) := by
    rw [word, BitVec.ofInt_toInt]
  simp only [Jaeos.diskTransfer, Prog.wpx_bind]
  refine enableInterrupts _ (may hdev fun _ _ => may hio fun _ _ => enableInterrupts _ ?_)
  split
  · simp only [Prog.wpx_bind]
    refine enableInterrupts _ (may ⟨hdev, hbuf⟩ fun _ _ => may hdev fun _ _ => ?_)
    exact may hio fun _ _ => enableInterrupts _ (hQ _ _)
  · exact hQ _ _

theorem diskIo_ok {a diskNo sectNo comm : Word} (hc : c.IsDisk)
    (h : diskNo.toInt ≤ 0 ∨ a < kUseg2Addr ∨ diskNo.toInt ≤ 7 ∧ UserBuffer a 4096) :
    Prog.wpx (c.contract p) (diskIo a diskNo sectNo comm p.procID) (fun _ _ => True)
      (fun _ _ => True) io := by
  simp only [diskIo]
  split
  · rw [Prog.wpx_bind]
    exact virtualDeath
  rename_i hin
  obtain ⟨hpos, ha⟩ := not_or.mp hin
  obtain ⟨h7, hbuf⟩ := (h.resolve_left hpos).resolve_left ha
  have h1 : 1 ≤ diskNo.toInt := by omega
  have huser : ∀ i < 1024, c.Memory (a + BitVec.ofNat 32 (4 * i)) := fun i hi =>
    (hc.memory _).mpr (.inl (UserBuffer.word hbuf hi))
  have hdisk : ∀ i < 1024, c.Memory (diskBuffer diskNo + BitVec.ofNat 32 (4 * i)) := fun i hi =>
    (hc.memory _).mpr (.inr (bufferWord h1 h7 hi))
  have hcopy : ∀ (t : Prop) [Decidable t] (a b : Word) {Q : Unit → (ℕ → Word) → Prop} {io},
      (∀ i < 1024, c.Memory (a + BitVec.ofNat 32 (4 * i))) →
        (∀ i < 1024, c.Memory (b + BitVec.ofNat 32 (4 * i))) → Q () io →
          Prog.wpx (c.contract p) (if t then copyPage a b else pure ()) Q (fun _ _ => True) io := by
    intro t _ a b Q io ha hb hQ
    split
    · exact copyWords _ _ _ ha hb hQ
    · exact hQ
  split
  · trivial
  simp only [Prog.wpx_bind]
  refine may (hc.mutex _ h1 h7) fun _ _ => hcopy _ _ _ huser hdisk ?_
  refine diskTransfer hc h1 h7 fun _ _ => hcopy _ _ _ hdisk huser ?_
  exact may trivial fun _ _ => may (hc.mutex _ h1 h7) fun _ _ => trivial

/-- The contract reads the number and the registers of the caller. -/
theorem handler_ok {fuel : ℕ} (hnum : p.regs sA1 = c.num) (h1 : 1 ≤ p.procID) (h8 : p.procID ≤ 8)
    (h : c.Harmless p.regs io) :
    Prog.wpx (c.contract p) (vmSysHandler fuel) (fun _ _ => True) (fun _ _ => True) io := by
  refine Caller.handler (fun h b hb => ⟨trivial, h b hb⟩) (fun h b hb => ⟨trivial, hb ▸ h⟩) ?_
  rw [Caller.service, hnum]
  cases c with
  | readTerminal => exact readTerminal_ok h1 h8 h
  | writeTerminal => exact writeTerminal_ok h1 h8 h
  | vSemVirt => exact vSemVirt_ok h
  | pSemVirt => exact pSemVirt_ok h
  | diskPut => exact diskIo_ok diskPut_isDisk h
  | diskGet => exact diskIo_ok diskGet_isDisk h

end UserCall

end

/-! ## The condition is needed -/

section

variable {c : UserCall} {p : Caller}

/-- The notes: the statuses still to come, and whether only what may be used has been used. -/
abbrev CallNotes : Type := (ℕ → Word) × Prop

/-- Some run of a call. -/
abbrev UserCall.some (c : UserCall) (p : Caller) : Prog.Contract SupOp CallNotes :=
  Prog.possible (fun β o b g => p.law β o b g.1)
    (Prog.strict (fun β o _ _ => c.ok β o) Caller.see)

/-- Some run of a program ends after something was used that may not be. -/
def UserCall.Escapes {α : Type} (c : UserCall) (p : Caller) (m : SupM α) (g : CallNotes) : Prop :=
  Prog.wpx (c.some p) m (fun _ g => ¬ g.2) (fun _ g => ¬ g.2) g

namespace Caller

/-- Each operation has a result that the caller and the devices can give. -/
theorem exists_result (h1 : 1 ≤ p.procID) (h8 : p.procID ≤ 8) {α : Type} (o : SupOp α)
    (io : ℕ → Word) : ∃ b, p.law α o b io := by
  obtain ⟨b⟩ := o.exists_result
  cases o with
  | getEntryHi => exact ⟨_, asid_word (by omega) (by omega)⟩
  | readOld => exact ⟨_, rfl⟩
  | waitForIo => exact ⟨_, rfl⟩
  | _ => exact ⟨b, trivial⟩

end Caller

namespace UserCall.Escapes

variable {α β : Type} {g : CallNotes}

/-- What has been used stays used. -/
theorem finish (h1 : 1 ≤ p.procID) (h8 : p.procID ≤ 8) (m : SupM α) (h : ¬ g.2) :
    c.Escapes p m g := by
  have hkeep : m.run.wp (c.some p) (fun _ g => ¬ g.2) g := by
    refine Prog.possible_of_keeps (I := fun g : CallNotes => ¬ g.2)
      (fun o g => Caller.exists_result h1 h8 o g.1) ?_ m.run h
    exact fun _ _ _ h h' => h h'.1
  refine Prog.wp_mono Prog.possible_mono (fun r g hr => ?_) hkeep
  cases r with
  | ok a => exact hr
  | error e => exact hr

/-- An operation that may not be used. -/
theorem mark (h1 : 1 ≤ p.procID) (h8 : p.procID ≤ 8) {o : SupOp α} {f : α → SupM β}
    (hbad : ¬ c.ok α o) : c.Escapes p (sup o >>= f) g := by
  obtain ⟨b, hb⟩ := Caller.exists_result h1 h8 o g.1
  rw [Escapes, Prog.wpx_bind]
  exact ⟨b, hb, finish h1 h8 (f b) fun h => hbad h.2⟩

/-- An operation, and what comes after it. -/
theorem step {o : SupOp α} {f : α → SupM β} (b : α) (hb : p.law α o b g.1)
    (h : ∀ g' : CallNotes, g'.1 = Caller.see α o b g.1 → c.Escapes p (f b) g') :
    c.Escapes p (sup o >>= f) g := by
  rw [Escapes, Prog.wpx_bind]
  exact ⟨b, hb, h _ rfl⟩

theorem enableInterrupts {b : Bool} {f : Unit → SupM β}
    (h : ∀ g' : CallNotes, g'.1 = g.1 → c.Escapes p (f ()) g') :
    c.Escapes p (Jaeos.enableInterrupts b >>= f) g := by
  rw [Jaeos.enableInterrupts, bind_assoc]
  refine step 0 trivial fun g' hg => step () trivial fun g'' hg' => h g'' (hg'.trans hg)

/-- A word that may not be used is copied. -/
theorem copyWords (h1 : 1 ≤ p.procID) (h8 : p.procID ≤ 8) {k i : ℕ} {source target : Word}
    {f : Unit → SupM β} (hi : i < k)
    (hbad : ¬ c.Memory (source + BitVec.ofNat 32 (4 * i)) ∨
      ¬ c.Memory (target + BitVec.ofNat 32 (4 * i))) :
    c.Escapes p (Jaeos.copyWords k source target >>= f) g := by
  induction k generalizing i source target g with
  | zero => omega
  | succ k ih =>
    simp only [Jaeos.copyWords, bind_assoc]
    cases i with
    | zero =>
      simp only [Nat.mul_zero, BitVec.add_zero] at hbad
      by_cases hs : c.Memory source
      · refine step 0 trivial fun g' _ => mark h1 h8 (hbad.resolve_left (not_not.mpr hs))
      · exact mark h1 h8 hs
    | succ i =>
      have hshift : ∀ a : Word,
          a + BitVec.ofNat 32 (4 * (i + 1)) = a + 4 + BitVec.ofNat 32 (4 * i) := by
        intro a
        bv_omega
      rw [hshift, hshift] at hbad
      exact step 0 trivial fun _ _ => step () trivial fun _ _ => ih (by omega) hbad

theorem shift_one (a : Word) (j : ℕ) :
    a + BitVec.ofNat 32 (j + 1) = a + 1 + BitVec.ofNat 32 j := by
  bv_omega

/-- A character goes where it may not. -/
theorem readTerminalLoop (h1 : 1 ≤ p.procID) (h8 : p.procID ≤ 8) {dev : ℤ} {fuel j : ℕ}
    {a count : Word} {f : Word → SupM β} (hfuel : j < fuel)
    (hj : ∀ i < j, (g.1 i).char ≠ 0x0A ∧ g.1 i &&& 0xFF = receiveChar)
    (hchar : (g.1 j).char ≠ 0x0A) (hbad : ¬ kUseg2Addr ≤ a + BitVec.ofNat 32 j) :
    UserCall.readTerminal.Escapes p
      (Jaeos.readTerminalLoop dev p.procID fuel a count >>= f) g := by
  induction fuel generalizing a count g j with
  | zero => omega
  | succ fuel ih =>
    simp only [Jaeos.readTerminalLoop, bind_assoc]
    refine enableInterrupts fun g₁ hg₁ => step () trivial fun g₂ hg₂ => ?_
    have hg : g₂.1 = g.1 := hg₂.trans hg₁
    refine step (g₂.1 0) rfl fun g₃ hg₃ => enableInterrupts fun g₄ hg₄ => ?_
    rw [hg] at hg₃ ⊢
    cases j with
    | zero =>
      have hne : ¬ (g.1 0 &&& 0xFF00) >>> 8 = 0x0A := hchar
      rw [if_neg hne, bind_assoc]
      exact mark h1 h8 (show ¬ kUseg2Addr ≤ a by simpa using hbad)
    | succ j =>
      obtain ⟨hne, hst⟩ := hj 0 (by omega)
      have hne : ¬ (g.1 0 &&& 0xFF00) >>> 8 = 0x0A := hne
      rw [if_neg hne, bind_assoc]
      refine step () trivial fun g₅ hg₅ => ?_
      have hio : g₅.1 = fun i => g.1 (i + 1) := (hg₅.trans hg₄).trans hg₃
      rw [if_neg (not_not.mpr hst)]
      refine ih (j := j) (by omega) (fun i hi => ?_) ?_ ?_
      · rw [hio]
        exact hj (i + 1) (by omega)
      · rw [hio]
        exact hchar
      · rw [← shift_one]
        exact hbad

/-- A character comes from where it may not. -/
theorem writeTerminalLoop (h1 : 1 ≤ p.procID) (h8 : p.procID ≤ 8) {dev : ℤ} {k j : ℕ}
    {a : Word} {f : Unit → SupM β} (hk : j < k)
    (hj : ∀ i < j, g.1 i &&& 0xFF = transmitChar)
    (hbad : ¬ kUseg2Addr ≤ a + BitVec.ofNat 32 j) :
    UserCall.writeTerminal.Escapes p
      (Jaeos.writeTerminalLoop dev p.procID k a >>= f) g := by
  induction k generalizing a g j with
  | zero => omega
  | succ k ih =>
    simp only [Jaeos.writeTerminalLoop, bind_assoc]
    refine enableInterrupts fun g₁ hg₁ => ?_
    cases j with
    | zero => exact mark h1 h8 (show ¬ kUseg2Addr ≤ a by simpa using hbad)
    | succ j =>
      refine step 0 trivial fun g₂ hg₂ => step () trivial fun g₃ hg₃ => ?_
      have hg : g₃.1 = g.1 := (hg₃.trans hg₂).trans hg₁
      refine step (g₃.1 0) rfl fun g₄ hg₄ => enableInterrupts fun g₅ hg₅ => ?_
      rw [hg] at hg₄ ⊢
      have hio : g₅.1 = fun i => g.1 (i + 1) := hg₅.trans hg₄
      rw [if_neg (not_not.mpr (hj 0 (by omega)))]
      refine ih (j := j) (by omega) (fun i hi => ?_) ?_
      · rw [hio]
        exact hj (i + 1) (by omega)
      · rw [← shift_one]
        exact hbad

/-- A disk call for a disk that does not exist, or with a block that does not fit. -/
theorem diskIo [Support] (h1 : 1 ≤ p.procID) (h8 : p.procID ≤ 8) {a diskNo sectNo comm : Word}
    (hmutex : ∀ i, c.Mutex i → i ≤ 7) (hmem : ∀ a, c.Memory a → UserWord a ∨ BufferWord a)
    (hcomm : comm = writeBlk ∨ comm = readBlk)
    (h : ¬ (diskNo.toInt ≤ 0 ∨ a < kUseg2Addr ∨ diskNo.toInt ≤ 7 ∧ UserBuffer a 4096)) :
    c.Escapes p ( Jaeos.diskIo a diskNo sectNo comm p.procID) g := by
  obtain ⟨hpos, hrest⟩ := not_or.mp h
  obtain ⟨ha, hfit⟩ := not_or.mp hrest
  have hcheck : ¬ (diskNo.toInt ≤ 0 ∨ a < kUseg2Addr) := not_or.mpr ⟨hpos, ha⟩
  have hknown : ¬ (comm ≠ writeBlk ∧ comm ≠ readBlk) := fun h => hcomm.elim h.1 h.2
  simp only [ Jaeos.diskIo, if_neg hcheck, if_neg hknown]
  by_cases h7 : diskNo.toInt ≤ 7
  · obtain ⟨i, hi, hbad⟩ := exists_bad_word (k := 1024) (fun hb => hfit ⟨h7, hb⟩)
      (by simpa using ha)
    have hbad := mt (hmem _) hbad
    refine step () trivial fun g₁ _ => ?_
    rcases hcomm with rfl | rfl
    · rw [if_pos rfl]
      exact copyWords h1 h8 hi (.inl hbad)
    · rw [if_neg (by decide), if_pos rfl, pure_bind]
      refine Prog.Returns.andThen (diskTransfer_returns fun o => .lift fun g =>
        Caller.exists_result h1 h8 o g.1) (fun _ _ => ?_) g₁
      exact copyWords h1 h8 hi (.inr hbad)
  · exact mark h1 h8 fun hm => h7 (hmutex _ hm)

/-- The handler escapes if what the call asks for does. -/
theorem handler [Support] (h1 : 1 ≤ p.procID) (h8 : p.procID ≤ 8) {fuel : ℕ}
    (h : c.Escapes p (p.service fuel) g) : c.Escapes p (vmSysHandler fuel) g := by
  have hkeep : ∀ g : CallNotes, (g.1, g.2 ∧ True) = g := fun g => Prod.ext rfl (and_true _)
  refine Caller.handler (fun {Q s} h => ?_) (fun {r Q s} h => ?_) h
  · have hasid : asid (word p.procID <<< asidShift) = p.procID := asid_word (by omega) (by omega)
    refine ⟨_, hasid, ?_⟩
    change Q _ (s.1, s.2 ∧ True)
    rw [hkeep]
    exact h _ hasid
  · refine ⟨_, rfl, ?_⟩
    change Q _ (s.1, s.2 ∧ True)
    rw [hkeep]
    exact h

/-- If the condition does not hold, some run of the handler uses what it may not. -/
theorem exists_fuel [Support] (hnum : p.regs sA1 = c.num) (h1 : 1 ≤ p.procID) (h8 : p.procID ≤ 8)
    {io : ℕ → Word} (h : ¬ c.Harmless p.regs io) :
    ∃ fuel, c.Escapes p (vmSysHandler fuel) (io, True) := by
  cases c with
  | readTerminal =>
    have hbad := mt typed_iff.mpr h
    push Not at hbad
    obtain ⟨j, hj, hchar, hlt⟩ := hbad
    refine ⟨j + 1, handler h1 h8 ?_⟩
    rw [Caller.service, hnum]
    refine step () trivial fun g hg => ?_
    exact readTerminalLoop h1 h8 (Nat.lt_succ_self j) (by rw [hg]; exact hj)
      (by rw [hg]; exact hchar)
      (by simpa using hlt)
  | writeTerminal =>
    have hbad := mt sent_iff.mpr h
    push Not at hbad
    obtain ⟨j, hj, hsent, hlt⟩ := hbad
    refine ⟨0, handler h1 h8 ?_⟩
    rw [Caller.service, hnum]
    refine step () trivial fun g hg => ?_
    exact writeTerminalLoop h1 h8 hj (by rw [hg]; exact hsent) (by simpa using hlt)
  | vSemVirt =>
    refine ⟨0, handler h1 h8 ?_⟩
    rw [Caller.service, hnum]
    exact mark h1 h8 h
  | pSemVirt =>
    refine ⟨0, handler h1 h8 ?_⟩
    rw [Caller.service, hnum]
    exact mark h1 h8 h
  | diskPut =>
    refine ⟨0, handler h1 h8 ?_⟩
    rw [Caller.service, hnum]
    exact diskIo h1 h8 (fun _ h => h.2) (fun _ h => h) (.inl rfl) h
  | diskGet =>
    refine ⟨0, handler h1 h8 ?_⟩
    rw [Caller.service, hnum]
    exact diskIo h1 h8 (fun _ h => h.2) (fun _ h => h) (.inr rfl) h

end UserCall.Escapes

end

/-! ## Confinement -/

section

variable [Support] {c : UserCall} {p : Caller} {io : ℕ → Word} {tr : List (Prog.Event SupOp)}

/-- A handler that terminates the caller first uses nothing on its behalf. -/
theorem Dies.ok (h : Dies p.procID tr) (hlaw : Prog.Along p.law Caller.see io tr) :
    ∀ e ∈ tr, c.ok _ e.2.1 := by
  obtain ⟨pre, post, r, rfl, hpre, hpost⟩ := h
  intro e he
  rcases List.mem_append.mp he with he | he
  · have hreads := hpre e he
    obtain ⟨β, o, b⟩ := e
    cases o <;> trivial
  · have hwp : Prog.wpx (c.contract p) (virtualDeath p.procID : SupM Unit) (fun _ _ => True)
        (fun _ _ => True) (Prog.notes Caller.see io pre) := UserCall.virtualDeath
    have hdeath := Prog.of_tracked hwp hpost (Prog.along_append.mp hlaw).2
    exact Prog.along_const.mp hdeath.1 e he

theorem confined_iff_ok (hlaw : Prog.Along p.law Caller.see io tr) :
    Confined c p.procID tr ↔ ∀ e ∈ tr, c.ok _ e.2.1 :=
  ⟨fun h => h.elim (fun hd => hd.ok hlaw) id, .inr⟩

/-- If the condition does not hold, some trace of the handler is not confined. -/
theorem exists_unconfined (hnum : p.regs sA1 = c.num) (h1 : 1 ≤ p.procID) (h8 : p.procID ≤ 8)
    (h : ¬ c.Harmless p.regs io) : ∃ fuel tr r, (vmSysHandler fuel).run.Trace tr r ∧
      Prog.Along p.law Caller.see io tr ∧ ¬ Confined c p.procID tr := by
  obtain ⟨fuel, hesc⟩ := UserCall.Escapes.exists_fuel hnum h1 h8 h
  obtain ⟨tr, r, htr, hlaw, hr⟩ := Prog.exists_trace hesc
  have hlaw := Prog.along_strict.mp hlaw
  refine ⟨fuel, tr, r, htr, hlaw, fun hconf => ?_⟩
  have hmark :
    ¬ (Prog.notes (Prog.strict (fun β o _ _ => c.ok β o) Caller.see) (io, True) tr).2 := by
    cases r with
    | ok a => exact hr
    | error e => exact hr
  have hall : Prog.Along (fun β o _ _ => c.ok β o) Caller.see io tr :=
    Prog.along_const.mpr ((confined_iff_ok hlaw).mp hconf)
  exact hmark (Prog.notes_strict.mpr ⟨trivial, hall⟩)

/-- The handler of a call is confined exactly when the registers of the caller, and the statuses
of its terminal, are harmless. -/
theorem confined_iff (hnum : p.regs sA1 = c.num) (h1 : 1 ≤ p.procID) (h8 : p.procID ≤ 8) :
    (∀ fuel tr r, (vmSysHandler fuel).run.Trace tr r → Prog.Along p.law Caller.see io tr →
      Confined c p.procID tr) ↔ c.Harmless p.regs io := by
  constructor
  · intro h
    by_contra hbad
    obtain ⟨fuel, tr, r, htr, hlaw, hconf⟩ := exists_unconfined hnum h1 h8 hbad
    exact hconf (h fuel tr r htr hlaw)
  · intro h fuel tr r htr hlaw
    have hall := Prog.of_tracked (UserCall.handler_ok hnum h1 h8 h) htr hlaw
    exact .inr (Prog.along_const.mp hall.1)

end

/-- A process that does SYS12 on a word. -/
abbrev samplePsem (a : Word) : Caller :=
    ⟨1, fun r => if r = sA1 then 12 else if r = sA2 then a else 0⟩

/-- SYS12 on a word of kUseg3. -/
theorem confined_iff_psem : ∃ (_ : Support), ∀ io fuel tr r, (vmSysHandler fuel).run.Trace tr r →
    Prog.Along (samplePsem kUseg3Addr).law Caller.see io tr → Confined .pSemVirt 1 tr := by
  let _ := sampleSupport
  let p := samplePsem kUseg3Addr
  have hok : UserCall.pSemVirt.Harmless p.regs fun _ => 0 := ⟨by decide, by decide⟩
  exact ⟨sampleSupport, fun io =>
    (confined_iff (c := .pSemVirt) (p := p) rfl (by decide) (by decide)).mpr hok⟩

/-- SYS12 on the word at address 0. -/
theorem confined_fails : ¬ ∀ (_ : Support) (c : UserCall) (p : Caller), p.regs sA1 = c.num →
    1 ≤ p.procID → p.procID ≤ 8 → ∀ io fuel tr r, (vmSysHandler fuel).run.Trace tr r →
      Prog.Along p.law Caller.see io tr → Confined c p.procID tr := by
  intro h
  let _ := sampleSupport
  have hbad : ¬ UserCall.pSemVirt.Harmless (samplePsem 0).regs fun _ => 0 :=
    fun h => absurd h.1 (by decide)
  obtain ⟨fuel, tr, r, htr, hlaw, hconf⟩ := exists_unconfined (c := .pSemVirt) (p := samplePsem 0)
    rfl (by decide) (by decide) hbad
  exact hconf
    (h sampleSupport .pSemVirt (samplePsem 0) rfl (by decide) (by decide) _ fuel tr r htr hlaw)

end Jaeos
