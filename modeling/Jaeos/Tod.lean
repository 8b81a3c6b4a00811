import Jaeos.Clock
import Mathlib.Data.Rat.Floor
import Mathlib.Tactic.FieldSimp
import Mathlib.Tactic.Linarith

/-!
# Elapsed time in 32 bits

`STCK` divides the low word of the clock by the time scale, and the handlers subtract two
such readings. All of this is signed arithmetic on words (`cpu_t`). The nucleus counts in
integers; `ClockWords` holds the same variables as words, and `ClockWords.does_chargeTime` says when
the two agree.
-/

namespace Jaeos

/-! ## Readings -/

/-- `TODLO` after so many ticks -/
def todLo (ticks : ℤ) : Word := BitVec.ofInt 32 ticks

/-- `STCK`, from `TODLO` and `TIMESCALE` -/
def stck (todLo timeScale : Word) : Word := todLo.sdiv timeScale

/-- `stopTOD - startTOD`, when the clock is read at these two instants -/
def elapsedTime (timeScale : Word) (start stop : ℤ) : Word :=
  stck (todLo stop) timeScale - stck (todLo start) timeScale

/-! ## Charging -/

/-- What is kept about the time of the current process. -/
structure ClockWords where
  /-- `p_time` -/
  pTime : Word
  /-- `timeLeft` -/
  timeLeft : Word
  /-- `startTOD` -/
  startTOD : Word

namespace ClockWords

/-- The elapsed time is added to `p_time` and taken from `timeLeft`. -/
def charge (a : ClockWords) (stopTOD : Word) : ClockWords :=
  let elapsedTime := stopTOD - a.startTOD
  { a with pTime := a.pTime + elapsedTime, timeLeft := a.timeLeft - elapsedTime }

/-- The new totals are values of `cpu_t`. -/
structure Fits (a : ClockWords) (elapsedTime : ℤ) : Prop where
  /-- `p_time` -/
  pTime : -2 ^ 31 ≤ a.pTime.toInt + elapsedTime ∧ a.pTime.toInt + elapsedTime < 2 ^ 31
  /-- `timeLeft` -/
  timeLeft : -2 ^ 31 ≤ a.timeLeft.toInt - elapsedTime ∧ a.timeLeft.toInt - elapsedTime < 2 ^ 31

/-- A value of `cpu_t` -/
theorem bmod_of_fits {x : ℤ} (h : -2 ^ 31 ≤ x ∧ x < 2 ^ 31) : x.bmod (2 ^ 32) = x := by
  obtain ⟨hlo, hhi⟩ := h
  apply Int.bmod_eq_of_le
  · omega
  · omega

theorem Fits.charge {a : ClockWords} {stopTOD : Word} (h : a.Fits (stopTOD - a.startTOD).toInt) :
    (a.charge stopTOD).pTime.toInt = a.pTime.toInt + (stopTOD - a.startTOD).toInt ∧
      (a.charge stopTOD).timeLeft.toInt = a.timeLeft.toInt - (stopTOD - a.startTOD).toInt := by
  refine ⟨?_, ?_⟩
  · rw [ClockWords.charge, BitVec.toInt_add]
    exact bmod_of_fits h.pTime
  · rw [ClockWords.charge, BitVec.toInt_sub]
    exact bmod_of_fits h.timeLeft

/-- The nucleus keeps this account of a process, and the handler has read `stopTOD`. -/
structure Of {n : ℕ} (a : ClockWords) (p : Fin n) (stopTOD : Word) (c : Nucleus n) : Prop where
  /-- `p_time` -/
  pTime : c.store.pTime p = a.pTime.toInt
  /-- `timeLeft` -/
  timeLeft : c.clock.timeLeft = a.timeLeft.toInt
  /-- the difference of the readings -/
  elapsed : c.clock.todIn - c.clock.startTOD = (stopTOD - a.startTOD).toInt

/-- As long as the totals are values of `cpu_t`, the handlers charge what the nucleus charges. -/
theorem does_chargeTime {n : ℕ} {a : ClockWords} {p : Fin n} {stopTOD : Word} {c : Nucleus n}
    (h : a.Of p stopTOD c) (hfits : a.Fits (stopTOD - a.startTOD).toInt) :
    (chargeTime p).wp NucOp.does (fun _ c' => c'.store.pTime p = (a.charge stopTOD).pTime.toInt ∧
      c'.clock.timeLeft = (a.charge stopTOD).timeLeft.toInt) c := by
  simp only [chargeTime, Prog.wp_bind, does_globals, does_modifyData, does_modifyClock]
  obtain ⟨hp, ht⟩ := hfits.charge
  refine ⟨?_, ?_⟩
  · rw [hp, ← h.pTime, ← h.elapsed]
    exact Function.update_self ..
  · rw [ht, ← h.timeLeft, ← h.elapsed]

end ClockWords

/-! ## Truncated quotients -/

/-- A truncated quotient is off by less than one. -/
theorem mul_tdiv_near {c : ℤ} (hc : 0 < c) (r : ℤ) :
    c * r.tdiv c - r < c ∧ -c < c * r.tdiv c - r := by
  have hdiv := Int.mul_tdiv_add_tmod r c
  have hlt := Int.tmod_lt_of_pos r hc
  have hgt := Int.lt_tmod_of_pos r hc
  omega

/-- The quotient has the sign of the value. -/
theorem tdiv_sign {c : ℤ} (hc : 0 < c) (r : ℤ) : (0 ≤ r → 0 ≤ r.tdiv c) ∧
    (r ≤ 0 → r.tdiv c ≤ 0) := by
  have hle := hc.le
  refine ⟨fun h => Int.tdiv_nonneg h hle, fun h => ?_⟩
  have hneg : 0 ≤ (-r).tdiv c := Int.tdiv_nonneg (by omega) hle
  rw [Int.neg_tdiv] at hneg
  omega

/-- Nothing is left of a value below the divisor, and of no other. -/
theorem tdiv_eq_zero_iff {c : ℤ} (hc : 0 < c) (r : ℤ) : r.tdiv c = 0 ↔ -c < r ∧ r < c := by
  have hnear := mul_tdiv_near hc r
  refine ⟨fun h => ?_, fun h => ?_⟩
  · rw [h] at hnear
    omega
  · have habs : (r.tdiv c).natAbs = 0 := by
      rw [Int.natAbs_tdiv]
      exact Nat.div_eq_of_lt (by omega)
    omega

/-- Dividing by two or more halves a value, at least. -/
theorem tdiv_bounds {c r : ℤ} (hc : 2 ≤ c) (h : -2 ^ 31 ≤ r ∧ r < 2 ^ 31) :
    -2 ^ 30 ≤ r.tdiv c ∧ r.tdiv c < 2 ^ 30 := by
  have hsign := tdiv_sign (c := c) (by omega) r
  have hhalf : (r.tdiv c).natAbs ≤ r.natAbs / 2 := by
    rw [Int.natAbs_tdiv]
    exact Nat.div_le_div_left (by omega) (by decide)
  omega

/-! ## The clock -/

/-- The low word as a number -/
theorem todLo_toInt (t : ℤ) : (todLo t).toInt = t.bmod (2 ^ 32) := BitVec.toInt_ofInt t

/-- A reading, and how often the clock has wrapped. -/
theorem todLo_wraps (t : ℤ) : -2 ^ 31 ≤ (todLo t).toInt ∧ (todLo t).toInt < 2 ^ 31 ∧
    t = 2 ^ 32 * ((t + 2 ^ 31) / 2 ^ 32) + (todLo t).toInt := by
  rw [todLo_toInt, Int.bmod_def]
  split <;> omega

theorem stck_toInt {c : Word} (hc : 1 ≤ c.toInt) (t : ℤ) :
    (stck (todLo t) c).toInt = (todLo t).toInt.tdiv c.toInt := by
  refine BitVec.toInt_sdiv_of_ne_or_ne _ _ (.inr ?_)
  rintro rfl
  exact absurd hc (by decide)

/-- The difference of two quotients is a value of `cpu_t`, unless the divisor is one. -/
theorem elapsedTime_toInt {c : Word} (hc : 2 ≤ c.toInt) (start stop : ℤ) :
    (elapsedTime c start stop).toInt =
      (todLo stop).toInt.tdiv c.toInt - (todLo start).toInt.tdiv c.toInt := by
  obtain ⟨hlo, hhi, -⟩ := todLo_wraps start
  obtain ⟨hlo', hhi', -⟩ := todLo_wraps stop
  have hstart := tdiv_bounds hc ⟨hlo, hhi⟩
  have hstop := tdiv_bounds hc ⟨hlo', hhi'⟩
  have h1 : 1 ≤ c.toInt := by omega
  rw [elapsedTime, BitVec.toInt_sub, stck_toInt h1, stck_toInt h1]
  exact ClockWords.bmod_of_fits (by omega)

/-- With a divisor of one, the wrap of the clock cancels. -/
theorem elapsedTime_one {start stop : ℤ} (h : start ≤ stop) (hlt : stop - start < 2 ^ 31) :
    (elapsedTime 1 start stop).toInt = stop - start := by
  obtain ⟨-, -, hstart⟩ := todLo_wraps start
  obtain ⟨-, -, hstop⟩ := todLo_wraps stop
  have hone : (1 : Word).toInt = 1 := rfl
  rw [elapsedTime, BitVec.toInt_sub, stck_toInt (by decide), stck_toInt (by decide), hone,
    Int.tdiv_one, Int.tdiv_one, todLo_toInt, todLo_toInt, Int.bmod_sub_bmod, Int.sub_bmod_bmod]
  exact ClockWords.bmod_of_fits (by omega)

/-! ## When the difference is right -/

/-- The difference of two readings is off by less than two, and does not run backwards; and what
is charged with it does not either. -/
structure ElapsedCorrect (timeScale : Word) (start stop : ℤ) : Prop where
  /-- it is close to the number of units between them -/
  near : |((elapsedTime timeScale start stop).toInt : ℚ) - (stop - start : ℤ) / timeScale.toInt| < 2
  /-- it is not negative -/
  nonneg : 0 ≤ (elapsedTime timeScale start stop).toInt
  /-- `p_time` does not decrease, and `timeLeft` does not increase -/
  charge : ∀ a : ClockWords, a.startTOD = stck (todLo start) timeScale →
    a.Fits (elapsedTime timeScale start stop).toInt →
    a.pTime.toInt ≤ (a.charge (stck (todLo stop) timeScale)).pTime.toInt ∧
    (a.charge (stck (todLo stop) timeScale)).timeLeft.toInt ≤ a.timeLeft.toInt

/-- The low word does not go from its greatest value to its least between two instants. -/
def SameWrap (start stop : ℤ) : Prop := (start + 2 ^ 31) / 2 ^ 32 = (stop + 2 ^ 31) / 2 ^ 32

/-- The readings are below the time scale in size. -/
def BelowScale (timeScale : Word) (start stop : ℤ) : Prop :=
  (todLo start).toInt < timeScale.toInt ∧ -timeScale.toInt < (todLo stop).toInt

/-- What is close in units is close in ticks. -/
theorem near_iff {c : ℤ} (hc : 1 ≤ c) (d δ : ℤ) :
    |(d : ℚ) - (δ : ℤ) / c| < 2 ↔ c * d - δ < 2 * c ∧ -(2 * c) < c * d - δ := by
  have hpos : (0 : ℚ) < c := by exact_mod_cast hc
  have hmul : ((d : ℚ) - δ / c) = ((c * d - δ : ℤ) : ℚ) / c := by
    push_cast
    field_simp
  rw [hmul, abs_div, abs_of_pos hpos, div_lt_iff₀ hpos, abs_lt]
  constructor
  · rintro ⟨hlo, hhi⟩
    have hlo' : ((-(2 * c) : ℤ) : ℚ) < (c * d - δ : ℤ) := by
      push_cast at hlo ⊢
      linarith
    exact ⟨by exact_mod_cast hhi, by exact_mod_cast hlo'⟩
  · rintro ⟨hhi, hlo⟩
    have hlo' : ((-(2 * c) : ℤ) : ℚ) < (c * d - δ : ℤ) := by exact_mod_cast hlo
    push_cast at hlo' ⊢
    exact ⟨by linarith, by exact_mod_cast hhi⟩

/-- A difference that is close and not negative is charged correctly. -/
theorem ElapsedCorrect.of_near {c : Word} {start stop : ℤ} (hc : 1 ≤ c.toInt)
    (hnonneg : 0 ≤ (elapsedTime c start stop).toInt)
    (hnear : c.toInt * (elapsedTime c start stop).toInt - (stop - start) < 2 * c.toInt ∧
      -(2 * c.toInt) < c.toInt * (elapsedTime c start stop).toInt - (stop - start)) :
    ElapsedCorrect c start stop where
  near := (near_iff hc _ _).mpr hnear
  nonneg := hnonneg
  charge a ha hfits := by
    have he : elapsedTime c start stop = stck (todLo stop) c - a.startTOD := by
      rw [ha]
      rfl
    rw [he] at hfits hnonneg
    obtain ⟨hp, ht⟩ := hfits.charge
    omega

/-- The difference of two readings is right exactly if the time scale is one, the clock does not
wrap between them, or both readings are below the time scale. -/
theorem elapsedCorrect_iff {c : Word} {start stop : ℤ} (hc : 1 ≤ c.toInt) (h : start ≤ stop)
    (hlt : stop - start < 2 ^ 31) :
    ElapsedCorrect c start stop ↔
      c.toInt = 1 ∨ SameWrap start stop ∨ BelowScale c start stop := by
  obtain ⟨hlo, hhi, hstart⟩ := todLo_wraps start
  obtain ⟨hlo', hhi', hstop⟩ := todLo_wraps stop
  by_cases h1 : c.toInt = 1
  · have hone : c = 1 := BitVec.eq_of_toInt_eq h1
    subst hone
    have hd := elapsedTime_one h hlt
    refine iff_of_true (.of_near hc ?_ ?_) (.inl h1)
    · rw [hd]
      omega
    · rw [hd, h1]
      omega
  have h2 : 2 ≤ c.toInt := by omega
  have hpos : 0 < c.toInt := by omega
  have hd := elapsedTime_toInt h2 start stop
  have hnear := mul_tdiv_near hpos (todLo start).toInt
  have hnear' := mul_tdiv_near hpos (todLo stop).toInt
  have hmul : c.toInt * (elapsedTime c start stop).toInt =
      c.toInt * (todLo stop).toInt.tdiv c.toInt - c.toInt * (todLo start).toInt.tdiv c.toInt := by
    rw [hd, mul_sub]
  by_cases hwrap : SameWrap start stop
  · rw [SameWrap] at hwrap
    have hle : (todLo start).toInt ≤ (todLo stop).toInt := by omega
    refine iff_of_true (.of_near hc ?_ ?_) (.inr (.inl hwrap))
    · rw [hd]
      have := Int.tdiv_le_tdiv hpos hle
      omega
    · rw [hmul]
      omega
  · -- the clock wraps: the first reading is positive and the second negative
    have hsign := (tdiv_sign hpos (todLo start).toInt).1
    have hsign' := (tdiv_sign hpos (todLo stop).toInt).2
    have hzero := tdiv_eq_zero_iff hpos (todLo start).toInt
    have hzero' := tdiv_eq_zero_iff hpos (todLo stop).toInt
    have hcross : 0 ≤ (todLo start).toInt ∧ (todLo stop).toInt ≤ 0 ∧
        stop - start = (todLo stop).toInt - (todLo start).toInt + 2 ^ 32 := by
      rw [SameWrap] at hwrap
      omega
    obtain ⟨hpos', hneg', hgap⟩ := hcross
    constructor
    · rintro ⟨-, hnonneg, -⟩
      rw [hd] at hnonneg
      refine .inr (.inr ⟨?_, ?_⟩)
      · exact (hzero.mp (by have := hsign hpos'; have := hsign' hneg'; omega)).2
      · exact (hzero'.mp (by have := hsign hpos'; have := hsign' hneg'; omega)).1
    · rintro (h | h | ⟨hsmall, hsmall'⟩)
      · exact absurd h h1
      · exact absurd h hwrap
      · have hq := hzero.mpr ⟨by omega, hsmall⟩
        have hq' := hzero'.mpr ⟨hsmall', by omega⟩
        refine .of_near hc ?_ ?_
        · rw [hd, hq, hq']
          omega
        · rw [hmul, hq, hq']
          omega

/-- At a time scale of a million, in a stretch without a wrap. -/
theorem elapsedCorrect_iff_million : 1 ≤ (1000000 : Word).toInt ∧
    ElapsedCorrect 1000000 5000000 7000000 := by
  refine ⟨by decide, (elapsedCorrect_iff (by decide) (by decide) (by decide)).mpr (.inr (.inl ?_))⟩
  unfold SameWrap
  decide

/-- The clock wraps, and the difference is negative. -/
theorem elapsed_runs_backwards : ¬ ∀ (c : Word) (start stop : ℤ), 1 ≤ c.toInt → start ≤ stop →
    stop - start < 2 ^ 31 → ElapsedCorrect c start stop := by
  intro h
  have hbad := (h 1000000 (2 ^ 31 - 1) (2 ^ 31) (by decide) (by decide) (by decide)).nonneg
  exact absurd hbad (by decide)

end Jaeos
