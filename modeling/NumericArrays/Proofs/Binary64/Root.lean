import NumericArrays.Proofs.Binary64.Operations

/-! Roots are the exact ones, rounded. The exact root of a number may be irrational, so it is kept between
    rational numbers: where a square is not above a number, its side is not above the root. -/
namespace NumericArrays.Binary64

open Float.Model
open Float.Model.UnpackedFloat (Accuracy Sign)

variable {x y : Float} {u : UnpackedFloat} {q : ℚ} {m : ℕ} {e : ℤ}

/-! ### The root of a significand -/

/-- How far the exact root of a whole number lies above the whole one. -/
def rootAccuracy (m : ℕ) : Accuracy :=
  if m - m.sqrt * m.sqrt = 0 then .exact
  else .inexact (if m - m.sqrt * m.sqrt ≤ m.sqrt then .lt else .gt)

/-- The whole root and its accuracy stand for a number that is not below any `q` whose square is not above
    the number. -/
theorem exists_holds_sqrt (h : q ^ 2 ≤ m) :
    ∃ z, q ≤ z ∧ Holds (.ofMantissaAndAccuracy m.sqrt (rootAccuracy m)) z := by
  have hlow : m.sqrt * m.sqrt ≤ m := Nat.sqrt_le m
  have hhigh : m < (m.sqrt + 1) * (m.sqrt + 1) := Nat.lt_succ_sqrt m
  unfold rootAccuracy
  generalize m.sqrt = r at *
  have below {b : ℚ} (hb : 0 ≤ b) (hmb : (m : ℚ) < b ^ 2) : q < b := lt_of_pow_lt_pow_left₀ 2 hb (h.trans_lt hmb)
  split
  · have hsquare : (m : ℚ) = r ^ 2 := by
      rw [sq]
      exact_mod_cast show m = r * r by omega
    have hle : q ≤ r := le_of_pow_le_pow_left₀ two_ne_zero (Nat.cast_nonneg r) (h.trans_eq hsquare)
    exact ⟨r, hle, Holds.ofMantissa_exact r⟩
  · split
    · -- the remainder is at most the root, so the exact root is nearer to the whole one
      have hhalf : q < r + 1 / 2 := by
        have hle : (m : ℚ) ≤ r * r + r := by exact_mod_cast show m ≤ r * r + r by omega
        exact below (by positivity) (by linarith [show ((r : ℚ) + 1 / 2) ^ 2 = r * r + r + 1 / 4 by ring])
      refine ⟨max q (r + 1 / 4), le_max_left _ _, ?_⟩
      change (r : ℚ) < _ ∧ _ < (r : ℚ) + 1 / 2
      exact ⟨lt_max_of_lt_right (by linarith), max_lt hhalf (by linarith)⟩
    · have hnext : q < r + 1 := below (by positivity) (by rw [sq]; exact_mod_cast hhigh)
      refine ⟨max q (r + 3 / 4), le_max_left _ _, ?_⟩
      change (r : ℚ) + 1 / 2 < _ ∧ _ < (r : ℚ) + 1
      exact ⟨lt_max_of_lt_right (by linarith), max_lt hnext (by linarith)⟩

theorem sqrtCore_eq (m : ℕ) (e : ℤ) :
    ∃ (n : ℕ) (e' : ℤ), UnpackedFloat.sqrtCore .binary64 m e = ((m <<< n).sqrt, e', rootAccuracy (m <<< n)) ∧
      e = 2 * e' + n ∧ (e' ≤ -1074 ∨ 104 ≤ m.log2 + n) := by
  obtain ⟨e', he'⟩ : ∃ e', min (e.ediv 2) (max ((totalExponent m e + 1).ediv 2 - 53) (-1074)) = e' := ⟨_, rfl⟩
  have hhalf : e.ediv 2 = e / 2 := rfl
  have htotal : (totalExponent m e + 1).ediv 2 = ((m.log2 : ℤ) + 1 + e + 1) / 2 := rfl
  rw [hhalf, htotal] at he'
  obtain ⟨n, hn⟩ := Int.eq_ofNat_of_zero_le (show 0 ≤ e - 2 * e' by omega)
  refine ⟨n, e', ?_, by omega, by omega⟩
  have hshift : (e - 2 * e').toNat = n := by omega
  subst he'
  subst hshift
  rfl

/-- The root of a significand has all its digits, unless the exponent is the least one. -/
theorem le_log2_sqrt (h : 104 ≤ m.log2) : 52 ≤ m.sqrt.log2 := by
  have hm : m ≠ 0 := by
    rintro rfl
    rw [Nat.log2_zero] at h
    omega
  have hroot : 2 ^ 52 ≤ m.sqrt := by
    rw [Nat.le_sqrt]
    calc 2 ^ 52 * 2 ^ 52 = 2 ^ 104 := by norm_num
      _ ≤ 2 ^ m.log2 := Nat.pow_le_pow_right two_pos h
      _ ≤ m := Nat.log2_self_le hm
  exact (Nat.le_log2 (by omega)).mpr hroot

/-! ### Roots of numbers -/

theorem exists_rounds_unpacked_sqrt (hm : 0 < m) (hq : q ^ 2 ≤ m * 2 ^ e) :
    ∃ r, q ≤ r ∧ Rounds r (.ofModel (.pack (.sqrt .binary64 (.finite .positive m e hm)))) := by
  obtain ⟨n, e', hcore, he, hdigits⟩ := sqrtCore_eq m e
  have hscale : (0 : ℚ) < 2 ^ e' := by positivity
  have hvalue : (m : ℚ) * 2 ^ e = (m <<< n : ℕ) * (2 ^ e') ^ 2 := by
    rw [he, Nat.shiftLeft_eq, zpow_add₀ two_ne_zero, two_mul, zpow_add₀ two_ne_zero, zpow_natCast]
    push_cast
    ring
  obtain ⟨z, hz, hholds⟩ := exists_holds_sqrt (q := q / 2 ^ e') (m := m <<< n) (by
    rwa [div_pow, div_le_iff₀ (by positivity), ← hvalue])
  refine ⟨z * 2 ^ e', (div_le_iff₀ hscale).mp hz, ?_⟩
  have hrounds := rounds_roundWithAccuracy .positive (e := e') hholds (by
    have hlog := log2_shiftLeft hm n
    rcases hdigits with hleast | hlong
    · omega
    · have hfull := le_log2_sqrt (m := m <<< n) (by omega)
      omega)
  have hsqrt : UnpackedFloat.sqrt .binary64 (.finite .positive m e hm) =
      .roundWithAccuracy .binary64 .positive (m <<< n).sqrt e' (rootAccuracy (m <<< n)) := by
    simp only [UnpackedFloat.sqrt, hcore]
  rw [hsqrt]
  simpa [Sign.apply] using hrounds

theorem rank_le_unpacked_sqrt (hu : Reading x u) (hx : magnitude x < infinityMagnitude) (hy : y ≠ nan)
    (h : value y ^ 2 ≤ value x) : rank y ≤ rank (.ofModel (.pack (.sqrt .binary64 u))) := by
  have hnonneg : 0 ≤ value x := (sq_nonneg _).trans h
  cases hu with
  | notANumber hm | infinity hm => omega
  | zero hm =>
    rw [value_of_magnitude_eq_zero hm] at h
    have hzero : value y = 0 := pow_eq_zero_iff two_ne_zero |>.mp (le_antisymm h (sq_nonneg _))
    rw [value_eq_zero_iff.mp hzero]
    exact (rank_pack_zero _).ge
  | finite t k hpos hk hn hm =>
    rw [value_of_magnitude_eq hk hn hm] at h hnonneg
    cases hs : signOf x with
    | negative =>
      rw [hs] at hnonneg
      have hneg : (0 : ℚ) < k * 2 ^ ((t : ℤ) - 1074) := by positivity
      simp only [Sign.apply, Int.cast_neg, Int.cast_one] at hnonneg
      linarith
    | positive =>
      rw [hs, Sign.apply, Int.cast_one, one_mul] at h
      obtain ⟨r, hr, hrounds⟩ := exists_rounds_unpacked_sqrt hpos h
      exact (Rounds.of_value hy).mono hrounds hr

/-- A number whose square is not above `x` does not come after the root of `x`. -/
theorem rank_le_sqrt (hx : x.isFinite = true) (hy : y ≠ nan) (h : value y ^ 2 ≤ value x) :
    rank y ≤ rank x.sqrt :=
  rank_le_unpacked_sqrt (reading x) (isFinite_iff.mp hx) hy h

theorem of_isFinite_unpacked_sqrt (hu : Reading x u) (h : (UnpackedFloat.sqrt .binary64 u).isFinite = true) :
    magnitude x < infinityMagnitude ∧ 0 ≤ value x := by
  cases hu with
  | notANumber => exact absurd h Bool.false_ne_true
  | infinity =>
    revert h
    cases signOf x <;> exact fun h => absurd h Bool.false_ne_true
  | zero hm =>
    rw [value_of_magnitude_eq_zero hm, hm]
    exact ⟨by decide, le_rfl⟩
  | finite t k hpos hk hn hm hlt =>
    refine ⟨hlt, ?_⟩
    rw [value_of_magnitude_eq hk hn hm]
    revert h
    cases signOf x with
    | negative => exact fun h => absurd h Bool.false_ne_true
    | positive =>
      intro _
      simp only [Sign.apply, Int.cast_one, one_mul]
      positivity

theorem isFinite_of_sqrt (h : x.sqrt.isFinite = true) : x.isFinite = true :=
  isFinite_iff.mpr (of_isFinite_unpacked_sqrt (reading x) (isFinite_of_pack h)).1

theorem nonneg_of_sqrt (h : x.sqrt.isFinite = true) : 0 ≤ value x :=
  (of_isFinite_unpacked_sqrt (reading x) (isFinite_of_pack h)).2

/-- A finite root is not negative. -/
theorem value_sqrt_nonneg (h : x.sqrt.isFinite = true) : 0 ≤ value x.sqrt := by
  have hrank := rank_le_sqrt (y := 0) (isFinite_of_sqrt h) (by decide) (by simpa [value_zero] using nonneg_of_sqrt h)
  rwa [rank_zero, ← value_nonneg_iff] at hrank

end NumericArrays.Binary64
