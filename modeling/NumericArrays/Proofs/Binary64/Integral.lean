import NumericArrays.Proofs.Binary64.Adjacent
import NumericArrays.Proofs.Binary64.Operations

/-! Integral parts, integers as numbers, and numbers as integers. -/
namespace NumericArrays.Binary64

open Float.Model
open Float.Model.UnpackedFloat (ExtendedMantissa Sign)

variable {x y : Float} {r : ℚ} {k n : ℕ}

/-! ### Integers that are numbers -/

/-- Places of the powers of two. -/
theorem grid_power (t : ℕ) : grid (t * exponentStep + exponentStep : ℕ) = 2 ^ ((t : ℤ) - 1022) := by
  have hstep : (exponentStep : ℚ) = 2 ^ (52 : ℤ) := by
    rw [exponentStep_eq]
    norm_num
  rw [grid_significand (by omega) (.inr le_rfl), hstep, ← zpow_add₀ two_ne_zero]
  congr 1
  ring

namespace Rounds

theorem value_of_grid {j : ℤ} (h : Rounds (grid j) x) (hj : j.natAbs < infinityMagnitude) :
    x.isFinite = true ∧ value x = grid j := by
  obtain ⟨k, hk, hrank⟩ := h.nearest
  rw [hk.eq_of_grid] at hrank
  have hclamp : clamp j = j := by
    unfold clamp
    omega
  rw [isFinite_iff, ← natAbs_rank, value_eq_grid, hrank, hclamp]
  exact ⟨hj, rfl⟩

/-- Integers of at most 53 bits are not rounded. -/
theorem value_of_int {z : ℤ} (h : Rounds z x) (hz : z.natAbs ≤ 2 * exponentStep) :
    x.isFinite = true ∧ value x = z := by
  obtain ⟨k, hk0, hk⟩ := exists_grid_eq_natCast hz
  have hlt : k < infinityMagnitude := by
    have htop : k ≤ (1075 * exponentStep + exponentStep : ℕ) := by
      have hpow : ((2 * exponentStep : ℕ) : ℚ) = 2 ^ (((1075 : ℕ) : ℤ) - 1022) := by
        rw [exponentStep_eq]
        norm_num
      rw [← grid_le_grid_iff, hk, grid_power, ← hpow]
      exact_mod_cast hz
    rw [exponentStep_eq] at htop
    rw [infinityMagnitude_eq]
    omega
  obtain ⟨j, hj, hgrid⟩ : ∃ j : ℤ, j.natAbs < infinityMagnitude ∧ grid j = z := by
    rcases Int.natAbs_eq z with heq | heq
    · exact ⟨k, by omega, by rw [hk, ← Int.cast_natCast, ← heq]⟩
    · exact ⟨-k, by omega, by rw [grid_neg, hk, ← Int.cast_natCast, ← Int.cast_neg, ← heq]⟩
  rw [← hgrid] at h ⊢
  exact h.value_of_grid hj

end Rounds

/-! ### Natural numbers -/

theorem value_one : value 1 = 1 := by
  have hrank : rank 1 = (1022 * exponentStep + exponentStep : ℕ) := by decide
  rw [value_eq_grid, hrank, grid_power, Nat.cast_ofNat, sub_self, zpow_zero]

/-- Natural numbers below `2 ^ 53` are numbers. -/
theorem value_ofNat (hn : n < 2 * exponentStep) : (Float.ofNat n).isFinite = true ∧ value (Float.ofNat n) = n := by
  rw [exponentStep_eq] at hn
  have hword : (Nat.toUInt64 n).toNat = n := by
    rw [Nat.toUInt64, UInt64.toNat_ofNat']
    exact Nat.mod_eq_of_lt (by omega)
  have hnatAbs : ((n : ℕ) : ℤ).natAbs ≤ 2 * exponentStep := by
    rw [exponentStep_eq]
    omega
  have hfloat : (Nat.toUInt64 n).toFloat.isFinite = true ∧ value (Nat.toUInt64 n).toFloat = n := by
    have hpack : (Nat.toUInt64 n).toFloat = .ofModel (.pack (.normalize .binary64 (n : ℤ) 0 .positive)) := by
      change Float.ofModel (.pack (.normalize .binary64 ((Nat.toUInt64 n).toNat : ℤ) 0 .positive)) = _
      rw [hword]
    have hrounds := rounds_normalize (n : ℤ) 0 .positive
    rw [zpow_zero, mul_one, ← hpack] at hrounds
    exact hrounds.value_of_int hnatAbs
  -- the literal is scaled by the power of ten with exponent zero
  have hmul : Float.ofNat n = (Nat.toUInt64 n).toFloat * Float.ofBits 4607182418800017408 :=
    dif_pos ⟨by omega, by omega⟩
  have hrounds := rounds_mul hfloat.1 (show (Float.ofBits 4607182418800017408).isFinite = true by decide)
  rw [hfloat.2, show Float.ofBits 4607182418800017408 = 1 by decide, value_one, mul_one, ← Int.cast_natCast] at hrounds
  rw [hmul]
  exact hrounds.value_of_int hnatAbs

/-- What is rounded between zero and an integer stays finite. -/
theorem Rounds.isFinite_of_le (h : Rounds r x) (hr : 0 ≤ r) (hn : n < 2 * exponentStep) (hle : r ≤ n) :
    x.isFinite = true := by
  obtain ⟨hfinite, hvalue⟩ := value_ofNat hn
  have htop := isFinite_iff.mp hfinite
  have hlow := (Rounds.of_value (by decide : (0 : Float) ≠ nan)).mono h (by rwa [value_zero])
  have hhigh := h.mono (Rounds.of_value (ne_nan_of_magnitude_lt htop)) (hvalue ▸ hle)
  rw [rank_zero] at hlow
  rw [isFinite_iff]
  rw [← natAbs_rank] at htop ⊢
  omega

/-! ### Integral parts -/

theorem withMagnitude_magnitude (hx : x ≠ nan) : withMagnitude x (magnitude x) = x := by
  have hle := magnitude_le hx
  exact ext_magnitude (magnitude_withMagnitude hle) (isNegative_withMagnitude hle)

/-- Between `2 ^ 0` and `2 ^ 53` the last `c` digits of a place are after the point: without them there
    is the place of the integer below. -/
theorem grid_cut {t c : ℕ} (htc : t + c = 1074) (hc : c ≤ 52) (hlow : exponentStep ≤ k)
    (hk : k < 2 * exponentStep) :
    grid ((t * exponentStep + k) / 2 ^ c * 2 ^ c : ℕ) = (⌊grid (t * exponentStep + k : ℕ)⌋₊ : ℚ) ∧
      ⌊grid (t * exponentStep + k : ℕ)⌋₊ < 2 * exponentStep := by
  have hdvd : 2 ^ c ∣ exponentStep := by
    rw [show exponentStep = 2 ^ 52 from exponentStep_eq]
    exact Nat.pow_dvd_pow 2 hc
  have hscale : (2 : ℚ) ^ ((t : ℤ) - 1074) = (2 ^ c)⁻¹ := by
    rw [← zpow_natCast, ← zpow_neg]
    congr 1
    omega
  have hcut : (t * exponentStep + k) / 2 ^ c * 2 ^ c = t * exponentStep + k / 2 ^ c * 2 ^ c := by
    obtain ⟨d, hd⟩ := hdvd
    rw [hd, show t * (2 ^ c * d) + k = k + 2 ^ c * (t * d) by ring,
      Nat.add_mul_div_left _ _ (Nat.two_pow_pos c)]
    ring
  have hle := Nat.div_mul_le_self k (2 ^ c)
  have hge : exponentStep ≤ k / 2 ^ c * 2 ^ c :=
    (Nat.div_mul_cancel hdvd).symm.le.trans (Nat.mul_le_mul_right _ (Nat.div_le_div_right hlow))
  have hfloor : ⌊(k : ℚ) / 2 ^ c⌋₊ = k / 2 ^ c := by
    exact_mod_cast Nat.floor_div_eq_div (K := ℚ) k (2 ^ c)
  rw [hcut, grid_significand hk.le (.inr hlow), hscale, ← div_eq_mul_inv, hfloor,
    grid_significand (by omega) (.inr hge), hscale, ← div_eq_mul_inv]
  constructor
  · push_cast
    exact mul_div_cancel_right₀ _ (by positivity)
  · exact (Nat.div_le_self _ _).trans_lt hk

/-- From `2 ^ 52` on all places are integers. -/
theorem floor_grid_of_le {t : ℕ} (ht : 1074 ≤ t) (hlow : exponentStep ≤ k) (hk : k < 2 * exponentStep) :
    (⌊grid (t * exponentStep + k : ℕ)⌋₊ : ℚ) = grid (t * exponentStep + k : ℕ) := by
  obtain ⟨c, rfl⟩ := Nat.exists_eq_add_of_le ht
  have hint : grid ((1074 + c) * exponentStep + k : ℕ) = (k * 2 ^ c : ℕ) := by
    rw [grid_significand hk.le (.inr hlow), show ((1074 + c : ℕ) : ℤ) - 1074 = c by omega, zpow_natCast]
    push_cast
    rfl
  rw [hint, Nat.floor_natCast]

theorem floor_grid_of_small {m : ℕ} (h : m / exponentStep < 1023) : ⌊grid m⌋₊ = 0 := by
  have hlt : (m : ℤ) < (1022 * exponentStep + exponentStep : ℕ) := by
    rw [exponentStep_eq] at h ⊢
    omega
  rw [← grid_lt_grid_iff, grid_power, Nat.cast_ofNat, sub_self, zpow_zero] at hlt
  exact Nat.floor_eq_zero.mpr hlt

/-- The fraction is dropped: the magnitude becomes that of the integer below. It stays the same from some
    size on. -/
theorem exists_trunc (hx : magnitude x < infinityMagnitude) :
    ∃ m : ℕ, trunc x = withMagnitude x m ∧ m ≤ magnitude x ∧ grid m = (⌊grid (magnitude x)⌋₊ : ℚ) ∧
      (m = magnitude x ∨ ⌊grid (magnitude x)⌋₊ < 2 * exponentStep) := by
  unfold trunc
  dsimp only
  rw [exponentField_eq]
  by_cases hsmall : magnitude x / exponentStep < 1023
  · rw [if_pos hsmall, floor_grid_of_small hsmall]
    exact ⟨0, rfl, Nat.zero_le _, grid_zero, .inr (by decide)⟩
  · obtain ⟨t, k, hm, hk, hn⟩ := exists_significand (magnitude x)
    have hfield : magnitude x / exponentStep = t + 1 := by
      rw [exponentStep_eq] at *
      omega
    have hlow : exponentStep ≤ k := by
      rw [exponentStep_eq] at *
      omega
    rw [if_neg hsmall, hfield]
    by_cases hmid : t + 1 < 1075
    · have hunit : Nat.pow 2 (1075 - (t + 1)) = 2 ^ (1074 - t) := by
        rw [Nat.add_sub_add_right 1074 1 t]
        rfl
      obtain ⟨hgrid, hlt⟩ := grid_cut (t := t) (c := 1074 - t) (by omega) (by omega) hlow hk
      rw [← hm] at hgrid hlt
      rw [if_pos hmid, hunit]
      exact ⟨_, rfl, Nat.div_mul_le_self _ _, hgrid, .inr hlt⟩
    · rw [if_neg hmid]
      refine ⟨magnitude x, (withMagnitude_magnitude (ne_nan_of_magnitude_lt hx)).symm, le_rfl, ?_, .inl rfl⟩
      rw [hm, floor_grid_of_le (by omega) hlow hk]

theorem value_eq_apply (x : Float) : value x = (signOf x).apply 1 * grid (magnitude x) := by
  rw [value_eq_grid, rank_eq, grid_apply]

/-- What is left without the fraction, by its magnitude `m`. -/
theorem trunc_spec (hx : x.isFinite = true) : ∃ m : ℕ, m ≤ magnitude x ∧ (trunc x).isFinite = true ∧
    value (trunc x) = (signOf x).apply 1 * (⌊grid (magnitude x)⌋₊ : ℚ) ∧
    (x < trunc x ↔ (signOf x).apply (magnitude x) < (signOf x).apply m) ∧
    grid m = (⌊grid (magnitude x)⌋₊ : ℚ) ∧ (m = magnitude x ∨ ⌊grid (magnitude x)⌋₊ < 2 * exponentStep) := by
  have hfinite := isFinite_iff.mp hx
  obtain ⟨m, htrunc, hm, hgrid, hlarge⟩ := exists_trunc hfinite
  have hmtop : m ≤ infinityMagnitude := by omega
  have htfinite : (trunc x).isFinite = true := by
    rw [isFinite_iff, htrunc, magnitude_withMagnitude hmtop]
    omega
  refine ⟨m, hm, htfinite, ?_, ?_, hgrid, hlarge⟩
  · rw [value_eq_apply, htrunc, signOf_withMagnitude hmtop, magnitude_withMagnitude hmtop, hgrid]
  · rw [lt_iff_rank (ne_nan_of_magnitude_lt hfinite) (ne_nan_of_magnitude_lt (isFinite_iff.mp htfinite)), htrunc,
      rank_withMagnitude hmtop, rank_eq]

/-- Where there is a fraction, the integer above is one more than what is left without it. -/
theorem ceil_grid_of_lt {m n : ℕ} (hgrid : grid m = (⌊grid n⌋₊ : ℚ)) (hlt : m < n) :
    ⌈grid n⌉ = (⌊grid n⌋₊ + 1 : ℤ) := by
  have hfraction : (⌊grid n⌋₊ : ℚ) < grid n := by
    rw [← hgrid, grid_lt_grid_iff]
    exact_mod_cast hlt
  rw [Int.ceil_eq_iff]
  push_cast
  exact ⟨by linarith, (Nat.lt_floor_add_one _).le⟩

/-- The largest integer not above a finite number is a finite number. -/
theorem value_floor (hx : x.isFinite = true) : (floor x).isFinite = true ∧ value (floor x) = ⌊value x⌋ := by
  obtain ⟨m, hm, htfinite, htvalue, hlt, hgrid, hlarge⟩ := trunc_spec hx
  have hgnn : 0 ≤ grid (magnitude x) := grid_nonneg_iff.mpr (Int.natCast_nonneg _)
  unfold floor
  dsimp only
  rw [value_eq_apply x]
  cases hs : signOf x with
  | positive =>
    rw [hs] at htvalue hlt
    simp only [Sign.apply] at htvalue hlt ⊢
    rw [if_neg (by rw [hlt]; omega), htvalue]
    refine ⟨htfinite, ?_⟩
    rw [Int.cast_one, one_mul, one_mul, ← Int.natCast_floor_eq_floor hgnn, Int.cast_natCast]
  | negative =>
    rw [hs] at htvalue hlt
    simp only [Sign.apply] at htvalue hlt ⊢
    rw [Int.cast_neg, Int.cast_one, neg_one_mul] at htvalue ⊢
    rw [Int.floor_neg]
    rcases hm.lt_or_eq with hmlt | rfl
    · have hceil := ceil_grid_of_lt hgrid hmlt
      have hsub := rounds_sub htfinite (show (1 : Float).isFinite = true by decide)
      have hint : value (trunc x) - value 1 = ((-⌈grid (magnitude x)⌉ : ℤ) : ℚ) := by
        rw [htvalue, value_one, hceil]
        push_cast
        ring
      rw [if_pos (hlt.mpr (by omega))]
      rw [hint] at hsub
      refine hsub.value_of_int ?_
      rw [hceil]
      omega
    · rw [if_neg (by rw [hlt]; omega), htvalue, hgrid, Int.ceil_natCast, Nat.floor_natCast]
      exact ⟨htfinite, by push_cast; rfl⟩

theorem floor_infinity (h : magnitude x = infinityMagnitude) : floor x = x := by
  have hfield : exponentField x = 2047 := by
    rw [exponentField_eq, h]
    rfl
  have htrunc : trunc x = x := by
    unfold trunc
    rw [hfield]
    rfl
  have hnan : x ≠ nan := ne_nan_iff.mpr h.le
  unfold floor
  rw [htrunc]
  exact if_neg (by rw [lt_iff_rank hnan hnan]; omega)

/-! ### Conversion to integers -/

/-- The integer that is read off a significand leaves out what is after the point. -/
theorem roundToInt_eq (s : Sign) (m : ℕ) (e : ℤ) :
    UnpackedFloat.roundToInt s m e = s.apply (⌊(m : ℚ) * 2 ^ e⌋₊ : ℕ) := by
  obtain ⟨c, hc⟩ : ∃ c : ℕ, (e - 0).toNat = c := ⟨_, rfl⟩
  obtain ⟨n, hn⟩ : ∃ n : ℕ, (0 - (e - c)).toNat = n := ⟨_, rfl⟩
  have hround : UnpackedFloat.roundToInt s m e =
      s.apply ((ExtendedMantissa.ofMantissaAndAccuracy (m <<< c) .exact) >>> n).mantissa := by
    subst hn hc
    rfl
  have hvalue : ((m <<< c : ℕ) : ℚ) / 2 ^ n = m * 2 ^ e := by
    rw [Nat.shiftLeft_eq, show e = c + -(n : ℤ) by omega, zpow_add₀ two_ne_zero, zpow_neg, zpow_natCast, zpow_natCast]
    push_cast
    ring
  obtain ⟨hlow, hhigh⟩ := ((Holds.ofMantissa_exact (m <<< c)).shiftRight n).bounds
  rw [hvalue] at hlow hhigh
  rw [hround, (Nat.floor_eq_iff (by positivity)).mpr ⟨hlow, hhigh⟩]

theorem toNat_ofNatClamp (n : ℕ) : (UInt64.ofNatClamp n).toNat = min n (2 ^ 64 - 1) := by
  unfold UInt64.ofNatClamp
  split
  · rename_i h
    rw [UInt64.toNat_ofNatLT]
    change n < 18446744073709551616 at h
    omega
  · rename_i h
    rw [UInt64.toNat_ofNatLT]
    change ¬ n < 18446744073709551616 at h
    change 18446744073709551616 - 1 = _
    omega

theorem Reading.toNat_toInt {u : UnpackedFloat} (h : Reading x u) (hx : magnitude x < infinityMagnitude) (a b : ℤ) :
    (UnpackedFloat.toInt a b u).toNat = ⌊value x⌋₊ := by
  cases h with
  | notANumber h | infinity h => omega
  | zero h =>
    rw [value_of_magnitude_eq_zero h, Nat.floor_zero]
    rfl
  | finite t k hpos hk hn h =>
    change (UnpackedFloat.roundToInt _ _ _).toNat = _
    rw [roundToInt_eq, value_of_magnitude_eq hk hn h]
    cases signOf x with
    | positive => simp [Sign.apply]
    | negative =>
      have hneg : (Sign.negative.apply 1 : ℚ) * (k * 2 ^ ((t : ℤ) - 1074)) ≤ 0 := by
        simp only [Sign.apply, Int.cast_neg, Int.cast_one, neg_one_mul, Left.neg_nonpos_iff]
        positivity
      rw [Nat.floor_of_nonpos hneg]
      simp only [Sign.apply]
      omega

/-- Conversion to an integer goes down, and stops at the greatest one. -/
theorem toNat_toUInt64 (hx : x.isFinite = true) : x.toUInt64.toNat = min ⌊value x⌋₊ (2 ^ 64 - 1) := by
  change (UInt64.ofNatClamp (UnpackedFloat.toInt _ _ x.toModel.unpack).toNat).toNat = _
  rw [toNat_ofNatClamp, (reading x).toNat_toInt (isFinite_iff.mp hx)]

theorem toNat_toUInt64_infinity (h : rank x = infinityMagnitude) : x.toUInt64.toNat = 2 ^ 64 - 1 := by
  have hm : magnitude x = infinityMagnitude := by
    rw [← natAbs_rank, h, Int.natAbs_natCast]
  have hinf := infinityMagnitude_eq
  have hs : signOf x = .positive := by
    rw [rank_eq, hm] at h
    cases hs : signOf x with
    | positive => rfl
    | negative =>
      rw [hs] at h
      simp only [Sign.apply] at h
      omega
  have hread : x.toModel.unpack = .infinity .positive := hs ▸ (reading x).unique (.infinity hm)
  change (UInt64.ofNatClamp (UnpackedFloat.toInt _ _ x.toModel.unpack).toNat).toNat = _
  rw [toNat_ofNatClamp, hread]
  rfl

end NumericArrays.Binary64
