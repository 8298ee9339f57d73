import NumericArrays.Proofs.Binary64.Grid
import NumericArrays.Proofs.Binary64.Nan

/-! The rational number that a finite number stands for, and its place among the numbers in order. -/
namespace NumericArrays.Binary64

open Float.Model

variable {x y : Float} {u v : UnpackedFloat}

/-! ### Values and places -/

def value (x : Float) : ℚ :=
  (if isNegative x then -1 else 1) * ((decode x).1 * 2 ^ (decode x).2)

/-- Place among the numbers in order; zeros of both signs are at place 0. -/
def rank (x : Float) : ℤ := if isNegative x then -magnitude x else magnitude x

theorem exponentField_eq (x : Float) : exponentField x = magnitude x / exponentStep := rfl

theorem fractionField_eq (x : Float) : fractionField x = magnitude x % exponentStep := rfl

theorem decode_eq (x : Float) : ((decode x).1 : ℚ) * 2 ^ (decode x).2 = units (magnitude x) * least := by
  have hdiv : magnitude x / exponentStep = 0 ↔ magnitude x < exponentStep :=
    Nat.div_eq_zero_iff_lt (by rw [exponentStep_eq]; omega)
  unfold decode units
  rw [exponentField_eq, fractionField_eq]
  by_cases h : magnitude x < exponentStep
  · rw [if_pos (hdiv.mpr h), if_pos h, Nat.mod_eq_of_lt h, least]
  · obtain ⟨t, ht⟩ := Nat.exists_eq_add_one_of_ne_zero (mt hdiv.mp h)
    rw [if_neg (mt hdiv.mp h), if_neg h, ht, Nat.add_sub_cancel]
    have hexp : ((t + 1 : ℕ) : ℤ) - 1075 = (t : ℤ) + -1074 := by
      push_cast
      ring
    dsimp only
    rw [hexp, zpow_add₀ two_ne_zero, zpow_natCast, least]
    push_cast
    ring

theorem value_eq_grid (x : Float) : value x = grid (rank x) := by
  unfold value rank
  rw [decode_eq, ← grid_natCast]
  split
  · rw [grid_neg, neg_one_mul]
  · rw [one_mul]

theorem natAbs_rank (x : Float) : (rank x).natAbs = magnitude x := by
  unfold rank
  split
  · rw [Int.natAbs_neg, Int.natAbs_natCast]
  · rw [Int.natAbs_natCast]

/-! ### Reading a number -/

def signOf (x : Float) : UnpackedFloat.Sign := if isNegative x then .negative else .positive

theorem rank_eq (x : Float) : rank x = (signOf x).apply (magnitude x) := by
  unfold rank signOf
  split <;> rfl

/-- What is read from the fields of a number. A finite one has its place `t * exponentStep + k` split into
    significand and exponent. -/
inductive Reading (x : Float) : UnpackedFloat → Prop where
  | notANumber (h : infinityMagnitude < magnitude x) : Reading x .notANumber
  | infinity (h : magnitude x = infinityMagnitude) : Reading x (.infinity (signOf x))
  | zero (h : magnitude x = 0) : Reading x (.zero (signOf x))
  | finite (t k : ℕ) (hpos : 0 < k) (hk : k < 2 * exponentStep) (hn : t = 0 ∨ exponentStep ≤ k)
      (h : magnitude x = t * exponentStep + k) (hlt : magnitude x < infinityMagnitude) :
      Reading x (.finite (signOf x) k (t - 1074) hpos)

theorem toNat_unpackExponent (x : Float) :
    (@UnpackedFloat.unpackExponent .binary64 x.toBits.toBitVec).toNat = magnitude x / exponentStep := by
  rw [UnpackedFloat.unpackExponent_def, BitVec.extractLsb'_toNat, Nat.shiftRight_eq_div_pow]
  show x.toBits.toNat / 4503599627370496 % 2048 = _
  rw [magnitude, signPattern_eq, exponentStep_eq]
  omega

theorem toNat_unpackMantissa (x : Float) :
    (@UnpackedFloat.unpackMantissa .binary64 x.toBits.toBitVec).toNat = magnitude x % exponentStep := by
  rw [UnpackedFloat.unpackMantissa_def, BitVec.extractLsb'_toNat, Nat.shiftRight_zero]
  show x.toBits.toNat % 4503599627370496 = _
  rw [magnitude, signPattern_eq, exponentStep_eq]
  omega

theorem ofBitVec_unpackSign (x : Float) :
    UnpackedFloat.Sign.ofBitVec (@UnpackedFloat.unpackSign .binary64 x.toBits.toBitVec) = signOf x := by
  have hbit : (@UnpackedFloat.unpackSign .binary64 x.toBits.toBitVec).toNat = x.toBits.toNat / signPattern := by
    rw [UnpackedFloat.unpackSign_def, BitVec.extractLsb'_toNat, Nat.shiftRight_eq_div_pow]
    show x.toBits.toNat / 9223372036854775808 % 2 = _
    rw [signPattern_eq]
    have hlt := x.toBits.toNat_lt
    omega
  have hzero : @UnpackedFloat.unpackSign .binary64 x.toBits.toBitVec = 0#1 ↔ ¬ isNegative x = true := by
    rw [← BitVec.toNat_inj, hbit, isNegative_iff, signPattern_eq]
    show _ = 0 ↔ _
    omega
  unfold UnpackedFloat.Sign.ofBitVec signOf
  by_cases h : isNegative x = true
  · rw [if_neg fun h0 => hzero.mp h0 h, if_pos h]
  · rw [if_pos (hzero.mpr h), if_neg h]

theorem reading (x : Float) : Reading x x.toModel.unpack := by
  have hexponent := toNat_unpackExponent x
  have hmantissa := toNat_unpackMantissa x
  have hlt : magnitude x < signPattern := Nat.mod_lt _ (by decide)
  have hhidden : (1#1 ++ @UnpackedFloat.unpackMantissa .binary64 x.toBits.toBitVec).toNat =
      exponentStep + magnitude x % exponentStep := by
    rw [BitVec.toNat_append, ← Nat.shiftLeft_add_eq_or_of_lt (BitVec.isLt _), hmantissa]
    rfl
  have hones : (-1#11).toNat = 2047 := by decide
  have hbias : (Format.binary64.exponentBias : ℤ) = 1023 := by decide
  rw [signPattern_eq] at hlt
  rw [exponentStep_eq] at hexponent hmantissa hhidden
  show Reading x (UnpackedFloat.unpack .binary64 x.toBits.toBitVec)
  unfold UnpackedFloat.unpack
  simp only [ofBitVec_unpackSign, ← BitVec.toNat_inj, hexponent, hmantissa, hhidden, hbias]
  split
  · rename_i hspecial
    have hexp := hspecial.trans hones
    split
    · rename_i hfraction
      exact .infinity (by rw [infinityMagnitude_eq]; change _ = 0 at hfraction; omega)
    · rename_i hfraction
      exact .notANumber (by rw [infinityMagnitude_eq]; change ¬ _ = 0 at hfraction; omega)
  · rename_i hspecial
    rw [hones] at hspecial
    split
    · rename_i hsubnormal
      change _ = 0 at hsubnormal
      split
      · rename_i hfraction
        exact .zero (by change _ = 0 at hfraction; omega)
      · rename_i hfraction
        change ¬ _ = 0 at hfraction
        rw [hsubnormal]
        exact .finite 0 _ (by omega) (by rw [exponentStep_eq]; omega) (.inl rfl)
          (by omega) (by rw [infinityMagnitude_eq]; omega)
    · rename_i hsubnormal
      change ¬ _ = 0 at hsubnormal
      have hshift : ((magnitude x / 4503599627370496 : ℕ) : ℤ) - (1023 + 52) =
          ((magnitude x / 4503599627370496 - 1 : ℕ) : ℤ) - 1074 := by omega
      change Reading x (.finite _ _ (_ - (1023 + 52)) _)
      simp only [hshift]
      exact .finite _ _ (by omega) (by rw [exponentStep_eq]; omega) (.inr (by rw [exponentStep_eq]; omega))
        (by rw [exponentStep_eq]; omega) (by rw [infinityMagnitude_eq]; omega)

/-! ### Order -/

/-- Exponents are compared first, then significands: that is the order of the places. -/
theorem compare_exponent_then {t k t' k' : ℕ} (hk : k < 2 * exponentStep) (hn : t = 0 ∨ exponentStep ≤ k)
    (hk' : k' < 2 * exponentStep) (hn' : t' = 0 ∨ exponentStep ≤ k') :
    (compare ((t : ℤ) - 1074) (t' - 1074)).then (compare k k') =
      compare (t * exponentStep + k) (t' * exponentStep + k') := by
  rw [exponentStep_eq] at *
  rcases lt_trichotomy t t' with h | rfl | h
  · rw [Int.compare_eq_lt.mpr (by omega)]
    exact (Nat.compare_eq_lt.mpr (by omega)).symm
  · rw [Int.compare_eq_eq.mpr rfl]
    show compare k k' = _
    rcases lt_trichotomy k k' with hlt | rfl | hlt
    · rw [Nat.compare_eq_lt.mpr hlt, Nat.compare_eq_lt.mpr (by omega)]
    · rw [Nat.compare_eq_eq.mpr rfl, Nat.compare_eq_eq.mpr rfl]
    · rw [Nat.compare_eq_gt.mpr hlt, Nat.compare_eq_gt.mpr (by omega)]
  · rw [Int.compare_eq_gt.mpr (by omega)]
    exact (Nat.compare_eq_gt.mpr (by omega)).symm

/-- Comparison of signed magnitudes. -/
theorem compare_apply (s s' : UnpackedFloat.Sign) {m n : ℕ} (h : 0 < m ∨ 0 < n) :
    compare (s.apply m) (s'.apply n) = match s, s' with
      | .negative, .negative => (compare m n).swap
      | .negative, .positive => .lt
      | .positive, .negative => .gt
      | .positive, .positive => compare m n := by
  cases s <;> cases s' <;> simp only [UnpackedFloat.Sign.apply]
  case negative.negative =>
    rcases lt_trichotomy m n with hlt | rfl | hlt
    · rw [Nat.compare_eq_lt.mpr hlt, Int.compare_eq_gt.mpr (by omega)]
      rfl
    · rw [Nat.compare_eq_eq.mpr rfl, Int.compare_eq_eq.mpr rfl]
      rfl
    · rw [Nat.compare_eq_gt.mpr hlt, Int.compare_eq_lt.mpr (by omega)]
      rfl
  case negative.positive => exact Int.compare_eq_lt.mpr (by omega)
  case positive.negative => exact Int.compare_eq_gt.mpr (by omega)
  case positive.positive =>
    rcases lt_trichotomy m n with hlt | rfl | hlt
    · rw [Nat.compare_eq_lt.mpr hlt, Int.compare_eq_lt.mpr (by omega)]
    · rw [Nat.compare_eq_eq.mpr rfl, Int.compare_eq_eq.mpr rfl]
    · rw [Nat.compare_eq_gt.mpr hlt, Int.compare_eq_gt.mpr (by omega)]

/-- Numbers that are not NaN compare like their places. -/
theorem compare_reading (hu : Reading x u) (hv : Reading y v) (hx : x ≠ nan) (hy : y ≠ nan) :
    u.compare v = some (compare (rank x) (rank y)) := by
  have hnotx := magnitude_le hx
  have hnoty := magnitude_le hy
  have hinf := infinityMagnitude_eq
  rw [rank_eq, rank_eq]
  cases hu with
  | notANumber h => omega
  | infinity h =>
    rw [compare_apply _ _ (by omega)]
    cases hv with
    | notANumber h' => omega
    | infinity h' =>
      rw [h, h', Nat.compare_eq_eq.mpr rfl]
      cases signOf x <;> cases signOf y <;> rfl
    | zero h' | finite _ _ _ _ _ h' =>
      rw [Nat.compare_eq_gt.mpr (by omega)]
      cases signOf x <;> cases signOf y <;> rfl
  | zero h =>
    cases hv with
    | notANumber h' => omega
    | zero h' =>
      rw [h, h']
      cases signOf x <;> cases signOf y <;> rfl
    | infinity h' | finite _ _ _ _ _ h' =>
      rw [compare_apply _ _ (by omega), Nat.compare_eq_lt.mpr (by omega)]
      cases signOf x <;> cases signOf y <;> rfl
  | finite t k hpos hk hn h hlt =>
    rw [compare_apply _ _ (by omega)]
    cases hv with
    | notANumber h' => omega
    | infinity h' =>
      rw [Nat.compare_eq_lt.mpr (by omega)]
      cases signOf x <;> cases signOf y <;> rfl
    | zero h' =>
      rw [Nat.compare_eq_gt.mpr (by omega)]
      cases signOf x <;> cases signOf y <;> rfl
    | finite t' k' hpos' hk' hn' h' hlt' =>
      rw [h, h', ← compare_exponent_then hk hn hk' hn']
      cases signOf x <;> cases signOf y <;> rfl

theorem lt_iff_rank (hx : x ≠ nan) (hy : y ≠ nan) : x < y ↔ rank x < rank y := by
  rw [← Int.compare_eq_lt]
  refine decide_eq_true_iff.trans ?_
  change (x.toModel.unpack.compare y.toModel.unpack == some .lt) = true ↔ _
  rw [compare_reading (reading x) (reading y) hx hy, beq_iff_eq, Option.some_inj]

theorem le_iff_rank (hx : x ≠ nan) (hy : y ≠ nan) : x ≤ y ↔ rank x ≤ rank y := by
  rw [← Int.isLE_compare]
  refine decide_eq_true_iff.trans ?_
  change Option.any (fun o => o.isLE) (x.toModel.unpack.compare y.toModel.unpack) = true ↔ _
  rw [compare_reading (reading x) (reading y) hx hy, Option.any_some]

theorem beq_iff_rank (hx : x ≠ nan) (hy : y ≠ nan) : (x == y) = true ↔ rank x = rank y := by
  rw [← Int.compare_eq_eq]
  change (x.toModel.unpack.compare y.toModel.unpack == some .eq) = true ↔ _
  rw [compare_reading (reading x) (reading y) hx hy, beq_iff_eq, Option.some_inj]

/-! ### Zero, finite numbers and opposites -/

theorem rank_zero : rank 0 = 0 := by decide

theorem beq_zero_iff_rank (hx : x ≠ nan) : (x == 0) = true ↔ rank x = 0 := by
  rw [beq_iff_rank hx (by decide), rank_zero]

namespace Reading

theorem isFinite_iff (h : Reading x u) : u.isFinite = true ↔ magnitude x < infinityMagnitude := by
  cases h with
  | notANumber h => exact iff_of_false nofun (by omega)
  | infinity h => exact iff_of_false nofun (by omega)
  | zero h => exact iff_of_true rfl (by rw [h]; decide)
  | finite _ _ _ _ _ h hlt => exact iff_of_true rfl hlt

theorem eq_notANumber_iff (h : Reading x u) : u = .notANumber ↔ infinityMagnitude < magnitude x := by
  cases h with
  | notANumber h => exact iff_of_true rfl h
  | infinity h => exact iff_of_false nofun (by omega)
  | zero h => exact iff_of_false nofun (by omega)
  | finite _ _ _ _ _ h hlt => exact iff_of_false nofun (by omega)

/-- A number is read in one way only. -/
theorem unique (hu : Reading x u) (hv : Reading x v) : u = v := by
  have hinf := infinityMagnitude_eq
  cases hu with
  | notANumber h => exact (hv.eq_notANumber_iff.mpr h).symm
  | infinity h =>
    cases hv with
    | infinity => rfl
    | notANumber h' | zero h' | finite _ _ _ _ _ _ h' => omega
  | zero h =>
    cases hv with
    | zero => rfl
    | notANumber h' | infinity h' | finite _ _ _ _ _ h' => omega
  | finite t k hpos hk hn h hlt =>
    cases hv with
    | notANumber h' | infinity h' | zero h' => omega
    | finite t' k' hpos' hk' hn' h' hlt' =>
      rw [exponentStep_eq] at *
      obtain ⟨rfl, rfl⟩ : t = t' ∧ k = k' := by omega
      rfl

end Reading

theorem isFinite_iff : x.isFinite = true ↔ magnitude x < infinityMagnitude := (reading x).isFinite_iff

theorem ne_nan_iff : x ≠ nan ↔ magnitude x ≤ infinityMagnitude := by
  rw [← not_lt, ← (reading x).eq_notANumber_iff]
  exact ne_nan_iff_unpack

theorem rank_neg (h : x ≠ nan) : rank (-x) = -rank x := by
  obtain ⟨hmagnitude, hsign⟩ := magnitude_and_sign_neg h
  unfold rank
  rw [hmagnitude]
  by_cases hx : isNegative x = true
  · rw [if_pos hx, if_neg (fun hn => hsign.mp hn hx), neg_neg]
  · rw [if_neg hx, if_pos (hsign.mpr hx)]

theorem signOf_neg (h : x ≠ nan) : signOf (-x) = -signOf x := by
  have hsign := (magnitude_and_sign_neg h).2
  unfold signOf
  by_cases hx : isNegative x = true
  · rw [if_pos hx, if_neg fun hn => hsign.mp hn hx]
    rfl
  · rw [if_neg hx, if_pos (hsign.mpr hx)]
    rfl

theorem Reading.neg (h : Reading x u) (hx : x ≠ nan) : Reading (-x) u.neg := by
  have hmagnitude := (magnitude_and_sign_neg hx).1
  have hle := magnitude_le hx
  cases h with
  | notANumber h => omega
  | infinity h =>
    rw [UnpackedFloat.neg, ← signOf_neg hx]
    exact .infinity (hmagnitude.trans h)
  | zero h =>
    rw [UnpackedFloat.neg, ← signOf_neg hx]
    exact .zero (hmagnitude.trans h)
  | finite t k hpos hk hn h hlt =>
    rw [UnpackedFloat.neg, ← signOf_neg hx]
    exact .finite t k hpos hk hn (hmagnitude.trans h) (hmagnitude ▸ hlt)

/-- A difference is the sum with the opposite number. -/
theorem sub_eq_add_opposite (x : Float) (hy : y ≠ nan) : x - y = x + -y := by
  have hneg := (reading (-y)).unique ((reading y).neg hy)
  change Float.ofModel (.pack (.sub .binary64 _ _)) = Float.ofModel (.pack (.add .binary64 _ _))
  rw [hneg, unpacked_sub_eq_add_neg]

/-! ### Values -/

theorem grid_apply (s : UnpackedFloat.Sign) (k : ℤ) : grid (s.apply k) = s.apply 1 * grid k := by
  cases s with
  | positive => simp [UnpackedFloat.Sign.apply]
  | negative => simp [UnpackedFloat.Sign.apply, grid_neg]

theorem value_of_magnitude_eq_zero (h : magnitude x = 0) : value x = 0 := by
  rw [value_eq_grid, rank_eq, h]
  cases signOf x <;> exact grid_zero

/-- Value of a number that is read as finite. -/
theorem value_of_magnitude_eq {t k : ℕ} (hk : k < 2 * exponentStep) (hn : t = 0 ∨ exponentStep ≤ k)
    (h : magnitude x = t * exponentStep + k) :
    value x = (signOf x).apply 1 * (k * 2 ^ ((t : ℤ) - 1074)) := by
  rw [value_eq_grid, rank_eq, h, grid_apply, grid_significand hk.le hn]

theorem value_neg (h : x ≠ nan) : value (-x) = -value x := by
  rw [value_eq_grid, value_eq_grid, rank_neg h, grid_neg]

theorem value_zero : value 0 = 0 := value_of_magnitude_eq_zero (by decide)

theorem value_le_iff : value x ≤ value y ↔ rank x ≤ rank y := by
  rw [value_eq_grid, value_eq_grid, grid_le_grid_iff]

theorem value_nonneg_iff : 0 ≤ value x ↔ 0 ≤ rank x := by rw [value_eq_grid, grid_nonneg_iff]

theorem value_eq_zero_iff : value x = 0 ↔ rank x = 0 := by
  rw [value_eq_grid, ← grid_zero, grid_strictMono.injective.eq_iff]

theorem ne_nan_of_magnitude_lt (h : magnitude x < infinityMagnitude) : x ≠ nan := ne_nan_iff.mpr h.le

end NumericArrays.Binary64
