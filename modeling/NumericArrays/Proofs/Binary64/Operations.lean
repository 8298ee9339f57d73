import NumericArrays.Proofs.Binary64.Rounding

/-! Sums, differences, products and quotients are the exact ones, rounded. -/
namespace NumericArrays.Binary64

open Float.Model
open Float.Model.UnpackedFloat (ExtendedMantissa Accuracy Sign)

variable {x x' y y' : Float} {u v : UnpackedFloat}

/-! ### Sums and differences -/

theorem decreaseExponent_mul (m : ℕ) {e t : ℤ} (h : t ≤ e) (s : Sign) :
    (s.apply (UnpackedFloat.decreaseExponent m e t).1 : ℚ) * 2 ^ t = s.apply 1 * (m * 2 ^ e) := by
  obtain ⟨n, hn⟩ := Int.eq_ofNat_of_zero_le (sub_nonneg.mpr h)
  have hshift : (UnpackedFloat.decreaseExponent m e t).1 = m <<< n := by
    unfold UnpackedFloat.decreaseExponent
    simp [hn]
  rw [hshift, apply_eq_mul, Nat.shiftLeft_eq, show e = n + t by omega, zpow_add₀ two_ne_zero, zpow_natCast]
  push_cast
  ring

theorem Reading.pack (h : Reading x u) : Float.ofModel (.pack u) = x := by
  rw [h.unique (reading x), pack_unpack]

theorem rounds_unpacked_add (hu : Reading x u) (hv : Reading y v) (hx : magnitude x < infinityMagnitude)
    (hy : magnitude y < infinityMagnitude) :
    Rounds (value x + value y) (.ofModel (.pack (.add .binary64 u v))) := by
  have hvpack := hv.pack
  have hupack := hu.pack
  cases hu with
  | notANumber h | infinity h => omega
  | zero h =>
    rw [value_of_magnitude_eq_zero h, zero_add]
    cases hv with
    | notANumber h' | infinity h' => omega
    | zero h' =>
      rw [value_of_magnitude_eq_zero h']
      change Rounds 0 (.ofModel (.pack (if _ then _ else _)))
      split
      · exact rounds_zero _
      · exact rounds_zero _
    | finite _ _ _ _ _ h' =>
      change Rounds (value y) (.ofModel (.pack (.finite _ _ _ _)))
      rw [hvpack]
      exact .of_value (ne_nan_of_magnitude_lt hy)
  | finite t k hpos hk hn h =>
    cases hv with
    | notANumber h' | infinity h' => omega
    | zero h' =>
      rw [value_of_magnitude_eq_zero h', add_zero]
      change Rounds (value x) (.ofModel (.pack (.finite _ _ _ _)))
      rw [hupack]
      exact .of_value (ne_nan_of_magnitude_lt hx)
    | finite t' k' hpos' hk' hn' h' =>
      have hsum := rounds_normalize
        ((signOf x).apply (UnpackedFloat.decreaseExponent k (t - 1074) (min ((t : ℤ) - 1074) (t' - 1074))).1 +
          (signOf y).apply (UnpackedFloat.decreaseExponent k' (t' - 1074) (min ((t : ℤ) - 1074) (t' - 1074))).1)
        (min ((t : ℤ) - 1074) (t' - 1074)) .positive
      rw [Int.cast_add, add_mul, decreaseExponent_mul k (min_le_left _ _), decreaseExponent_mul k' (min_le_right _ _),
        ← value_of_magnitude_eq hk hn h, ← value_of_magnitude_eq hk' hn' h'] at hsum
      exact hsum

/-- A sum of finite numbers is rounded once. -/
theorem rounds_add (hx : x.isFinite = true) (hy : y.isFinite = true) : Rounds (value x + value y) (x + y) :=
  rounds_unpacked_add (reading x) (reading y) (isFinite_iff.mp hx) (isFinite_iff.mp hy)

theorem isFinite_neg (hx : x.isFinite = true) : (-x).isFinite = true := by
  rw [isFinite_iff] at hx ⊢
  rwa [(magnitude_and_sign_neg (ne_nan_of_magnitude_lt hx)).1]

theorem rounds_sub (hx : x.isFinite = true) (hy : y.isFinite = true) : Rounds (value x - value y) (x - y) := by
  have hnan := ne_nan_of_magnitude_lt (isFinite_iff.mp hy)
  rw [sub_eq_add_opposite x hnan, sub_eq_add_neg, ← value_neg hnan]
  exact rounds_add hx (isFinite_neg hy)

/-! ### Products -/

theorem apply_mul (s t : Sign) : ((s * t).apply 1 : ℚ) = s.apply 1 * t.apply 1 := by
  have hint : (s * t).apply 1 = s.apply 1 * t.apply 1 := by cases s <;> cases t <;> rfl
  rw [hint, Int.cast_mul]

theorem le_log2_mul {j k a b : ℕ} (hj : 2 ^ a ≤ j) (hk : 2 ^ b ≤ k) : a + b ≤ (j * k).log2 := by
  have hle : 2 ^ (a + b) ≤ j * k := pow_add 2 a b ▸ Nat.mul_le_mul hj hk
  exact (Nat.le_log2 (Nat.ne_of_gt ((Nat.two_pow_pos _).trans_le hle))).mpr hle

theorem rounds_unpacked_mul (hu : Reading x u) (hv : Reading y v) (hx : magnitude x < infinityMagnitude)
    (hy : magnitude y < infinityMagnitude) :
    Rounds (value x * value y) (.ofModel (.pack (.mul .binary64 u v))) := by
  cases hu with
  | notANumber h | infinity h => omega
  | zero h =>
    rw [value_of_magnitude_eq_zero h, zero_mul]
    cases hv with
    | notANumber h' | infinity h' => omega
    | zero | finite => exact rounds_zero _
  | finite t k hpos hk hn h =>
    cases hv with
    | notANumber h' | infinity h' => omega
    | zero h' =>
      rw [value_of_magnitude_eq_zero h', mul_zero]
      exact rounds_zero _
    | finite t' k' hpos' hk' hn' h' =>
      have hvalue : value x * value y = (signOf x * signOf y).apply 1 *
          (((k * k' : ℕ) : ℚ) * 2 ^ (((t : ℤ) - 1074) + (t' - 1074))) := by
        rw [value_of_magnitude_eq hk hn h, value_of_magnitude_eq hk' hn' h', apply_mul,
          zpow_add₀ two_ne_zero]
        push_cast
        ring
      rw [hvalue]
      -- one of the factors has all its digits, or both have the least exponent
      refine rounds_roundWithAccuracy _ (Holds.ofMantissa_exact _) ?_
      have hstep : exponentStep = 2 ^ 52 := exponentStep_eq
      rw [hstep] at hn hn'
      have hlog : (t = 0 ∧ t' = 0) ∨ 52 ≤ (k * k').log2 := by
        by_cases ht : t = 0
        · by_cases ht' : t' = 0
          · exact .inl ⟨ht, ht'⟩
          · exact .inr (le_log2_mul (a := 0) hpos (hn'.resolve_left ht'))
        · exact .inr (le_log2_mul (b := 0) (hn.resolve_left ht) hpos')
      omega

/-- A product of finite numbers is rounded once. -/
theorem rounds_mul (hx : x.isFinite = true) (hy : y.isFinite = true) : Rounds (value x * value y) (x * y) :=
  rounds_unpacked_mul (reading x) (reading y) (isFinite_iff.mp hx) (isFinite_iff.mp hy)

/-! ### Quotients -/

theorem apply_div (s t : Sign) : ((s / t).apply 1 : ℚ) = s.apply 1 / t.apply 1 := by
  have hmul : s / t = s * t := by cases s <;> cases t <;> rfl
  have hinv : (t.apply 1 : ℚ)⁻¹ = t.apply 1 := by cases t <;> simp [Sign.apply]
  rw [hmul, apply_mul, div_eq_mul_inv, hinv]

/-- Quotient and remainder of a division stand for the exact ratio. -/
theorem holds_div (m : ℕ) {n : ℕ} (hn : 0 < n) :
    Holds (.ofMantissaAndAccuracy (m / n) (UnpackedFloat.accuracyOfFraction (m % n) n)) (m / n) := by
  have hpos : (0 : ℚ) < n := by exact_mod_cast hn
  have hratio : (m : ℚ) / n = (m / n : ℕ) + (m % n : ℕ) / (n : ℚ) := by
    have hdivmod : (m : ℚ) = n * (m / n : ℕ) + (m % n : ℕ) := by exact_mod_cast (Nat.div_add_mod m n).symm
    field_simp
    linarith
  have hlt : ((m % n : ℕ) : ℚ) / n < 1 := (div_lt_one hpos).mpr (by exact_mod_cast Nat.mod_lt m hn)
  rw [hratio]
  generalize m / n = q at *
  generalize m % n = r at *
  unfold UnpackedFloat.accuracyOfFraction
  split
  · rename_i hr
    rw [hr, Nat.cast_zero, zero_div, add_zero]
    exact Holds.ofMantissa_exact q
  · rename_i hr
    have hr0 : 0 < (r : ℚ) / n := div_pos (by exact_mod_cast Nat.pos_of_ne_zero hr) hpos
    rcases lt_trichotomy (2 * r) n with h | h | h
    · rw [Nat.compare_eq_lt.mpr h]
      have hcast : (2 * r : ℚ) < n := by exact_mod_cast h
      have hhalf : (r : ℚ) / n < 1 / 2 := by
        rw [div_lt_div_iff₀ hpos two_pos]
        linarith
      exact ⟨by change (q : ℚ) < _; linarith, by change _ < (q : ℚ) + _; linarith⟩
    · rw [Nat.compare_eq_eq.mpr h]
      have hcast : (2 * r : ℚ) = n := by exact_mod_cast h
      have hhalf : (r : ℚ) / n = 1 / 2 := by
        rw [div_eq_div_iff hpos.ne' two_ne_zero]
        linarith
      change _ = (q : ℚ) + 1 / 2
      rw [hhalf]
    · rw [Nat.compare_eq_gt.mpr h]
      have hcast : (n : ℚ) < 2 * r := by exact_mod_cast h
      have hhalf : 1 / 2 < (r : ℚ) / n := by
        rw [div_lt_div_iff₀ two_pos hpos]
        linarith
      exact ⟨by change (q : ℚ) + _ < _; linarith, by change _ < (q : ℚ) + _; linarith⟩

theorem divCore_eq (j : ℕ) (e : ℤ) (k : ℕ) (e' : ℤ) :
    ∃ n : ℕ, UnpackedFloat.divCore .binary64 j e k e' =
        ((j <<< n) / k, e - e' - n, UnpackedFloat.accuracyOfFraction ((j <<< n) % k) k) ∧
      (e - e' - n ≤ -1074 ∨ k.log2 + 53 ≤ j.log2 + n) := by
  refine ⟨(e - e' - min (e - e') (max (totalExponent j e - totalExponent k e' - 53) (-1074))).toNat, ?_, ?_⟩
  · unfold UnpackedFloat.divCore
    rw [Int.toNat_of_nonneg (by omega), sub_sub_cancel]
    rfl
  · unfold totalExponent
    omega

/-- A dividend that is shifted far enough gives the quotient all its digits. -/
theorem two_pow_le_shift_div {j k n : ℕ} (hj : 0 < j) (hk : 0 < k) (h : k.log2 + 53 ≤ j.log2 + n) :
    2 ^ 52 ≤ (j <<< n) / k := by
  rw [Nat.le_div_iff_mul_le hk, Nat.shiftLeft_eq]
  calc 2 ^ 52 * k ≤ 2 ^ 52 * 2 ^ (k.log2 + 1) := Nat.mul_le_mul_left _ Nat.lt_log2_self.le
    _ = 2 ^ (k.log2 + 53) := by rw [← pow_add]; congr 1; omega
    _ ≤ 2 ^ (j.log2 + n) := Nat.pow_le_pow_right two_pos h
    _ = 2 ^ j.log2 * 2 ^ n := pow_add _ _ _
    _ ≤ j * 2 ^ n := Nat.mul_le_mul_right _ (Nat.log2_self_le hj.ne')

theorem rounds_unpacked_div (hu : Reading x u) (hv : Reading y v) (hx : magnitude x < infinityMagnitude)
    (hy : magnitude y < infinityMagnitude) (hy0 : magnitude y ≠ 0) :
    Rounds (value x / value y) (.ofModel (.pack (.div .binary64 u v))) := by
  cases hv with
  | notANumber h | infinity h | zero h => omega
  | finite t' k hpos' hk hn' h' =>
    cases hu with
    | notANumber h | infinity h => omega
    | zero h =>
      rw [value_of_magnitude_eq_zero h, zero_div]
      exact rounds_zero _
    | finite t j hpos hj hn h =>
      obtain ⟨n, hcore, hshift⟩ := divCore_eq j (t - 1074) k (t' - 1074)
      have hvalue : value x / value y = (signOf x / signOf y).apply 1 *
          (((j <<< n : ℕ) : ℚ) / k * 2 ^ (((t : ℤ) - 1074) - (t' - 1074) - n)) := by
        rw [value_of_magnitude_eq hj hn h, value_of_magnitude_eq hk hn' h', apply_div, Nat.shiftLeft_eq,
          zpow_sub₀ two_ne_zero _ (n : ℤ), zpow_sub₀ two_ne_zero ((t : ℤ) - 1074), zpow_natCast]
        push_cast
        field_simp
      have hdiv : UnpackedFloat.div .binary64 (.finite (signOf x) j (t - 1074) hpos)
          (.finite (signOf y) k (t' - 1074) hpos') = UnpackedFloat.roundWithAccuracy .binary64 (signOf x / signOf y)
            ((j <<< n) / k) (((t : ℤ) - 1074) - (t' - 1074) - n)
            (UnpackedFloat.accuracyOfFraction ((j <<< n) % k) k) := by
        simp only [UnpackedFloat.div, hcore]
      rw [hvalue, hdiv]
      refine rounds_roundWithAccuracy _ (holds_div _ hpos') ?_
      rcases hshift with hlow | hlog
      · omega
      · have hquot := two_pow_le_shift_div hpos hpos' hlog
        have h52 : 52 ≤ ((j <<< n) / k).log2 := (Nat.le_log2 (by omega)).mpr hquot
        omega

/-- A quotient of finite numbers is rounded once. -/
theorem rounds_div (hx : x.isFinite = true) (hy : y.isFinite = true) (hy0 : rank y ≠ 0) :
    Rounds (value x / value y) (x / y) := by
  rw [← Int.natAbs_ne_zero, natAbs_rank] at hy0
  exact rounds_unpacked_div (reading x) (reading y) (isFinite_iff.mp hx) (isFinite_iff.mp hy) hy0

/-! ### Infinities and zero divisors -/

theorem rank_pack_infinity (s : Sign) : rank (.ofModel (.pack (.infinity s))) = s.apply infinityMagnitude := by
  cases s <;> decide

theorem natAbs_rank_le (h : x ≠ nan) : (rank x).natAbs ≤ infinityMagnitude :=
  natAbs_rank x ▸ magnitude_le h

/-- A finite number does not change an infinity. -/
theorem rank_add_infinity (hx : x.isFinite = true) (hy : magnitude y = infinityMagnitude) :
    x + y ≠ nan ∧ rank (x + y) = rank y := by
  have hinf : y.toModel.unpack = .infinity (signOf y) := (reading y).unique (.infinity hy)
  have hsum : UnpackedFloat.add .binary64 x.toModel.unpack y.toModel.unpack = .infinity (signOf y) := by
    rw [hinf]
    have hxread := reading x
    rw [isFinite_iff] at hx
    revert hxread
    generalize x.toModel.unpack = u
    intro hu
    cases hu with
    | notANumber h | infinity h => omega
    | zero | finite => rfl
  change Float.ofModel (.pack (.add .binary64 _ _)) ≠ nan ∧ rank (.ofModel (.pack (.add .binary64 _ _))) = _
  rw [hsum, rank_pack_infinity, rank_eq, hy]
  exact ⟨pack_ne_nan nofun, rfl⟩

theorem add_ne_nan (hx : x.isFinite = true) (hy : y ≠ nan) : x + y ≠ nan := by
  rcases (magnitude_le hy).lt_or_eq with h | h
  · exact (rounds_add hx (isFinite_iff.mpr h)).ne_nan
  · exact (rank_add_infinity hx h).1

/-- Sums with a finite number keep the order. -/
theorem rank_add_mono (hx : x.isFinite = true) (hy : y ≠ nan) (hy' : y' ≠ nan) (h : rank y ≤ rank y') :
    rank (x + y) ≤ rank (x + y') := by
  have hsum := natAbs_rank_le (add_ne_nan hx hy)
  have hsum' := natAbs_rank_le (add_ne_nan hx hy')
  have hle := natAbs_rank_le hy
  have hle' := natAbs_rank_le hy'
  rcases (magnitude_le hy).lt_or_eq with hfin | hinf
  · rcases (magnitude_le hy').lt_or_eq with hfin' | hinf'
    · refine (rounds_add hx (isFinite_iff.mpr hfin)).mono (rounds_add hx (isFinite_iff.mpr hfin')) ?_
      rw [value_eq_grid y, value_eq_grid y']
      have hgrid := grid_le_grid_iff.mpr h
      linarith
    · rw [(rank_add_infinity hx hinf').2]
      rw [← natAbs_rank] at hfin hinf'
      omega
  · rw [(rank_add_infinity hx hinf).2]
    rw [← natAbs_rank] at hinf
    rcases (magnitude_le hy').lt_or_eq with hfin' | hinf'
    · rw [← natAbs_rank] at hfin'
      omega
    · rwa [(rank_add_infinity hx hinf').2]

theorem rank_sub_anti (hx : x.isFinite = true) (hy : y ≠ nan) (hy' : y' ≠ nan) (h : rank y ≤ rank y') :
    rank (x - y') ≤ rank (x - y) := by
  have hneg {z : Float} (hz : z ≠ nan) : -z ≠ nan :=
    ne_nan_iff.mpr ((magnitude_and_sign_neg hz).1 ▸ magnitude_le hz)
  rw [sub_eq_add_opposite x hy, sub_eq_add_opposite x hy']
  refine rank_add_mono hx (hneg hy') (hneg hy) ?_
  rw [rank_neg hy, rank_neg hy']
  omega

/-- An infinity by a finite number is infinite, as is any number but zero by zero. -/
theorem rank_div_infinity (hx : x ≠ nan) (hx0 : magnitude x ≠ 0) (hy : y.isFinite = true)
    (h : magnitude x = infinityMagnitude ∨ magnitude y = 0) :
    x / y ≠ nan ∧ rank (x / y) = (signOf x / signOf y).apply infinityMagnitude := by
  have hquot : UnpackedFloat.div .binary64 x.toModel.unpack y.toModel.unpack = .infinity (signOf x / signOf y) := by
    have hxread := reading x
    have hyread := reading y
    have hxle := magnitude_le hx
    rw [isFinite_iff] at hy
    revert hxread hyread
    generalize x.toModel.unpack = u
    generalize y.toModel.unpack = v
    intro hu hv
    cases hu with
    | notANumber | zero => omega
    | infinity h =>
      cases hv with
      | notANumber | infinity => omega
      | zero | finite => rfl
    | finite =>
      cases hv with
      | notANumber | infinity | finite => omega
      | zero => rfl
  change Float.ofModel (.pack (.div .binary64 _ _)) ≠ nan ∧ rank (.ofModel (.pack (.div .binary64 _ _))) = _
  rw [hquot, rank_pack_infinity]
  exact ⟨pack_ne_nan nofun, rfl⟩

theorem zero_div_zero (hx : magnitude x = 0) (hy : magnitude y = 0) : x / y = nan := by
  have hxzero : x.toModel.unpack = .zero (signOf x) := (reading x).unique (.zero hx)
  have hyzero : y.toModel.unpack = .zero (signOf y) := (reading y).unique (.zero hy)
  change Float.ofModel (.pack (.div .binary64 _ _)) = nan
  rw [hxzero, hyzero]
  cases signOf x <;> cases signOf y <;> decide

end NumericArrays.Binary64
