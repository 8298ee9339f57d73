import NumericArrays.Proofs.Binary64.Sides

/-! The modulus of a complex number of finite parts. It is taken without squares of the parts, so it is zero
    for zero only. -/
namespace NumericArrays.Cartesian

open Binary64

variable {x y : Float}

/-! ### The longer side and what it is multiplied with -/

/-- What is made of the longer and the shorter side. -/
theorem hypotenuse_of_sides {big small : Float}
    (h : (if x.abs < y.abs then (y.abs, x.abs) else (x.abs, y.abs)) = (big, small)) :
    hypotenuse x y = big ∨ hypotenuse x y = big * (1 + small / big * (small / big)).sqrt := by
  have hsides : (if Magnitude.magnitude x < Magnitude.magnitude y then (Magnitude.magnitude y, Magnitude.magnitude x)
      else (Magnitude.magnitude x, Magnitude.magnitude y)) = (big, small) := h
  unfold hypotenuse
  simp only [hsides]
  exact ite_eq_or_eq _ _ _

/-- The length of the hypotenuse is the longer side, or that side times a root. -/
theorem exists_hypotenuse (hx : x.isFinite = true) (hy : y.isFinite = true) :
    ∃ big t : Float, |Binary64.value x| ≤ Binary64.value big ∧ |Binary64.value y| ≤ Binary64.value big ∧
      (hypotenuse x y = big ∨ hypotenuse x y = big * (1 + t * t).sqrt) := by
  have hlt : x.abs < y.abs ↔ |Binary64.value x| < |Binary64.value y| := by
    rw [lt_iff_rank (ne_nan_of_isFinite (isFinite_abs hx)) (ne_nan_of_isFinite (isFinite_abs hy)), ← not_le,
      ← value_le_iff, value_abs hx, value_abs hy, not_le]
  by_cases h : x.abs < y.abs
  · refine ⟨y.abs, x.abs / y.abs, ?_, (value_abs hy).ge, hypotenuse_of_sides (if_pos h)⟩
    rw [value_abs hy]
    exact (hlt.mp h).le
  · refine ⟨x.abs, y.abs / x.abs, (value_abs hx).ge, ?_, hypotenuse_of_sides (if_neg h)⟩
    rw [value_abs hx]
    exact not_lt.mp (mt hlt.mpr h)

/-- The root in it is no smaller than 1. -/
theorem one_le_root {t : Float} (h : (1 + t * t).sqrt.isFinite = true) : 1 ≤ Binary64.value (1 + t * t).sqrt := by
  have hsum := isFinite_of_sqrt h
  have hsquare := (isFinite_of_add hsum).2
  have hone := Rounds.of_value (show (1 : Float) ≠ nan by decide)
  have hnonneg := OnSide.one_iff.mp (OnSide.mul_self t) hsquare
  have hle := hone.value_mono (rounds_add (isFinite_of_add hsum).1 hsquare) (by linarith)
  rw [value_one] at hle
  have hroot := rank_le_sqrt (y := 1) hsum (by decide) (by rwa [value_one, one_pow])
  rwa [← value_le_iff, value_one] at hroot

/-! ### The modulus -/

theorem onSide_hypotenuse (hx : x.isFinite = true) (hy : y.isFinite = true) : OnSide 1 (hypotenuse x y) := by
  obtain ⟨big, t, hle, -, hcases⟩ := exists_hypotenuse hx hy
  have hbig : OnSide 1 big := OnSide.one_iff.mpr fun _ => (abs_nonneg _).trans hle
  rcases hcases with h | h
  · rwa [h]
  · rw [h]
    exact hbig.mul (OnSide.sqrt _)

/-- The hypotenuse is zero only if both sides are. -/
theorem eq_zero_of_hypotenuse (hx : x.isFinite = true) (hy : y.isFinite = true) (h : (hypotenuse x y == 0) = true) :
    Binary64.value x = 0 ∧ Binary64.value y = 0 := by
  obtain ⟨big, t, hxle, hyle, hcases⟩ := exists_hypotenuse hx hy
  have hbig : Binary64.value big ≤ 0 := by
    rcases hcases with heq | heq
    · rw [heq] at h
      exact (value_of_beq_zero h).le
    · rw [heq] at h
      obtain ⟨hfinite, hroot⟩ := isFinite_of_mul (isFinite_of_beq_zero h)
      have hone := one_le_root hroot
      have hnonneg := (abs_nonneg _).trans hxle
      have hself := Rounds.of_value (ne_nan_of_isFinite hfinite)
      have hle := hself.value_mono (rounds_mul hfinite hroot) (le_mul_of_one_le_right hnonneg hone)
      rwa [value_of_beq_zero h] at hle
  exact ⟨abs_nonpos_iff.mp (hxle.trans hbig), abs_nonpos_iff.mp (hyle.trans hbig)⟩

end NumericArrays.Cartesian
