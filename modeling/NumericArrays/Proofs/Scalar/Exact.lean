import NumericArrays.Proofs.Mat.Exact

/-! Complex numbers over the real ones: the operations of the library make a field, and its modulus is
    exact. -/
namespace NumericArrays.Cartesian

open scoped Exact

/-! ### Parts -/

section Parts

variable {R : Type} [Arith R] (a b : Cartesian R)

@[simp] theorem zero_re : (0 : Cartesian R).re = 0 := rfl
@[simp] theorem zero_im : (0 : Cartesian R).im = 0 := rfl
@[simp] theorem one_re : (1 : Cartesian R).re = 1 := rfl
@[simp] theorem one_im : (1 : Cartesian R).im = 0 := rfl
@[simp] theorem add_re : (a + b).re = a.re + b.re := rfl
@[simp] theorem add_im : (a + b).im = a.im + b.im := rfl
@[simp] theorem sub_re : (a - b).re = a.re - b.re := rfl
@[simp] theorem sub_im : (a - b).im = a.im - b.im := rfl
@[simp] theorem neg_re : (-a).re = -a.re := rfl
@[simp] theorem neg_im : (-a).im = -a.im := rfl
@[simp] theorem mul_re : (a * b).re = a.re * b.re - a.im * b.im := rfl
@[simp] theorem mul_im : (a * b).im = a.re * b.im + a.im * b.re := rfl
theorem div_re : (a / b).re = (a.re * b.re + a.im * b.im) / (b.re * b.re + b.im * b.im) := rfl
theorem div_im : (a / b).im = (a.im * b.re - a.re * b.im) / (b.re * b.re + b.im * b.im) := rfl

end Parts

theorem normSq_eq_zero {K : Type} [Field K] [LinearOrder K] [IsStrictOrderedRing K] [BEq K]
    {a : Cartesian K} : a.re * a.re + a.im * a.im = 0 ↔ a = 0 := by
  rw [mul_self_add_mul_self_eq_zero, Cartesian.ext_iff]
  rfl

/-- Taking the larger side out of the root, or leaving out a side that is zero, changes nothing. -/
theorem hypotenuse_eq (x y : ℝ) : hypotenuse x y = √(x * x + y * y) := by
  have hlarger {big small : ℝ} (hsmall : 0 ≤ small) (hle : small ≤ big) :
      (if big + small == big then big else big * √(1 + small / big * (small / big))) =
        √(big * big + small * small) := by
    by_cases hzero : small = 0
    · rw [hzero, if_pos (by simp), mul_zero, add_zero, Real.sqrt_mul_self (hsmall.trans hle)]
    · have hbig : 0 < big := (lt_of_le_of_ne hsmall (Ne.symm hzero)).trans_le hle
      have hsquare : big * big + small * small = big * big * (1 + small / big * (small / big)) := by
        field_simp
      rw [if_neg (by simpa using hzero), hsquare, Real.sqrt_mul (mul_self_nonneg big),
        Real.sqrt_mul_self hbig.le]
  rw [← abs_mul_abs_self x, ← abs_mul_abs_self y]
  unfold hypotenuse
  by_cases hlt : |x| < |y|
  · rw [add_comm]
    simpa [Magnitude.magnitude, RealScalar.sqrt, hlt] using hlarger (abs_nonneg x) hlt.le
  · simpa [Magnitude.magnitude, RealScalar.sqrt, hlt] using hlarger (abs_nonneg y) (not_lt.1 hlt)

theorem modulus_eq (a : Cartesian ℝ) : MatrixScalar.modulus a = √(a.re * a.re + a.im * a.im) :=
  hypotenuse_eq a.re a.im

end NumericArrays.Cartesian

namespace NumericArrays.Exact

open Cartesian

/-- The field with the operations of the library. -/
noncomputable scoped instance : Field (Cartesian ℝ) where
  add_assoc a b c := Cartesian.ext (add_assoc _ _ _) (add_assoc _ _ _)
  zero_add a := Cartesian.ext (zero_add _) (zero_add _)
  add_zero a := Cartesian.ext (add_zero _) (add_zero _)
  add_comm a b := Cartesian.ext (add_comm _ _) (add_comm _ _)
  left_distrib a b c := by ext <;> simp <;> ring
  right_distrib a b c := by ext <;> simp <;> ring
  zero_mul a := by ext <;> simp
  mul_zero a := by ext <;> simp
  mul_assoc a b c := by ext <;> simp <;> ring
  one_mul a := by ext <;> simp
  mul_one a := by ext <;> simp
  mul_comm a b := by ext <;> simp <;> ring
  neg_add_cancel a := Cartesian.ext (neg_add_cancel _) (neg_add_cancel _)
  sub_eq_add_neg a b := Cartesian.ext (sub_eq_add_neg _ _) (sub_eq_add_neg _ _)
  inv a := 1 / a
  div_eq_mul_inv a b := by
    ext
    · simp only [div_re, div_im, mul_re, one_re, one_im]
      ring
    · simp only [div_re, div_im, mul_im, one_re, one_im]
      ring
  mul_inv_cancel a ha := by
    have hne : a.re * a.re + a.im * a.im ≠ 0 := mt normSq_eq_zero.1 ha
    ext
    · simp only [mul_re, div_re, div_im, one_re, one_im]
      rw [mul_div, mul_div, ← sub_div, div_eq_one_iff_eq hne]
      ring
    · simp only [mul_im, div_re, div_im, one_re, one_im]
      ring
  inv_zero := by
    ext
    · simp [div_re]
    · simp [div_im]
  exists_pair_ne := ⟨0, 1, by simp [Cartesian.ext_iff]⟩
  nsmul := nsmulRec
  zsmul := zsmulRec
  nnqsmul := _
  nnqsmul_def _ _ := rfl
  qsmul := _
  qsmul_def _ _ := rfl

scoped instance : ExactModulus (Cartesian ℝ) ℝ where
  modulus_nonneg a := by
    rw [modulus_eq]
    exact Real.sqrt_nonneg _
  modulus_eq_zero {a} := by
    have hnonneg : 0 ≤ a.re * a.re + a.im * a.im := add_nonneg (mul_self_nonneg _) (mul_self_nonneg _)
    rw [modulus_eq, Real.sqrt_eq_zero hnonneg, normSq_eq_zero]
  modulus_mul a b := by
    have hnonneg : 0 ≤ a.re * a.re + a.im * a.im := add_nonneg (mul_self_nonneg _) (mul_self_nonneg _)
    rw [modulus_eq, modulus_eq, modulus_eq, ← Real.sqrt_mul hnonneg, mul_re, mul_im]
    congr 1
    ring

end NumericArrays.Exact
