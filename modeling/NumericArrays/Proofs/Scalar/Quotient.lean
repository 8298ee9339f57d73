import NumericArrays.Proofs.Scalar.Exact

/-! Products and quotients of complex numbers over an ordered field: every branch has the value of the
    textbook, and none divides by zero. -/
namespace NumericArrays

namespace Exact

/-- Numbers of an ordered field. -/
scoped instance (priority := low) {K : Type} [Field K] [LinearOrder K] : Magnitude K := ⟨abs⟩

end Exact

open scoped Exact

/-! ### Numbers that notice a division by zero -/

/-- A number, unless there was a division by zero on the way to it. -/
inductive Checked (K : Type) where
  | value (x : K)
  | undefined
deriving DecidableEq, Repr

namespace Checked

variable {K : Type}

def both (f : K → K → Checked K) : Checked K → Checked K → Checked K
  | value x, value y => f x y
  | _, _ => undefined

def map (f : K → K) : Checked K → Checked K
  | value x => value (f x)
  | undefined => undefined

variable [Field K] [LinearOrder K]

instance : Zero (Checked K) := ⟨value 0⟩

instance : One (Checked K) := ⟨value 1⟩

instance : Add (Checked K) := ⟨both fun x y => value (x + y)⟩

instance : Sub (Checked K) := ⟨both fun x y => value (x - y)⟩

instance : Mul (Checked K) := ⟨both fun x y => value (x * y)⟩

instance : Div (Checked K) := ⟨both fun x y => if y = 0 then undefined else value (x / y)⟩

instance : Neg (Checked K) := ⟨map fun x => -x⟩

instance : Magnitude (Checked K) := ⟨map abs⟩

instance : LE (Checked K) where
  le
    | value x, value y => x ≤ y
    | _, _ => False

instance : DecidableLE (Checked K)
  | value x, value y => inferInstanceAs (Decidable (x ≤ y))
  | value _, undefined | undefined, _ => inferInstanceAs (Decidable False)

end Checked

/-! ### Exact readings -/

/-- Numbers of a field read as numbers of another type, with the same results: only the results of divisions
    by zero may differ. -/
structure ExactReading {K R : Type} [Field K] [LinearOrder K] [Arith R] [Magnitude R] [LE R]
    (read : K → R) : Prop where
  zero : read 0 = 0
  one : read 1 = 1
  add x y : read (x + y) = read x + read y
  sub x y : read (x - y) = read x - read y
  mul x y : read (x * y) = read x * read y
  neg x : read (-x) = -read x
  div {x y} (hy : y ≠ 0) : read (x / y) = read x / read y
  beq x y : (read x == read y) = (x == y)
  magnitude x : read |x| = Magnitude.magnitude (read x)
  le x y : read x ≤ read y ↔ x ≤ y

namespace ExactReading

variable {K : Type} [Field K] [LinearOrder K]

theorem id : ExactReading (id : K → K) where
  zero := rfl
  one := rfl
  add _ _ := rfl
  sub _ _ := rfl
  mul _ _ := rfl
  neg _ := rfl
  div _ := rfl
  beq _ _ := rfl
  magnitude _ := rfl
  le _ _ := Iff.rfl

theorem value : ExactReading (Checked.value : K → Checked K) where
  zero := rfl
  one := rfl
  add _ _ := rfl
  sub _ _ := rfl
  mul _ _ := rfl
  neg _ := rfl
  div hy := (if_neg hy).symm
  beq x y := Bool.eq_iff_iff.mpr (by simp)
  magnitude _ := rfl
  le _ _ := Iff.rfl

end ExactReading

namespace Cartesian

def map {R S : Type} (f : R → S) (z : Cartesian R) : Cartesian S := ⟨f z.re, f z.im⟩

/-! ### Quotients with fewer squares -/

section Field

variable {K : Type} [Field K]

/-- Numerator and denominator over the part `y` of the denominator. -/
theorem scaled_div {y : K} (hy : y ≠ 0) (x p q : K) :
    (p * (x / y) + q) / (y * (1 + x / y * (x / y))) = (p * x + q * y) / (x * x + y * y) := by
  have hnum : p * (x / y) + q = (p * x + q * y) / y := by
    field_simp
  have hden : y * (1 + x / y * (x / y)) = (x * x + y * y) / y := by
    field_simp
    ring
  rw [hnum, hden, div_div_div_cancel_right₀ hy]

theorem scaled_ne_zero [LinearOrder K] [IsStrictOrderedRing K] {y : K} (hy : y ≠ 0) (x : K) :
    y * (1 + x / y * (x / y)) ≠ 0 := by
  have hpos : 0 < 1 + x / y * (x / y) := add_pos_of_pos_of_nonneg one_pos (mul_self_nonneg _)
  exact mul_ne_zero hy hpos.ne'

variable [BEq K] {a b : Cartesian K}

theorem div_of_im_eq_zero (hre : b.re ≠ 0) (him : b.im = 0) : a / b = ⟨a.re / b.re, a.im / b.re⟩ := by
  ext
  · simp only [div_re, him, mul_zero, add_zero]
    exact mul_div_mul_right _ _ hre
  · simp only [div_im, him, mul_zero, add_zero, sub_zero]
    exact mul_div_mul_right _ _ hre

theorem div_of_re_eq_zero (hre : b.re = 0) (him : b.im ≠ 0) : a / b = ⟨a.im / b.im, -a.re / b.im⟩ := by
  ext
  · simp only [div_re, hre, mul_zero, zero_add]
    exact mul_div_mul_right _ _ him
  · simp only [div_im, hre, mul_zero, zero_add, zero_sub, ← neg_mul]
    exact mul_div_mul_right _ _ him

theorem div_over_im (him : b.im ≠ 0) :
    a / b = ⟨(a.re * (b.re / b.im) + a.im) / (b.im * (1 + b.re / b.im * (b.re / b.im))),
      (a.im * (b.re / b.im) - a.re) / (b.im * (1 + b.re / b.im * (b.re / b.im)))⟩ := by
  ext
  · exact (scaled_div him ..).symm
  · simp only [div_im, sub_eq_add_neg, ← neg_mul, scaled_div him]

theorem div_over_re (hre : b.re ≠ 0) :
    a / b = ⟨(a.re + a.im * (b.im / b.re)) / (b.re * (1 + b.im / b.re * (b.im / b.re))),
      (a.im - a.re * (b.im / b.re)) / (b.re * (1 + b.im / b.re * (b.im / b.re)))⟩ := by
  ext
  · simp only [div_re, add_comm (a.re * b.re), add_comm (b.re * b.re), add_comm a.re, scaled_div hre]
  · simp only [div_im, sub_eq_neg_add, ← neg_mul, add_comm (b.re * b.re), scaled_div hre]

variable [LinearOrder K] [IsStrictOrderedRing K]

/-- The formula of the textbook solves the equation of a quotient. -/
theorem mul_eq_iff (hb : b ≠ 0) {q : Cartesian K} : q * b = a ↔ q = a / b := by
  have hne : b.re * b.re + b.im * b.im ≠ 0 := mt normSq_eq_zero.mp hb
  constructor
  · rintro rfl
    ext
    · rw [div_re, mul_re, mul_im, eq_div_iff hne]
      ring
    · rw [div_im, mul_re, mul_im, eq_div_iff hne]
      ring
  · rintro rfl
    ext
    · rw [mul_re, div_re, div_im, div_mul_eq_mul_div, div_mul_eq_mul_div, ← sub_div, div_eq_iff hne]
      ring
    · rw [mul_im, div_re, div_im, div_mul_eq_mul_div, div_mul_eq_mul_div, ← add_div, div_eq_iff hne]
      ring

theorem div_self_eq_one (hb : b ≠ 0) : b / b = 1 := by
  have hone : 1 * b = b := by ext <;> simp
  exact ((mul_eq_iff hb).mp hone).symm

end Field

/-! ### The branches -/

section Branches

variable {K R : Type} [Field K] [LinearOrder K] [Arith R] [Magnitude R] [LE R] {read : K → R}

/-- What a branch of the product leaves out is zero. -/
theorem product_map (h : ExactReading read) (a b : Cartesian K) :
    (a.map read).product (b.map read) = (a * b).map read := by
  unfold product map
  simp only [← h.zero, h.beq, Bool.and_eq_true, beq_iff_eq, ← h.mul, ← h.add, ← h.sub]
  split_ifs <;> simp_all [mul_comm]

variable [IsStrictOrderedRing K] [DecidableLE R]

/-- The branch that is taken has the value of the textbook, and divides by numbers that are not zero: the
    reading is not asked for the result of any other division. -/
theorem quotient_map (h : ExactReading read) (a : Cartesian K) {b : Cartesian K} (hb : b ≠ 0) :
    (a.map read).quotient (b.map read) = (a / b).map read := by
  have hparts : b.re = 0 → b.im ≠ 0 := fun hre him => hb (Cartesian.ext hre him)
  unfold quotient map
  simp only [← h.zero, ← h.one, h.beq, ← h.magnitude, h.le, Bool.and_eq_true, beq_iff_eq]
  split_ifs with hreals hreal himaginary himaginaries hsame hpivot
  · have hre : b.re ≠ 0 := fun hre => hparts hre hreals.2
    rw [div_of_im_eq_zero hre hreals.2, hreals.1, zero_div, h.div hre]
  · have hre : b.re ≠ 0 := fun hre => hparts hre hreal
    rw [div_of_im_eq_zero hre hreal, h.div hre, h.div hre]
  · rw [div_of_re_eq_zero himaginary.2 hreal, himaginary.1, zero_div, h.div hreal, h.neg]
  · rw [div_of_re_eq_zero himaginaries.2 hreal, himaginaries.1, neg_zero, zero_div, h.div hreal]
  · obtain rfl : a = b := Cartesian.ext hsame.1 hsame.2
    rw [div_self_eq_one hb]
    rfl
  · rw [div_over_im hreal]
    simp only [h.div (scaled_ne_zero hreal b.re), h.div hreal, h.add, h.sub, h.mul]
  · -- the larger part of the denominator is not zero, or both were
    have hre : b.re ≠ 0 := by
      intro hre
      rw [hre, abs_zero] at hpivot
      exact hpivot (abs_nonneg b.im)
    rw [div_over_re hre]
    simp only [h.div (scaled_ne_zero hre b.im), h.div hre, h.add, h.sub, h.mul]

end Branches

section Textbook

variable {K : Type} [Field K] [LinearOrder K] (a b : Cartesian K)

/-- Numbers that are checked notice the division by zero. -/
theorem quotient_zero_re : ((a.map Checked.value).quotient (map Checked.value 0)).re = .undefined := by
  have hdiv : Checked.value a.re / (0 : Checked K) = .undefined := if_pos rfl
  have him : ((0 : Checked K) == 0) = true := beq_self_eq_true _
  change (quotient (a.map Checked.value) ⟨0, 0⟩).re = _
  simp only [quotient, him, Bool.and_true, if_true]
  split
  · exact hdiv
  · exact hdiv

/-- Product and quotient are those of the textbook. The quotient by any number but zero is found without a
    division by zero, and is the only solution of its equation. -/
theorem product_quotient_exact [IsStrictOrderedRing K] :
    a.product b = a * b ∧
      ((a.map Checked.value).quotient (b.map Checked.value) = (a.quotient b).map Checked.value ↔ b ≠ 0) ∧
      (b ≠ 0 →
        a.quotient b = a / b ∧ (∀ q, q * b = a ↔ q = a.quotient b) ∧ (a.product b).quotient b = a) := by
  have hproduct : a.product b = a * b := product_map .id a b
  have hquotient (hb : b ≠ 0) (a : Cartesian K) : a.quotient b = a / b := quotient_map .id a hb
  refine ⟨hproduct, ⟨?_, fun hb => ?_⟩, fun hb => ⟨hquotient hb a, fun q => ?_, ?_⟩⟩
  · rintro hvalue rfl
    have hre := quotient_zero_re a
    rw [hvalue] at hre
    cases hre
  · rw [hquotient hb, quotient_map .value a hb]
  · rw [hquotient hb, mul_eq_iff hb]
  · rw [hproduct, hquotient hb, ← (mul_eq_iff hb).mp rfl]

end Textbook

/-- A quotient of rational parts, with the imaginary part of the denominator as the larger one. -/
theorem product_quotient_exact_rat :
    let a : Cartesian ℚ := ⟨1, 2⟩
    let b : Cartesian ℚ := ⟨3, -4⟩
    b ≠ 0 ∧ (∀ q, q * b = a ↔ q = a.quotient b) ∧ (a.product b).quotient b = a := by
  have hb : (⟨3, -4⟩ : Cartesian ℚ) ≠ 0 := by decide
  have h := (product_quotient_exact ⟨1, 2⟩ ⟨3, -4⟩).2.2 hb
  exact ⟨hb, h.2⟩

end Cartesian
end NumericArrays
