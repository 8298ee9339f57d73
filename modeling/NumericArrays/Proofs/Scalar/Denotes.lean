import NumericArrays.Proofs.Binary64.Zero
import NumericArrays.Proofs.NDArray.Elements

/-! Complex arithmetic on real numbers. The formulas of the textbook go along with every real arithmetic that
    adds and multiplies as doubles do, as long as results are finite and quotients are those of the textbook. -/
namespace NumericArrays

open Binary64

/-! ### Real arithmetic -/

/-- Real numbers that are added and multiplied as doubles are. Their quotients may be others. -/
class DoubleLike (X : Type) [Arith X] [MatrixScalar X Float] where
  toFloat : X → Float
  toFloat_one : toFloat 1 = 1
  toFloat_sub : ∀ x y, toFloat (x - y) = toFloat x - toFloat y
  toFloat_mul : ∀ x y, toFloat (x * y) = toFloat x * toFloat y
  modulus_eq : ∀ x, MatrixScalar.modulus x = (toFloat x).abs

open DoubleLike (toFloat)

instance : DoubleLike Float where
  toFloat x := x
  toFloat_one := rfl
  toFloat_sub _ _ := rfl
  toFloat_mul _ _ := rfl
  modulus_eq _ := rfl

/-- Doubles divided as complex numbers are: both are multiplied by the denominator first. -/
structure Textbook where
  value : Float

namespace Textbook

instance : Zero Textbook := ⟨⟨0⟩⟩

instance : One Textbook := ⟨⟨1⟩⟩

instance : Add Textbook := ⟨fun x y => ⟨x.value + y.value⟩⟩

instance : Sub Textbook := ⟨fun x y => ⟨x.value - y.value⟩⟩

instance : Mul Textbook := ⟨fun x y => ⟨x.value * y.value⟩⟩

instance : Div Textbook := ⟨fun x y => ⟨x.value * y.value / (y.value * y.value)⟩⟩

instance : Neg Textbook := ⟨fun x => ⟨-x.value⟩⟩

instance : BEq Textbook := ⟨fun x y => x.value == y.value⟩

instance : MatrixScalar Textbook Float where
  conj x := x
  modulus x := x.value.abs
  re x := x.value
  ofReal x := ⟨x⟩
  normSq x := x.value * x.value

instance : DoubleLike Textbook where
  toFloat := value
  toFloat_one := rfl
  toFloat_sub _ _ := rfl
  toFloat_mul _ _ := rfl
  modulus_eq _ := rfl

end Textbook

variable {X : Type} [Arith X] [MatrixScalar X Float] [DoubleLike X] {x y : X}

def FiniteDouble (x : X) : Prop := (toFloat x).isFinite = true

instance (x : X) : Decidable (FiniteDouble x) := inferInstanceAs (Decidable (_ = _))

namespace FiniteDouble

theorem of_sub (h : FiniteDouble (x - y)) : FiniteDouble x ∧ FiniteDouble y := by
  unfold FiniteDouble at h ⊢
  rw [DoubleLike.toFloat_sub] at h
  exact isFinite_of_sub h

theorem of_mul (h : FiniteDouble (x * y)) : FiniteDouble x ∧ FiniteDouble y := by
  unfold FiniteDouble at h ⊢
  rw [DoubleLike.toFloat_mul] at h
  exact isFinite_of_mul h

end FiniteDouble

/-! ### Quotients -/

/-- The quotient is finite, and the formula of the textbook yields it too. -/
def SameQuotient (x y : X) : Prop :=
  FiniteDouble (x / y) ∧ (toFloat x * toFloat y / (toFloat y * toFloat y) == toFloat (x / y)) = true

instance (x y : X) : Decidable (SameQuotient x y) := inferInstanceAs (Decidable (_ ∧ _))

theorem sameQuotient_textbook {x y : Textbook} (h : FiniteDouble (x / y)) : SameQuotient x y :=
  ⟨h, Float.beq_self_iff.mpr (ne_nan_of_isFinite h)⟩

namespace SameQuotient

theorem isFinite_textbook (h : SameQuotient x y) :
    (toFloat x * toFloat y / (toFloat y * toFloat y)).isFinite = true :=
  isFinite_of_beq h.2 h.1

theorem isFinite_product (h : SameQuotient x y) : (toFloat x * toFloat y).isFinite = true :=
  isFinite_of_div h.isFinite_textbook

theorem finite_numerator (h : SameQuotient x y) : FiniteDouble x := (isFinite_of_mul h.isFinite_product).1

theorem finite_denominator (h : SameQuotient x y) : FiniteDouble y := (isFinite_of_mul h.isFinite_product).2

theorem square_ne_nan (h : SameQuotient x y) : toFloat y * toFloat y ≠ Float.nan :=
  ne_nan_of_div h.isFinite_textbook

theorem square_ne_zero (h : SameQuotient x y) : ¬ (toFloat y * toFloat y == 0) = true :=
  ne_zero_of_div h.isFinite_textbook

theorem denominator_ne_zero (h : SameQuotient x y) : ¬ (toFloat y == 0) = true :=
  fun h0 => h.square_ne_zero (mul_zero_beq h.finite_denominator h0)

end SameQuotient

/-! ### Complex numbers -/

namespace Cartesian

/-- The complex number is the real number `x`, which is finite. Signs of zeros may differ. -/
structure Denotes (z : Cartesian Float) (x : X) : Prop where
  finite : FiniteDouble x
  re : (z.re == toFloat x) = true
  im : (z.im == 0) = true

namespace Denotes

variable {z w : Cartesian Float}

theorem ofReal {x : Float} (h : x.isFinite = true) : Denotes ⟨x, 0⟩ x where
  finite := h
  re := Float.beq_self_iff.mpr (ne_nan_of_isFinite h)
  im := zero_beq_zero

/-- It stands for all numbers that are the same double. -/
theorem congr {Y : Type} [Arith Y] [MatrixScalar Y Float] [DoubleLike Y] {y : Y} (h : Denotes z x)
    (hy : toFloat y = toFloat x) : Denotes z y where
  finite := by rw [FiniteDouble, hy]; exact h.finite
  re := hy ▸ h.re
  im := h.im

theorem one : Denotes (1 : Cartesian Float) (1 : X) :=
  (Denotes.ofReal (x := 1) (by decide)).congr DoubleLike.toFloat_one

theorem re_finite (h : Denotes z x) : z.re.isFinite = true := isFinite_of_beq h.re h.finite

theorem im_ne_nan (h : Denotes z x) : z.im ≠ Float.nan := ne_nan_of_isFinite (isFinite_of_beq_zero h.im)

/-- The parts that make a product real vanish. -/
theorem cross_beq (hz : Denotes z x) (hw : Denotes w y) :
    (z.im * w.im == 0) = true ∧ (z.re * w.im == 0) = true ∧ (z.im * w.re == 0) = true :=
  ⟨zero_mul_beq hz.im (isFinite_of_beq_zero hw.im), mul_zero_beq hz.re_finite hw.im,
    zero_mul_beq hz.im hw.re_finite⟩

theorem sub (hz : Denotes z x) (hw : Denotes w y) (h : FiniteDouble (x - y)) : Denotes (z - w) (x - y) where
  finite := h
  re := by
    unfold FiniteDouble at h
    rw [DoubleLike.toFloat_sub] at h ⊢
    exact sub_congr hz.re hw.re h
  im := beq_trans (sub_zero_beq hz.im_ne_nan hw.im) hz.im

theorem mul (hz : Denotes z x) (hw : Denotes w y) (h : FiniteDouble (x * y)) : Denotes (z * w) (x * y) := by
  have hfinite := h
  unfold FiniteDouble at hfinite
  rw [DoubleLike.toFloat_mul] at hfinite
  obtain ⟨hii, hri, hir⟩ := cross_beq hz hw
  have hproduct := mul_congr hz.re hw.re hfinite
  have hnan := ne_nan_of_isFinite (isFinite_of_beq hproduct hfinite)
  have hnan' := ne_nan_of_isFinite (isFinite_of_beq_zero hri)
  constructor
  · exact h
  · rw [DoubleLike.toFloat_mul]
    exact beq_trans (sub_zero_beq hnan hii) hproduct
  · exact beq_trans (add_zero_beq hnan' hir) hri

theorem div (hz : Denotes z x) (hw : Denotes w y) (h : SameQuotient x y) : Denotes (z / w) (x / y) := by
  obtain ⟨hii, hri, hir⟩ := cross_beq hz hw
  have hden : w.re = toFloat y := eq_of_beq_of_ne_zero hw.re h.denominator_ne_zero
  -- the square may be infinite, but then it is so in both formulas
  have hsquare : w.re * w.re + w.im * w.im = toFloat y * toFloat y := by
    have himag := zero_mul_beq hw.im (isFinite_of_beq_zero hw.im)
    rw [hden]
    exact eq_of_beq_of_ne_zero (add_zero_beq h.square_ne_nan himag) h.square_ne_zero
  have hproduct : (z.re * w.re == toFloat x * toFloat y) = true := mul_congr hz.re hw.re h.isFinite_product
  have hre : (z.re * w.re + z.im * w.im == toFloat x * toFloat y) = true :=
    beq_trans (add_zero_beq (ne_nan_of_isFinite (isFinite_of_beq hproduct h.isFinite_product)) hii)
      hproduct
  have him : (z.im * w.re - z.re * w.im == 0) = true :=
    beq_trans (sub_zero_beq (ne_nan_of_isFinite (isFinite_of_beq_zero hir)) hri) hir
  constructor
  · exact h.1
  · change ((z.re * w.re + z.im * w.im) / (w.re * w.re + w.im * w.im) == toFloat (x / y)) = true
    rw [hsquare]
    exact beq_trans (div_congr_left hre h.square_ne_zero h.square_ne_nan h.isFinite_textbook) h.2
  · change ((z.im * w.re - z.re * w.im) / (w.re * w.re + w.im * w.im) == 0) = true
    rw [hsquare]
    exact zero_div_beq him h.square_ne_zero h.square_ne_nan

/-- The distance from zero is the absolute value, bit by bit. -/
theorem modulus_eq (h : Denotes z x) : MatrixScalar.modulus z = MatrixScalar.modulus x := by
  have hre : z.re.abs = (toFloat x).abs := abs_congr h.re
  have him : z.im.abs = 0 := abs_of_beq_zero h.im
  have hsum : ((toFloat x).abs + 0 == (toFloat x).abs) = true :=
    add_zero_beq (abs_ne_nan (ne_nan_of_isFinite h.finite)) zero_beq_zero
  rw [DoubleLike.modulus_eq x]
  change hypotenuse z.re z.im = (toFloat x).abs
  unfold hypotenuse
  simp only [Magnitude.magnitude, hre, him]
  rw [if_neg (not_abs_lt_zero (toFloat x))]
  simp only [hsum, if_true]

end Denotes

end Cartesian
end NumericArrays
