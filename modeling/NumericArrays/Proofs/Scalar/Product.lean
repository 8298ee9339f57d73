import NumericArrays.Proofs.Binary64.Nan

/-! Products of complex numbers, one of which lies on an axis: the operands may change places, and NaN comes
    of numbers only if neither operand is real and one of them is infinite. -/
namespace NumericArrays.Cartesian

open Binary64

section Commute

variable {R : Type} [Arith R] [Std.Commutative fun x y : R => x + y]

instance commutative_add : Std.Commutative fun x y : Cartesian R => x + y where
  comm x y :=
    have hadd (x y : R) : x + y = y + x := Std.Commutative.comm x y
    Cartesian.ext (hadd x.re y.re) (hadd x.im y.im)

variable [Std.Commutative fun x y : R => x * y]

/-- With the operands exchanged, the branch that is taken is the mirror image of the first one. -/
theorem product_comm (a b : Cartesian R) : a.product b = b.product a := by
  have hadd (x y : R) : x + y = y + x := Std.Commutative.comm x y
  have hmul (x y : R) : x * y = y * x := Std.Commutative.comm x y
  unfold product
  cases a.im == 0 <;> cases b.im == 0 <;> cases a.re == 0 <;> cases b.re == 0 <;> simp [hadd, hmul]

end Commute

/-! ### Numbers on an axis -/

def IsNumber (z : Cartesian Float) : Prop := z.re ≠ Float.nan ∧ z.im ≠ Float.nan

def IsFinite (z : Cartesian Float) : Prop := z.re.isFinite = true ∧ z.im.isFinite = true

def OnAxis (z : Cartesian Float) : Prop := (z.re == 0) ≠ (z.im == 0)

instance (z : Cartesian Float) : Decidable z.IsNumber := inferInstanceAs (Decidable (_ ∧ _))

instance (z : Cartesian Float) : Decidable z.IsFinite := inferInstanceAs (Decidable (_ ∧ _))

instance (z : Cartesian Float) : Decidable z.OnAxis := inferInstanceAs (Decidable (_ ≠ _))

variable {a b : Cartesian Float}

theorem OnAxis.re_eq_zero_iff (h : b.OnAxis) : (b.re == 0) = true ↔ ¬ (b.im == 0) = true := by
  unfold OnAxis at h
  revert h
  cases b.re == 0 <;> cases b.im == 0 <;> decide

/-- The part of a real number that is zero is left out beside any number. -/
theorem isNumber_product_of_real (ha : a.re ≠ Float.nan) (hre : ¬ (a.re == 0) = true)
    (him : (a.im == 0) = true) (hb : b.IsNumber) (h : a.re.isFinite = true ∨ b.OnAxis) :
    (a.product b).IsNumber := by
  have hzero : (0 : Float) ≠ Float.nan := by decide
  have hscale {x : Float} (hx : x ≠ Float.nan) := (mul_ne_nan_iff_of_ne_zero ha hre hx).mpr
  by_cases hbim : (b.im == 0) = true
  · have hproduct : a.product b = ⟨a.re * b.re, 0⟩ := by simp [product, him, hbim]
    have hbre : a.re.isFinite = true ∨ ¬ (b.re == 0) = true :=
      h.imp_right fun hon hbre => hon.re_eq_zero_iff.mp hbre hbim
    rw [hproduct]
    exact ⟨hscale hb.1 hbre, hzero⟩
  · by_cases hbre : (b.re == 0) = true
    · have hproduct : a.product b = ⟨0, a.re * b.im⟩ := by simp [product, him, hbim, hbre]
      rw [hproduct]
      exact ⟨hzero, hscale hb.2 (.inr hbim)⟩
    · have hproduct : a.product b = ⟨a.re * b.re, a.re * b.im⟩ := by
        simp [product, him, hbim, hbre, hre]
      rw [hproduct]
      exact ⟨hscale hb.1 (.inr hbre), hscale hb.2 (.inr hbim)⟩

/-- That of an imaginary number is left out beside a real number only; both parts of any other meet it. -/
theorem isNumber_product_of_imaginary (ha : a.im ≠ Float.nan) (hre : (a.re == 0) = true)
    (him : ¬ (a.im == 0) = true) (hb : b.IsNumber) (h : a.im.isFinite = true ∨ b.OnAxis) :
    (a.product b).IsNumber ↔ (b.im == 0) = true ∨ a.im.isFinite = true ∧ b.IsFinite := by
  have hzero : (0 : Float) ≠ Float.nan := by decide
  by_cases hbim : (b.im == 0) = true
  · have hproduct : a.product b = ⟨0, a.im * b.re⟩ := by simp [product, hre, him, hbim]
    have hbre : a.im.isFinite = true ∨ ¬ (b.re == 0) = true :=
      h.imp_right fun hon hbre => hon.re_eq_zero_iff.mp hbre hbim
    rw [hproduct]
    exact iff_of_true ⟨hzero, (mul_ne_nan_iff_of_ne_zero ha him hb.1).mpr hbre⟩ (.inl hbim)
  · have hproduct : a.product b = ⟨a.re * b.re - a.im * b.im, a.re * b.im + a.im * b.re⟩ := by
      simp [product, him, hbim]
    -- the products of the part that is zero are zeros or NaN, and no infinity meets the other two
    rw [hproduct, IsNumber, sub_ne_nan_iff (isInf_zero_mul hre _), add_ne_nan_iff (isInf_zero_mul hre _),
      zero_mul_ne_nan_iff hre hb.1, zero_mul_ne_nan_iff hre hb.2, mul_ne_nan_iff_of_ne_zero ha him hb.1,
      mul_ne_nan_iff_of_ne_zero ha him hb.2]
    constructor
    · rintro ⟨⟨hbre, -⟩, hbimfin, hor⟩
      refine .inr ⟨?_, hbre, hbimfin⟩
      rcases h with hfinite | hon
      · exact hfinite
      · exact hor.resolve_right (not_not.mpr (hon.re_eq_zero_iff.mpr hbim))
    · rintro (hbimzero | ⟨hfinite, hbre, hbimfin⟩)
      · exact absurd hbimzero hbim
      · exact ⟨⟨hbre, .inl hfinite⟩, hbimfin, .inl hfinite⟩

/-- Neither operand being real and one of them being infinite is the only way to NaN. -/
theorem isNumber_product_iff (ha : a.IsNumber) (hb : b.IsNumber) (hon : a.OnAxis)
    (h : a.IsFinite ∨ b.OnAxis) :
    ((a.product b).IsNumber ↔
      (a.im == 0) = true ∨ (b.im == 0) = true ∨ a.IsFinite ∧ b.IsFinite) ∧
    ((b.product a).IsNumber ↔
      (a.im == 0) = true ∨ (b.im == 0) = true ∨ a.IsFinite ∧ b.IsFinite) := by
  rw [product_comm b a, and_self]
  by_cases him : (a.im == 0) = true
  · have hre : ¬ (a.re == 0) = true := fun hre => hon.re_eq_zero_iff.mp hre him
    exact iff_of_true (isNumber_product_of_real ha.1 hre him hb (h.imp_left And.left)) (.inl him)
  · have hre := hon.re_eq_zero_iff.mpr him
    have hfinite : a.IsFinite ↔ a.im.isFinite = true := and_iff_right (isFinite_of_beq_zero hre)
    rw [isNumber_product_of_imaginary ha.2 hre him hb (h.imp_left And.right), hfinite, or_iff_right him]

/-- An imaginary number beside an infinite real one. -/
theorem isNumber_product_iff_infinite :
    let a : Cartesian Float := ⟨0, 2⟩
    let b : Cartesian Float := ⟨-infinity, 0⟩
    (a.IsNumber ∧ b.IsNumber ∧ a.OnAxis ∧ (a.IsFinite ∨ b.OnAxis)) ∧
      (a.product b).IsNumber ∧ (b.product a).IsNumber := by
  have h := isNumber_product_iff (a := ⟨0, 2⟩) (b := ⟨-infinity, 0⟩) (by decide) (by decide) (by decide)
    (.inl (by decide))
  exact ⟨by decide, h.1.mpr (.inr (.inl (by decide))), h.2.mpr (.inr (.inl (by decide)))⟩

/-- The product of the imaginary unit and an infinite imaginary number has both parts multiplied, and NaN
    for its imaginary part. -/
theorem product_imaginary_infinite :
    ¬ ∀ a b : Cartesian Float, a.IsNumber → b.IsNumber → a.OnAxis → a.IsFinite ∨ b.OnAxis →
      (a.product b).IsNumber ∧ (b.product a).IsNumber := by
  intro h
  have hnumber := h ⟨0, 1⟩ ⟨0, infinity⟩ (by decide) (by decide) (by decide) (.inl (by decide))
  exact absurd hnumber.1 (by decide)

end NumericArrays.Cartesian
