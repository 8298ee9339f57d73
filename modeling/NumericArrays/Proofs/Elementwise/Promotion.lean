import NumericArrays.Proofs.Elementwise.Law

/-! An imaginary part of zero makes no difference to the operators. -/
namespace NumericArrays

/-! ### Imaginary parts of real numbers -/

theorem zero_add_zero : (0 : Float) + 0 = 0 := by decide +kernel

theorem zero_sub_zero : (0 : Float) - 0 = 0 := by decide +kernel

theorem neg_zero_beq_zero : (-(0 : Float) == 0) = true := by decide +kernel

/-- The part of a zero buffer that is in use stays zero when it is negated. -/
theorem negated_zeros (n count p : Nat) :
    ((((Array.replicate n (0 : Float)).extract 0 count).map (-·)).getD p 0 == 0) = true := by
  rw [Array.extract_replicate, Array.map_replicate]
  by_cases hp : p < min count n
  · simp [hp, neg_zero_beq_zero]
  · simp [hp, zero_beq_zero]

/-! ### Values -/

namespace Value

variable {v : Value} {dims : Shape} {real imag : Array Float} {kind : Storage}

def promote : Value → Value
  | number x => number (.complex x.toCartesian)
  | array a => array a.promote

theorem toArray_promote (v : Value) : v.promote.toArray = v.toArray.promote := by
  cases v with
  | number x => cases x <;> rfl
  | array a => rfl

theorem promote_sameElements (hk : v.kind ≠ .logical) :
    v.promote.toArray.SameElements v.toArray := by
  rw [← kind_toArray] at hk
  rw [toArray_promote]
  refine ⟨NDArray.dims_promote, ?_, fun _ => NDArray.cartesian_promote⟩
  rw [NDArray.kind_promote fun h => absurd h hk, if_neg hk]

theorem demote_number_of_zero (x : Float) {y : Float} (h : (y == 0) = true) :
    (number (.complex ⟨x, y⟩)).demote = number (.real x) :=
  congrArg number (if_pos h)

/-- An imaginary buffer of zeros is dropped. -/
theorem demote_array_of_zero (h : ∀ p < dims.count, (imag.getD p 0 == 0) = true) :
    (array ⟨dims, real, some imag, kind⟩).demote = (array ⟨dims, real, none, kind⟩).demote := by
  have hzero : NDArray.hasZeroImag ⟨dims, real, some imag, kind⟩ = true := NDArray.hasZeroImag_iff.mpr h
  have hdrop : NDArray.demote ⟨dims, real, some imag, kind⟩ = NDArray.demote ⟨dims, real, none, kind⟩ :=
    NDArray.demote_of_zeroImag hzero
  simp only [demote, hdrop]

end Value

open Elementwise

/-! ### Arithmetic -/

namespace Arithmetic

variable {op : Arithmetic} {a b : NDArray}

/-- Unlike powers, the other operations do on real numbers what they do on complex ones. -/
theorem complex_ofReals (hop : op ≠ .power) (x y : Float) :
    op.complex ⟨x, 0⟩ ⟨y, 0⟩ = ⟨op.real x y, 0⟩ := by
  cases op with
  | add => exact Cartesian.ext rfl zero_add_zero
  | sub => exact Cartesian.ext rfl zero_sub_zero
  | mul => simp [complex, real, Cartesian.product, zero_beq_zero]
  | rightDiv => simp [complex, real, Cartesian.quotient, zero_beq_zero]
  | leftDiv => simp [complex, real, Cartesian.quotient, zero_beq_zero]
  | power => exact absurd rfl hop

theorem complexElement_of_real (hop : op ≠ .power) (ha : a.isComplex = false) (hb : b.isComplex = false)
    (i : Nat) : op.complexElement a b i = ⟨op.realElement a b i, 0⟩ := by
  simp only [complexElement, realElement, NDArray.cartesian_of_real ha, NDArray.cartesian_of_real hb,
    complex_ofReals hop, Storage.store_zero]

/-- On real arrays the two forms of an answer differ in an imaginary part of zero. -/
theorem demote_realAnswer (hop : op ≠ .power) (ha : a.isComplex = false) (hb : b.isComplex = false)
    (dims : Shape) : (op.realAnswer a b dims).demote = (op.complexAnswer a b dims).demote := by
  have helement := complexElement_of_real hop ha hb
  unfold realAnswer complexAnswer
  dsimp only
  split
  · rw [helement, Value.demote_number_of_zero _ zero_beq_zero]
    rfl
  · simp only [helement, Array.map_ofFn]
    refine (Value.demote_array_of_zero fun p hp => ?_).symm
    simp [hp, zero_beq_zero]

/-- Had the operation run on complex numbers, its answer would be the same. -/
theorem demote_onArrays (hop : op ≠ .power) (a b : NDArray) :
    (op.onArrays a b).map Value.demote =
      (broadcast a b).map fun dims => (op.complexAnswer a b dims).demote := by
  rw [onArrays_eq]
  cases broadcast a b with
  | error e => rfl
  | ok dims =>
    refine congrArg Except.ok ?_
    dsimp only
    split
    · rfl
    · rename_i hneeds
      simp only [needsComplex, Bool.or_eq_true, not_or, Bool.not_eq_true] at hneeds
      exact demote_realAnswer hop hneeds.1.1 hneeds.1.2 dims

theorem apply_congr {v v' w w' : Value} (hop : op ≠ .power) (hv : v.toArray.SameElements v'.toArray)
    (hw : w.toArray.SameElements w'.toArray) :
    (op.apply v w).map Value.demote = (op.apply v' w').map Value.demote := by
  rw [apply_eq_onArrays, apply_eq_onArrays, demote_onArrays hop, demote_onArrays hop,
    broadcast_congr hv.dims_eq hw.dims_eq]
  simp only [complexAnswer_congr hv hw]

end Arithmetic

/-! ### Signs -/

namespace Value

variable {v : Value}

/-- Numbers other than truth values are real or complex already. -/
theorem cases_of_not_logical (hk : v.kind ≠ .logical) :
    v.promote = v ∨ (∃ x, v = number (.real x)) ∨
      ∃ dims real kind, v = array ⟨dims, real, none, kind⟩ ∧ kind ≠ .logical := by
  match v with
  | number (.real x) => exact .inr (.inl ⟨x, rfl⟩)
  | number (.logical b) => exact absurd rfl hk
  | number (.complex z) => exact .inl rfl
  | array ⟨dims, real, none, kind⟩ => exact .inr (.inr ⟨dims, real, kind, rfl, hk⟩)
  | array ⟨dims, real, some im, kind⟩ => exact .inl rfl

/-- Room at the end of a real array makes no difference to the demoted value. -/
theorem demote_trim_array (dims : Shape) (real : Array Float) (kind : Storage) :
    (array ⟨dims, real.extract 0 dims.count, none, kind⟩).demote.trim =
      (array ⟨dims, real, none, kind⟩).demote.trim := by
  have hdemote : ∀ real : Array Float, (array ⟨dims, real, none, kind⟩).demote =
      if dims.count == 1 && dims.isMatrix && kind != .single then
        number (NDArray.number ⟨dims, real, none, kind⟩ 0)
      else array ⟨dims, real, none, kind⟩ := fun _ => rfl
  rw [hdemote, hdemote]
  by_cases hone : dims.count = 1
  · have hfirst : (real.extract 0 dims.count).getD 0 0 = real.getD 0 0 := by
      rw [getD_extract, if_pos (by omega)]
    have hnumber : NDArray.number ⟨dims, real.extract 0 dims.count, none, kind⟩ 0 =
        NDArray.number ⟨dims, real, none, kind⟩ 0 := by
      cases kind <;> simp only [NDArray.number, NDArray.re, hfirst]
    split
    · rw [hnumber]
    · simp [trim, NDArray.trim, NDArray.reals, NDArray.imags, NDArray.size]
  · simp [hone, trim, NDArray.trim, NDArray.reals, NDArray.imags, NDArray.size]

theorem not_promote (hk : v.kind ≠ .logical) : v.promote.not = v.not := by
  have hcheck := (promote_sameElements hk).checkTruth_eq
  unfold not
  dsimp only
  rw [hcheck]
  rcases cases_of_not_logical hk with h | ⟨x, rfl⟩ | ⟨dims, real, kind, rfl, -⟩
  · rw [h]
  · rfl
  · rfl

/-- Promotion of a real array, spelled out. -/
theorem promote_array {dims : Shape} {real : Array Float} {kind : Storage} (hk : kind ≠ .logical) :
    (array ⟨dims, real, none, kind⟩).promote =
      array ⟨dims, real, some (.replicate real.size 0), kind⟩ := by
  simp [promote, NDArray.promote, NDArray.capacity, hk]

theorem neg_promote (hk : v.kind ≠ .logical) : v.promote.neg.demote = v.neg.demote := by
  rcases cases_of_not_logical hk with h | ⟨x, rfl⟩ | ⟨dims, real, kind, rfl, hkind⟩
  · rw [h]
  · exact demote_number_of_zero _ neg_zero_beq_zero
  · rw [promote_array hkind]
    exact demote_array_of_zero fun p _ => negated_zeros _ _ p

theorem conj_promote (hk : v.kind ≠ .logical) : v.promote.conj.demote.trim = v.conj.demote.trim := by
  rcases cases_of_not_logical hk with h | ⟨x, rfl⟩ | ⟨dims, real, kind, rfl, hkind⟩
  · rw [h]
  · exact congrArg trim (demote_number_of_zero _ neg_zero_beq_zero)
  · have hconj : (array ⟨dims, real, some (.replicate real.size 0), kind⟩).conj.demote =
        (array ⟨dims, real.extract 0 dims.count, none, kind⟩).demote :=
      demote_array_of_zero fun p _ => negated_zeros _ _ p
    rw [promote_array hkind, hconj]
    exact demote_trim_array dims real kind

/-- An imaginary part of zero can be added to either operand of an operator other than powers. The same
    faults are reported; results that are complex for it become real when they are demoted. -/
theorem promote_invisible {a : Value} (hk : a.kind ≠ .logical) :
    (∀ b : Value,
      (∀ op : Arithmetic, op ≠ .power →
        (op.apply a.promote b).map demote = (op.apply a b).map demote ∧
        (op.apply b a.promote).map demote = (op.apply b a).map demote) ∧
      (∀ op : Comparison, op.apply a.promote b = op.apply a b ∧ op.apply b a.promote = op.apply b a) ∧
      (∀ op : Connective, op.apply a.promote b = op.apply a b ∧ op.apply b a.promote = op.apply b a)) ∧
    a.promote.not = a.not ∧ a.promote.neg.demote = a.neg.demote ∧
    a.promote.conj.demote.trim = a.conj.demote.trim := by
  have ha := promote_sameElements hk
  refine ⟨fun b => ?_, not_promote hk, neg_promote hk, conj_promote hk⟩
  have hb := NDArray.SameElements.refl b.toArray
  refine ⟨fun op hop => ?_, fun op => ?_, fun op => ?_⟩
  · exact ⟨Arithmetic.apply_congr hop ha hb, Arithmetic.apply_congr hop hb ha⟩
  · exact ⟨Comparison.apply_congr ha hb, Comparison.apply_congr hb ha⟩
  · exact ⟨Connective.apply_congr ha hb, Connective.apply_congr hb ha⟩

/-- Infinity and NaN times the imaginary unit, in single arrays. -/
theorem promote_invisible_infinity :
    Storage.single ≠ .logical ∧
    (Arithmetic.mul.apply (promote (array ⟨[1, 2], #[Binary64.infinity, Binary64.nan], none, .single⟩))
        (number (.complex ⟨0, 1⟩))).map demote =
      (Arithmetic.mul.apply (array ⟨[1, 2], #[Binary64.infinity, Binary64.nan], none, .single⟩)
        (number (.complex ⟨0, 1⟩))).map demote :=
  ⟨by decide, ((promote_invisible (by decide)).1 _).1 .mul (by decide) |>.1⟩

end Value
end NumericArrays
