import Mathlib
import NumericArrays.Proofs.Binary64.Zero
import NumericArrays.Proofs.Elementwise.Law

/-! Powers of zero, on real numbers and on complex ones. -/
namespace NumericArrays

inductive Grade where
  | zero
  | finite
  | infinite
  | undefined
deriving DecidableEq, Repr

/-- One part that is undefined, or else one that is infinite, decides for both. -/
def Cartesian.grade (z : Cartesian Float) : Grade :=
  if z.re.isNaN || z.im.isNaN then .undefined
  else if z.re.isInf || z.im.isInf then .infinite
  else if z.re == 0 && z.im == 0 then .zero
  else .finite

namespace Power

open Binary64 (infinity not_lt_of_beq_zero isNaN_of_beq_zero abs_of_beq_zero)

variable {k : Storage} {x y : Float}

/-- Grade of zero to the power `y`, as on real numbers. -/
def gradeOfZero (y : Float) : Grade :=
  if y == 0 then .finite
  else if y.isNaN then .undefined
  else if y < 0 then .infinite
  else .zero

/-- Exponents at which a zero has no power in the usual sense. -/
def Improper (y : Float) : Prop := y < 0 ∨ y.isNaN = true

theorem not_improper_of_beq_zero (hy : (y == 0) = true) : ¬ Improper y := by
  rintro (h | h)
  · exact not_lt_of_beq_zero hy h
  · rw [isNaN_of_beq_zero hy] at h
    cases h

/-- Telling zero from other exponents is enough at all but the improper ones. -/
theorem gradeOfZero_eq_iff (y : Float) :
    (if y == 0 then Grade.finite else .zero) = gradeOfZero y ↔ ¬ Improper y := by
  rw [gradeOfZero]
  by_cases hy : (y == 0) = true
  · simpa only [hy, if_true, true_iff] using not_improper_of_beq_zero hy
  rw [if_neg hy, if_neg hy]
  by_cases hnan : y.isNaN = true
  · rw [if_pos hnan]
    exact iff_of_false (by decide) fun h => h (.inr hnan)
  rw [if_neg hnan]
  by_cases hlt : y < 0
  · rw [if_pos hlt]
    exact iff_of_false (by decide) fun h => h (.inl hlt)
  · rw [if_neg hlt]
    exact iff_of_true rfl fun h => h.elim hlt hnan

/-- On complex numbers the sign of the exponent is not asked for, nor whether it is a number. -/
theorem complex_zero_base (hx : (x == 0) = true) (y : Float) :
    complex ⟨x, 0⟩ ⟨y, 0⟩ = if y == 0 then ⟨1, 0⟩ else ⟨0, 0⟩ := by
  simp only [complex, ofReal, zero_beq_zero, abs_of_beq_zero hx, Bool.and_true, if_true]

theorem grade_stored_complex (k : Storage) (hx : (x == 0) = true) (y : Float) :
    (NDArray.stored k (complex ⟨x, 0⟩ ⟨y, 0⟩)).grade = if y == 0 then .finite else .zero := by
  rw [complex_zero_base hx]
  split
  · cases k <;> decide +kernel
  · cases k <;> decide +kernel

/-- Rounding to single keeps what a nonzero power of zero can be. -/
theorem grade_store_special {s : Float} (hk : k ≠ .logical)
    (hs : s ∈ [0, -0, infinity, -infinity, Float.nan]) :
    (Cartesian.mk (k.store s) 0).grade = (Cartesian.mk s 0).grade := by
  cases k with
  | logical => exact absurd rfl hk
  | single => revert s; decide +kernel
  | double => rfl

theorem grade_stored_real (hk : k ≠ .logical) (hx : (x == 0) = true) (y : Float) :
    (Cartesian.mk (k.store (real x y)) 0).grade = gradeOfZero y := by
  have hcase : real x y = if y == 0 then 1 else ofZero x y := by
    simp only [real, hx, if_true]
  rw [hcase, gradeOfZero]
  by_cases hy : (y == 0) = true
  · rw [if_pos hy, if_pos hy, k.store_one]
    decide +kernel
  rw [if_neg hy, if_neg hy, ofZero]
  by_cases hnan : y.isNaN = true
  · obtain rfl : y = Float.nan := by simpa [Float.isNaN_eq_decide_eq_nan] using hnan
    rw [if_pos hnan, if_pos hnan, grade_store_special hk (by simp)]
    decide +kernel
  rw [if_neg hnan, if_neg hnan]
  -- the sign of the result does not matter, its size is that of the exponent's sign
  split <;> dsimp only <;> split <;> rw [grade_store_special hk (by simp)] <;> decide +kernel

/-- A power of zero never leaves the reals. -/
theorem leavesReals_zero_base (hx : (x == 0) = true) (y : Float) : leavesReals x y = false := by
  simp only [leavesReals, not_lt_of_beq_zero hx, decide_false, Bool.false_and]

end Power

open Elementwise

namespace Arithmetic

variable {a b : Value}

/-- The two numbers at position `i` and no others. -/
def powerAlone (a b : Value) (i : Nat) : Cartesian Float :=
  (power.onNumbers (.real (a.operand i).re) (.real (b.operand i).re)).toCartesian

/-- Some pair of the operands has no real power. -/
def HasRoot (a b : Value) : Prop :=
  ∃ j < (resultDims a b).count, Power.leavesReals (a.operand j).re (b.operand j).re = true

theorem grade_powerAlone {i : Nat} (hx : ((a.operand i).re == 0) = true) :
    (powerAlone a b i).grade = Power.gradeOfZero (b.operand i).re := by
  have hreal : powerAlone a b i =
      ⟨Storage.double.store (Power.real (a.operand i).re (b.operand i).re), 0⟩ := by
    have hreals : power.leavesReals (a.operand i).re (b.operand i).re = false :=
      Power.leavesReals_zero_base hx _
    simp [powerAlone, onNumbers, Number.isComplex, Number.toCartesian, hreals, Storage.store, real]
  rw [hreal]
  exact Power.grade_stored_real (by decide) hx _

theorem grade_element_of_no_root {r : Value} {i : Nat} (hr : power.Follows a b r) (hi : i < r.size)
    (hreals : ¬ power.RunsComplex a b) (hx : ((a.operand i).re == 0) = true) :
    (r.element i).grade = Power.gradeOfZero (b.operand i).re := by
  rw [hr.element_real hreals i hi]
  exact Power.grade_stored_real (Storage.arithmetic_ne_logical _ _) hx _

theorem grade_element_of_root {r : Value} {i : Nat} (ha : a.isComplex = false) (hb : b.isComplex = false)
    (hr : power.Follows a b r) (hi : i < r.size) (hroot : power.RunsComplex a b)
    (hx : ((a.operand i).re == 0) = true) :
    (r.element i).grade = if (b.operand i).re == 0 then .finite else .zero := by
  rw [hr.element_complex hroot i hi, a.operand_of_real ha, b.operand_of_real hb]
  exact Power.grade_stored_complex _ hx _

theorem runsComplex_iff_hasRoot (ha : a.isComplex = false) (hb : b.isComplex = false) :
    power.RunsComplex a b ↔ HasRoot a b := by
  simp only [RunsComplex, ha, hb, Bool.false_eq_true, false_or]
  rfl

/-- On real operands a power of zero is as large as that of the two numbers alone, with one exception:
    if some pair has no real power, zero to a negative or undefined power is zero. -/
theorem grade_power_of_zero (ha : a.isComplex = false) (hb : b.isComplex = false)
    (h : Conforming a b) :
    ∃ r, power.apply a b = .ok r ∧ ∀ i < (resultDims a b).count, ((a.operand i).re == 0) = true →
      ((r.element i).grade = (powerAlone a b i).grade ↔
        ¬ (HasRoot a b ∧ Power.Improper (b.operand i).re)) ∧
      (HasRoot a b ∧ Power.Improper (b.operand i).re → (r.element i).grade = .zero) := by
  obtain ⟨r, hrun, hr⟩ := exists_follows power h
  refine ⟨r, hrun, fun i hi hx => ?_⟩
  replace hi : i < r.size := hr.size_eq ▸ hi
  rw [grade_powerAlone hx]
  by_cases hroot : HasRoot a b
  · have hruns := (runsComplex_iff_hasRoot ha hb).mpr hroot
    rw [grade_element_of_root ha hb hr hi hruns hx]
    refine ⟨?_, fun hlost => if_neg fun hy => Power.not_improper_of_beq_zero hy hlost.2⟩
    simpa only [hroot, true_and] using Power.gradeOfZero_eq_iff _
  · have hreals : ¬ power.RunsComplex a b := fun h => hroot ((runsComplex_iff_hasRoot ha hb).mp h)
    rw [grade_element_of_no_root hr hi hreals hx]
    exact ⟨⟨fun _ hlost => hroot hlost.1, fun _ => rfl⟩, fun hlost => absurd hlost.1 hroot⟩

/-- Zero squared keeps its grade beside the root of -1. -/
theorem grade_power_of_zero_squared :
    ∃ r, power.apply (.array ⟨[1, 2], #[0, -1], none, .double⟩)
        (.array ⟨[1, 2], #[2, 0.5], none, .double⟩) = .ok r ∧
      (r.element 0).grade = (powerAlone (.array ⟨[1, 2], #[0, -1], none, .double⟩)
        (.array ⟨[1, 2], #[2, 0.5], none, .double⟩) 0).grade := by
  obtain ⟨r, hrun, hr⟩ := grade_power_of_zero (a := .array ⟨[1, 2], #[0, -1], none, .double⟩)
    (b := .array ⟨[1, 2], #[2, 0.5], none, .double⟩) rfl rfl (by decide)
  have hproper : ¬ Power.Improper 2 := by
    rintro (h | h) <;> exact absurd h (by decide +kernel)
  exact ⟨r, hrun, (hr 0 (by decide) (by decide +kernel)).1.mpr fun h => hproper h.2⟩

/-- The inverse of zero is infinite alone and zero beside the root of -1. -/
theorem inverse_of_zero_besideRoot :
    ∃ r, power.apply (.array ⟨[1, 2], #[0, -1], none, .double⟩)
        (.array ⟨[1, 2], #[-1, 0.5], none, .double⟩) = .ok r ∧
      (r.element 0).grade = .zero ∧
      power.apply (.number (.real 0)) (.number (.real (-1))) = .ok (.number (.real Binary64.infinity)) := by
  obtain ⟨r, hrun, hr⟩ := exists_follows power
    (a := .array ⟨[1, 2], #[0, -1], none, .double⟩) (b := .array ⟨[1, 2], #[-1, 0.5], none, .double⟩)
    (by decide)
  have hroot : power.RunsComplex (.array ⟨[1, 2], #[0, -1], none, .double⟩)
      (.array ⟨[1, 2], #[-1, 0.5], none, .double⟩) := .inr (.inr ⟨1, by decide, by decide +kernel⟩)
  refine ⟨r, hrun, ?_, ?_⟩
  · have hsize : 0 < r.size := by rw [hr.size_eq]; decide
    rw [grade_element_of_root rfl rfl hr hsize hroot (by decide +kernel)]
    exact if_neg (by decide +kernel)
  · have hreals : Power.leavesReals 0 (-1) = false := by decide +kernel
    have hpower : Power.real 0 (-1) = Binary64.infinity := by decide +kernel
    show Except.ok (Value.number (power.onNumbers (.real 0) (.real (-1)))) = _
    simp [onNumbers, Number.isComplex, Number.toCartesian, leavesReals, real, hreals, hpower]

end Arithmetic
end NumericArrays
