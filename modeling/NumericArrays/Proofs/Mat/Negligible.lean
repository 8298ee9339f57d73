import NumericArrays.Proofs.Mat.Exact
import NumericArrays.Proofs.Scalar.Modulus
import NumericArrays.Proofs.Scalar.Product

/-! Steps of the orthogonal-triangular factorization that reflect nothing. The length of a column is found
    from squares, which are rounded to zero for numbers too small: a step is left out not only if all that
    remains is zero, but if the squares of all that remains are. -/
namespace NumericArrays

def Mat.AllFrom {K : Type} {m n : Nat} (s : Nat) (P : K → Prop) (a : Mat K m n) : Prop :=
  ∀ i j, s ≤ i.val → s ≤ j.val → P (a.entry i j)

instance {K : Type} {m n : Nat} (s : Nat) (P : K → Prop) [DecidablePred P] (a : Mat K m n) :
    Decidable (a.AllFrom s P) :=
  inferInstanceAs (Decidable (∀ _ _, _))

/-- The squares of both parts are rounded to zero. -/
def Cartesian.Negligible (z : Cartesian Float) : Prop := Binary64.Negligible z.re ∧ Binary64.Negligible z.im

instance (z : Cartesian Float) : Decidable z.Negligible := inferInstanceAs (Decidable (_ ∧ _))

namespace PivotedQR

open Binary64 (Nonneg OnSide)
open Mat (after)
open MatrixScalar (normSq)

/-! ### Lengths -/

section Steps

variable {K : Type} [Arith K] [MatrixScalar K Float] {m n steps : Nat} {Fine Small : K → Prop}

/-- What a step relies on: the squares of numbers are sums that vanish for small ones only, and the factor
    of a reflection does not vanish. -/
structure Measured (Fine Small : K → Prop) : Prop where
  nonneg : ∀ {z : K}, Fine z → Nonneg (normSq z)
  vanishes : ∀ {z : K}, Fine z → (Binary64.rank (normSq z) = 0 ↔ Small z)
  ratio : ∀ {z : K} {length : Float}, Fine z → OnSide 1 length →
    ¬ ((z + directed length z) / directed length z == 0) = true
  zero : ((0 : K) == 0) = true

namespace Measured

variable {a : Mat K m n} {c : Fin m} {d j : Fin n}

theorem nonneg_lengthSq (hK : Measured Fine Small) (hfine : ∀ i, c ≤ i → Fine (a.entry i j)) :
    Nonneg (lengthSq a c j) ∧ (Binary64.rank (lengthSq a c j) = 0 ↔ ∀ i, c ≤ i → Small (a.entry i j)) := by
  obtain ⟨hsum, hzero⟩ := Nonneg.foldl_add (l := c :: after c) (f := fun i => normSq (a.entry i j))
    (fun i hi => hK.nonneg (hfine i (Mat.mem_cons_after.1 hi))) Binary64.nonneg_zero
  refine ⟨hsum, hzero.trans ?_⟩
  rw [and_iff_right Binary64.rank_zero]
  simp only [Mat.mem_cons_after]
  exact forall₂_congr fun i hi => hK.vanishes (hfine i hi)

/-- The length of the pivot is zero exactly if all columns to come are made of small entries. -/
theorem exists_pivot (hK : Measured Fine Small) (hfine : ∀ i j, c ≤ i → d ≤ j → Fine (a.entry i j)) :
    ∃ j, d ≤ j ∧ pivot a c d = (j, lengthSq a c j) ∧ Nonneg (lengthSq a c j) ∧
      (Binary64.rank (lengthSq a c j) = 0 ↔ ∀ i q, c ≤ i → d ≤ q → Small (a.entry i q)) := by
  have hlengths (j : Fin n) (hj : d ≤ j) := hK.nonneg_lengthSq fun i hi => hfine i j hi hj
  have hfirst : (-1 : Float) < lengthSq a c d := by
    have hnext := (hlengths d (le_refl d)).1
    rw [Binary64.lt_iff_rank (by decide) hnext.ne_nan]
    exact lt_of_lt_of_le (by decide) hnext.rank_nonneg
  obtain ⟨j, hj, hpivot, hlongest⟩ := PivotedQR.exists_pivot (· ≠ Binary64.nan) Binary64.rank Binary64.lt_iff_rank
    (by decide) hfirst fun j hj => (hlengths j hj).1.ne_nan
  obtain ⟨hnonneg, hzero⟩ := hlengths j hj
  refine ⟨j, hj, hpivot, hnonneg, ?_, fun h => hzero.2 fun i hi => h i j hi hj⟩
  intro h i q hi hq
  -- no column is longer than one of length zero
  have hle := (hlongest q hq).trans_eq h
  obtain ⟨hlow, hcolumn⟩ := hlengths q hq
  exact hcolumn.1 (le_antisymm hle hlow.rank_nonneg) i hi

end Measured

/-! ### One step -/

/-- The factor that a step finds: that of the longest column, by its entry in the row of the step. -/
def stepFactor (f : PivotedQR K m n steps) (hm : steps < m) (hn : steps < n) : K :=
  let found := pivot f.packed ⟨steps, hm⟩ ⟨steps, hn⟩
  let length := if found.2 < 0 then 0 else found.2
  let x := f.packed.entry ⟨steps, hm⟩ found.1
  let sigma := directed length.sqrt x
  if length == 0 then 0 else (x + sigma) / sigma

theorem step_factors (f : PivotedQR K m n steps) (hm : steps < m) (hn : steps < n) :
    (f.step hm hn).factors = f.factors.push (f.stepFactor hm hn) := by
  let found := pivot f.packed ⟨steps, hm⟩ ⟨steps, hn⟩
  have hlead : (f.packed.swapColumns ⟨steps, hn⟩ found.1).entry ⟨steps, hm⟩ ⟨steps, hn⟩ =
      f.packed.entry ⟨steps, hm⟩ found.1 := by
    rw [Mat.entry_swapColumns, Equiv.swap_apply_left]
  rw [step, apply_ite PivotedQR.factors, stepFactor, ← hlead, apply_ite f.factors.push]
  rfl

theorem Measured.step_beq_zero_iff (hK : Measured Fine Small) (f : PivotedQR K m n steps) (hm : steps < m)
    (hn : steps < n) (hfine : f.packed.AllFrom steps Fine) :
    ((f.step hm hn).factors.get (Fin.last steps) == 0) = true ↔ f.packed.AllFrom steps Small := by
  obtain ⟨j, hj, hpivot, hnonneg, hzero⟩ := hK.exists_pivot (c := ⟨steps, hm⟩) (d := ⟨steps, hn⟩) hfine
  have hlength : ¬ lengthSq f.packed ⟨steps, hm⟩ j < 0 := by
    rw [Binary64.lt_iff_rank hnonneg.ne_nan (by decide), Binary64.rank_zero, not_lt]
    exact hnonneg.rank_nonneg
  refine Iff.trans ?_ hzero
  rw [step_factors, Mat.get_push_last, ← Binary64.beq_zero_iff_rank hnonneg.ne_nan, stepFactor]
  simp only [hpivot, if_neg hlength]
  by_cases h : (lengthSq f.packed ⟨steps, hm⟩ j == 0) = true
  · rw [if_pos h]
    exact iff_of_true hK.zero h
  · rw [if_neg h]
    exact iff_of_false (hK.ratio (hfine _ j (le_refl steps) hj) (OnSide.sqrt _)) h

/-! ### All steps -/

def working (a : Mat K m n) (s : Fin (min m n)) : Mat K m n := (factorUpTo a s.val (Nat.le_of_lt s.isLt)).packed

theorem step_factors_get (f : PivotedQR K m n steps) (hm : steps < m) (hn : steps < n) (s : Fin steps) :
    (f.step hm hn).factors.get s.castSucc = f.factors.get s := by
  rw [step_factors, Mat.get_push_castSucc]

/-- The factor of a step is not changed by the steps after it. -/
theorem factorUpTo_factors_get (a : Mat K m n) {s : Nat} (k : Nat) (hk : k ≤ min m n) (hs : s < k) :
    (factorUpTo a k hk).factors.get ⟨s, hs⟩ =
      (factorUpTo a (s + 1) (Nat.le_trans hs hk)).factors.get (Fin.last s) := by
  induction k with
  | zero => exact absurd hs (Nat.not_lt_zero s)
  | succ k ih =>
    rcases Nat.lt_succ_iff_lt_or_eq.1 hs with hlt | rfl
    · rw [← ih (Nat.le_of_succ_le hk) hlt]
      exact step_factors_get _ _ _ ⟨s, hlt⟩
    · rfl

theorem Measured.factor_beq_zero_iff (hK : Measured Fine Small) (a : Mat K m n) (s : Fin (min m n))
    (hfine : (working a s).AllFrom s Fine) :
    ((factor a).factors.get s == 0) = true ↔ (working a s).AllFrom s Small := by
  have hlast := factorUpTo_factors_get a (min m n) (Nat.le_refl _) s.isLt
  unfold factor
  rw [show s = ⟨s.val, s.isLt⟩ from rfl, hlast]
  exact hK.step_beq_zero_iff _ _ _ hfine

end Steps

/-! ### Real and complex numbers -/

theorem measured_real : Measured (K := Float) (·.isFinite = true) Binary64.Negligible where
  nonneg hz := (Binary64.nonneg_mul_self hz).1
  vanishes hz := (Binary64.nonneg_mul_self hz).2
  ratio := by
    intro x length hx hlength
    refine Binary64.not_add_div_beq_zero hx ?_
    simp only [directed]
    split
    · rename_i h
      have hzero : |Binary64.value x| = 0 := (Binary64.value_abs hx).symm.trans (Binary64.value_of_beq_zero h)
      rw [abs_eq_zero.1 hzero]
      exact OnSide.of_zero _
    · exact hlength.nonneg_mul ((OnSide.of_value x).div (OnSide.abs x))
  zero := by decide

theorem measured_complex : Measured Cartesian.IsFinite Cartesian.Negligible where
  nonneg hz := ((Binary64.nonneg_mul_self hz.1).1.add (Binary64.nonneg_mul_self hz.2).1).1
  vanishes hz := by
    obtain ⟨hre, hrezero⟩ := Binary64.nonneg_mul_self hz.1
    obtain ⟨him, himzero⟩ := Binary64.nonneg_mul_self hz.2
    exact (hre.add him).2.trans (and_congr hrezero himzero)
  ratio := by
    intro z length hz hlength
    have hsides : OnSide (Binary64.value z.re) (directed length z).re ∧
        OnSide (Binary64.value z.im) (directed length z).im := by
      simp only [directed]
      split
      · rename_i h
        obtain ⟨hre, him⟩ := Cartesian.eq_zero_of_hypotenuse hz.1 hz.2 h
        rw [hre, him]
        exact ⟨OnSide.of_zero _, OnSide.of_zero _⟩
      · have hsize := Cartesian.onSide_hypotenuse hz.1 hz.2
        have hsquare := (OnSide.mul_self z.modulus).add_vanishing (Binary64.vanishes_zero_mul 0)
        have hre := (((OnSide.of_value z.re).mul hsize).add_vanishing (Binary64.vanishes_mul_zero z.im)).div hsquare
        have him := (((OnSide.of_value z.im).mul hsize).sub_vanishing (Binary64.vanishes_mul_zero z.re)).div hsquare
        exact ⟨(hlength.nonneg_mul hre).sub_vanishing (Binary64.vanishes_zero_mul _),
          (hlength.nonneg_mul him).add_vanishing (Binary64.vanishes_zero_mul _)⟩
    have hratio := Binary64.not_add_mul_add_div_beq_zero hz.1 hz.2 hsides.1 hsides.2
    intro h
    exact hratio (Bool.and_eq_true_iff.1 h).1
  zero := by decide

/-- A step with finite numbers to work on is left out exactly if the squares of all of them are rounded to
    zero. -/
theorem no_reflection_iff_negligible {m n : Nat} (s : Fin (min m n)) :
    (∀ a : Mat Float m n, (working a s).AllFrom s (·.isFinite = true) →
      (((factor a).factors.get s == 0) = true ↔ (working a s).AllFrom s Binary64.Negligible)) ∧
    ∀ a : Mat (Cartesian Float) m n, (working a s).AllFrom s Cartesian.IsFinite →
      (((factor a).factors.get s == 0) = true ↔ (working a s).AllFrom s Cartesian.Negligible) :=
  ⟨fun a => measured_real.factor_beq_zero_iff a s, fun a => measured_complex.factor_beq_zero_iff a s⟩

/-- A column of a zero and `2 ^ (-600)`. -/
def tinyColumn : Mat Float 2 1 := .ofFn ![![0], ![.ofBits 0x1A70000000000000]]

def fiveLong : Mat (Cartesian Float) 1 1 := .ofFn ![![⟨3, 4⟩]]

theorem no_reflection_tiny :
    (tinyColumn.AllFrom 0 (·.isFinite = true) ∧ tinyColumn.AllFrom 0 Binary64.Negligible) ∧
      fiveLong.AllFrom 0 Cartesian.IsFinite ∧ ¬ ((factor fiveLong).factors.get ⟨0, by decide⟩ == 0) = true := by
  refine ⟨⟨by decide, ?_⟩, by decide, ?_⟩
  · exact ((no_reflection_iff_negligible ⟨0, by decide⟩).1 tinyColumn (by decide)).1 (by decide +kernel)
  · exact mt ((no_reflection_iff_negligible ⟨0, by decide⟩).2 fiveLong (by decide)).1 (by decide +kernel)

/-- A column that is not zero may be left as it is. -/
theorem no_reflection_of_tinyColumn :
    ¬ ∀ {m n : Nat} (a : Mat Float m n) (s : Fin (min m n)), (working a s).AllFrom s (·.isFinite = true) →
      ((factor a).factors.get s == 0) = true → (working a s).AllFrom s fun x => (x == 0) = true := by
  intro h
  exact absurd (h tinyColumn ⟨0, by decide⟩ (by decide) (by decide +kernel)) (by decide)

end PivotedQR
end NumericArrays
