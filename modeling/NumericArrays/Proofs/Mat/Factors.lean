import NumericArrays.Proofs.Mat.Elimination
import NumericArrays.Proofs.Scalar.Exact

/-! Factors of a square matrix in exact arithmetic: there are some unless it is singular. They multiply to the
    matrix with its rows in another order, no multiplier is above 1, and they give a system its only
    solution. -/
namespace NumericArrays.LU

open Mat (toMatrix)
open MatrixScalar (modulus)
open ExactModulus (modulus_nonneg modulus_eq_zero modulus_mul)
open scoped Matrix

variable {𝕜 R : Type} [Field 𝕜] [Field R] [LinearOrder R] [MatrixScalar 𝕜 R] [ExactModulus 𝕜 R] {n : Nat}

/-! ### Multipliers -/

theorem modulus_pos {x : 𝕜} (hx : x ≠ 0) : 0 < modulus x :=
  lt_of_le_of_ne (modulus_nonneg x) fun h => hx (modulus_eq_zero.1 h.symm)

/-- The quotient of a number by one that is no smaller. -/
theorem modulus_div_le_one [IsStrictOrderedRing R] {x y : 𝕜} (hy : y ≠ 0) (h : modulus x ≤ modulus y) :
    modulus (x / y) ≤ 1 := by
  have hproduct : modulus (x / y) * modulus y = modulus x := by
    rw [← modulus_mul, div_mul_cancel₀ x hy]
  rw [← one_mul (modulus y), ← hproduct] at h
  exact le_of_mul_le_mul_right h (modulus_pos hy)

section Multipliers

variable [IsStrictOrderedRing R] [BEq 𝕜] {f g : LU 𝕜 n} {c : Fin n}

/-- No multiplier in the first `k` columns has a modulus above 1. -/
def SmallMultipliers (k : Nat) (f : LU 𝕜 n) : Prop :=
  ∀ i p : Fin n, p.val < k → p < i → modulus (f.packed.entry i p) ≤ 1

theorem SmallMultipliers.step (s : SmallMultipliers c f) (h : f.step c = some g) :
    SmallMultipliers (c + 1) g := by
  obtain ⟨r, hr, hpivot, hlargest, rfl⟩ := step_eq_some h
  intro i p hp hi
  by_cases hpc : p < c
  · -- an earlier column has its rows exchanged, but none from above the diagonal
    rw [entry_clearColumn_of_le (Or.inr hpc), Mat.entry_swapRows]
    refine s _ p hpc ?_
    by_cases hic : i < c
    · rwa [Mat.swap_of_lt hr hic]
    · exact lt_of_lt_of_le hpc (Mat.le_swap hr (not_lt.1 hic))
  · obtain rfl : p = c := by omega
    rw [entry_clearColumn, if_neg (by omega), if_pos rfl]
    exact modulus_div_le_one hpivot (hlargest i (le_of_lt hi))

theorem smallMultipliers_of_factor? {a : Mat 𝕜 n n} (h : factor? a = some f) : SmallMultipliers n f :=
  factorUpTo_induction (fun _ _ hp => absurd hp (Nat.not_lt_zero _)) (fun _ _ _ s hstep => s.step hstep) n
    (le_refl n) f h

end Multipliers

/-! ### The ratio of the pivots -/

section Ratio

/-- The least of some numbers is one of them. -/
theorem exists_least? (x : R) (xs : List R) : ∃ y ∈ x :: xs, least? (x :: xs) = some y := by
  unfold least?
  rw [List.foldl_cons, if_pos (beq_self_eq_true x)]
  refine List.foldlRecOn (motive := fun low : Option R => ∃ y ∈ x :: xs, low = some y) xs _
    ⟨x, List.mem_cons_self, rfl⟩ ?_
  rintro _ ⟨y, hy, rfl⟩ z hz
  by_cases hzy : z < y
  · exact ⟨z, List.mem_cons_of_mem x hz, congrArg some (if_pos hzy)⟩
  · exact ⟨y, hy, congrArg some (if_neg hzy)⟩

theorem le_largest {x : R} {xs : List R} (hx : x ∈ xs) : x ≤ largest xs := by
  have hloop (l : List R) (high : R) :
      high ≤ l.foldl (fun high x => if high < x then x else high) high ∧
        ∀ y ∈ l, y ≤ l.foldl (fun high x => if high < x then x else high) high := by
    induction l generalizing high with
    | nil => simp
    | cons y l ih =>
      rw [List.foldl_cons, ← max_def_lt]
      obtain ⟨hhigh, hl⟩ := ih (max high y)
      refine ⟨(le_max_left high y).trans hhigh, ?_⟩
      rw [List.forall_mem_cons]
      exact ⟨(le_max_right high y).trans hhigh, hl⟩
  exact (hloop xs 0).2 x hx

variable {f : LU 𝕜 n}

omit [Field 𝕜] [ExactModulus 𝕜 R] in
theorem pivotRatio_of_empty (h : n = 0) : f.pivotRatio = 1 := if_pos h

/-- Among pivots other than zero the smallest is positive and no larger than the largest. -/
theorem pivotRatio_bounds [IsStrictOrderedRing R] (hf : ∀ i, f.packed.entry i i ≠ 0) :
    0 < f.pivotRatio ∧ f.pivotRatio ≤ 1 := by
  by_cases hn : n = 0
  · rw [pivotRatio_of_empty hn]
    exact ⟨one_pos, le_refl 1⟩
  · obtain ⟨x, xs, hsizes⟩ : ∃ x xs, f.pivotSizes = x :: xs := by
      apply List.exists_cons_of_ne_nil
      simpa [pivotSizes] using hn
    obtain ⟨y, hy, hleast⟩ := exists_least? x xs
    rw [← hsizes] at hy hleast
    have hpos : 0 < y := by
      obtain ⟨i, -, rfl⟩ := List.mem_map.1 hy
      exact modulus_pos (hf i)
    have hle : y ≤ largest f.pivotSizes := le_largest hy
    have hratio : f.pivotRatio = y / largest f.pivotSizes := by
      unfold pivotRatio
      simp only [if_neg hn, hleast, Option.getD_some]
    rw [hratio]
    exact ⟨div_pos hpos (hpos.trans_le hle), div_le_one_of_le₀ hle (hpos.trans_le hle).le⟩

end Ratio

/-! ### The product -/

section Product

def lower (f : LU 𝕜 n) : Matrix (Fin n) (Fin n) 𝕜 :=
  .of fun i j => if j < i then f.packed.entry i j else if j = i then 1 else 0

def upper (f : LU 𝕜 n) : Matrix (Fin n) (Fin n) 𝕜 :=
  .of fun i j => if i ≤ j then f.packed.entry i j else 0

variable {a : Mat 𝕜 n n} {f : LU 𝕜 n}

theorem upperUpTo_all (i j : Fin n) : upperUpTo f.packed n i j = f.upper i j := by
  unfold upperUpTo
  rw [upper, Matrix.of_apply]
  congr 1
  simp only [eq_iff_iff]
  omega

theorem lower_mul_apply (u : Matrix (Fin n) (Fin n) 𝕜) (i j : Fin n) :
    (f.lower * u) i j = ∑ p ∈ Finset.Iio i, f.packed.entry i p * u p j + u i j := by
  have hterm (p : Fin n) : f.lower i p * u p j =
      if i < p then 0 else (if p < i then f.packed.entry i p else 1) * u p j := by
    rw [lower, Matrix.of_apply]
    rcases lt_trichotomy p i with hp | rfl | hp
    · rw [if_pos hp, if_neg (lt_asymm hp), if_pos hp]
    · rw [if_neg (lt_irrefl p), if_pos rfl, if_neg (lt_irrefl p), if_neg (lt_irrefl p)]
    · rw [if_neg (lt_asymm hp), if_neg (ne_of_gt hp), if_pos hp, zero_mul]
  have hbefore : ∑ p ∈ Finset.Iio i, (if p < i then f.packed.entry i p else 1) * u p j =
      ∑ p ∈ Finset.Iio i, f.packed.entry i p * u p j := by
    apply Finset.sum_congr rfl
    intro p hp
    rw [if_pos (Finset.mem_Iio.1 hp)]
  rw [Matrix.mul_apply]
  simp only [hterm]
  rw [Mat.sum_ite_Iic, ← Finset.Iio_insert, Finset.sum_insert (by simp), hbefore, if_neg (lt_irrefl i),
    one_mul, add_comm]

/-- The factors multiply to the rows of the matrix in their order. -/
theorem Stage.lower_mul_upper (s : Stage a n f) :
    f.lower * f.upper = a.toMatrix.submatrix f.perm.get id := by
  ext i j
  rw [lower_mul_apply, Matrix.submatrix_apply, id_eq, Mat.toMatrix_apply, s.product, reach_all]
  simp only [upperUpTo_all]

end Product

/-! ### All together -/

variable [BEq 𝕜]

structure Factors (a : Mat 𝕜 n n) (f : LU 𝕜 n) : Prop where
  rows : Function.Bijective f.perm.get
  product : f.lower * f.upper = a.toMatrix.submatrix f.perm.get id
  multipliers : ∀ i j, j < i → modulus (f.packed.entry i j) ≤ 1
  pivots : ∀ i, f.packed.entry i i ≠ 0
  ratio_pos : 0 < f.pivotRatio
  ratio_le : f.pivotRatio ≤ 1
  ratio_of_empty : n = 0 → f.pivotRatio = 1
  solution : ∀ {k : Nat} (b : Mat 𝕜 n k) (x : Matrix (Fin n) (Fin k) 𝕜),
    a.toMatrix * x = b.toMatrix ↔ x = (b.mapColumns f.solveColumn).toMatrix

/-- There are no factors exactly if the matrix has no inverse. -/
theorem factor?_eq_none_iff_not_isUnit (a : Mat 𝕜 n n) : factor? a = none ↔ ¬ IsUnit a.toMatrix := by
  rw [factor?_eq_none_iff, Matrix.exists_mulVec_eq_zero_iff, Matrix.isUnit_iff_isUnit_det, isUnit_iff_ne_zero,
    not_not]

theorem factors_of_factor? [IsStrictOrderedRing R] {a : Mat 𝕜 n n} {f : LU 𝕜 n} (h : factor? a = some f) :
    Factors a f := by
  have s : Stage a n f := stage_of_factorUpTo a n (le_refl n) f h
  have hpivots (i : Fin n) : f.packed.entry i i ≠ 0 := s.pivots i i.isLt
  obtain ⟨hpos, hle⟩ := pivotRatio_bounds hpivots
  refine ⟨s.rows, s.lower_mul_upper, ?_, hpivots, hpos, hle, pivotRatio_of_empty, ?_⟩
  · intro i j hj
    exact smallMultipliers_of_factor? h i j j.isLt hj
  · intro k b x
    have hunit : IsUnit a.toMatrix := by
      by_contra hsingular
      rw [(factor?_eq_none_iff_not_isUnit a).2 hsingular] at h
      cases h
    obtain ⟨hinverse⟩ := hunit.nonempty_invertible
    rw [← mul_mapColumns_solveColumn h b]
    exact Matrix.mul_right_inj_of_invertible a.toMatrix

/-- A square matrix has factors unless it has no inverse. -/
theorem factor?_exact [IsStrictOrderedRing R] (a : Mat 𝕜 n n) :
    (factor? a = none ↔ ¬ IsUnit a.toMatrix) ∧ ∀ f, factor? a = some f → Factors a f :=
  ⟨factor?_eq_none_iff_not_isUnit a, fun _ => factors_of_factor?⟩

open scoped Exact in
/-- Two rational rows that change places, with pivots 3 and 2/3, and two complex rows that do. -/
theorem factors_two_by_two :
    (∃ f : LU ℚ 2, factor? (.ofFn ![![1, 2], ![3, 4]]) = some f ∧ (f.perm, f.pivotRatio) = (#v[1, 0], 2 / 9) ∧
      Factors (.ofFn ![![1, 2], ![3, 4]]) f) ∧
    ∃ f : LU (Cartesian ℝ) 2, factor? (.ofFn ![![0, ⟨0, 1⟩], ![1, 0]]) = some f ∧
      Factors (.ofFn ![![0, ⟨0, 1⟩], ![1, 0]]) f := by
  constructor
  · have hmap : (factor? (.ofFn ![![1, 2], ![3, 4]] : Mat ℚ 2 2)).map (fun f => (f.perm, f.pivotRatio)) =
        some (#v[1, 0], 2 / 9) := by
      decide +kernel
    obtain ⟨f, hf, hrest⟩ := Option.map_eq_some_iff.1 hmap
    exact ⟨f, hf, hrest, (factor?_exact _).2 f hf⟩
  · obtain ⟨hnone, hsome⟩ := factor?_exact (.ofFn ![![0, ⟨0, 1⟩], ![1, 0]] : Mat (Cartesian ℝ) 2 2)
    have hunit : IsUnit (toMatrix (.ofFn ![![0, ⟨0, 1⟩], ![1, 0]] : Mat (Cartesian ℝ) 2 2)) := by
      rw [Matrix.isUnit_iff_isUnit_det, isUnit_iff_ne_zero]
      simp [Matrix.det_fin_two, Cartesian.ext_iff]
    obtain ⟨f, hf⟩ := Option.ne_none_iff_exists'.1 fun h => hnone.1 h hunit
    exact ⟨f, hf, hsome f hf⟩

end NumericArrays.LU
