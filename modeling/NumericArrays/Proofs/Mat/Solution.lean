import NumericArrays.Proofs.Mat.Elimination
import NumericArrays.Proofs.Mat.LeastSquares
import NumericArrays.Proofs.Mat.Columns

/-! What a solution satisfies in exact arithmetic, whatever the shape of the system. -/
namespace NumericArrays.Mat

open PivotedQR (factor)
open scoped Exact Matrix

/-- The rank that the warnings report; without such a warning it is the full one. -/
def Solved.reportedRank {K R : Type} {n k : Nat} (s : Solved K R n k) (full : Nat) : Nat :=
  match s.warnings with
  | [.rankDeficient rank] => rank
  | _ => full

theorem reportedRank_rankWarnings {K R : Type} {n k rank full : Nat} (x : Mat K n k) (h : rank ≤ full) :
    (⟨x, rankWarnings rank full⟩ : Solved K R n k).reportedRank full = rank := by
  unfold Solved.reportedRank rankWarnings
  by_cases hlt : rank < full
  · simp [hlt]
  · simp [hlt]
    omega

variable {𝕜 : Type} [RCLike 𝕜] {m n k : Nat}

/-! ### Shortest solutions -/

/-- A solution in the range of the adjoint is no longer than any other solution. -/
theorem length_le_of_mem_range {a : Matrix (Fin m) (Fin n) 𝕜} {x y : Fin n → 𝕜}
    (hx : x ∈ LinearMap.range aᴴ.mulVecLin) (hxy : a *ᵥ x = a *ᵥ y) :
    ∑ i, ‖x i‖ ^ 2 ≤ ∑ i, ‖y i‖ ^ 2 := by
  obtain ⟨w, rfl⟩ := hx
  let x := aᴴ *ᵥ w
  obtain ⟨d, rfl⟩ : ∃ d, y = x + d := ⟨y - x, (add_sub_cancel x y).symm⟩
  have hd : a *ᵥ d = 0 := by
    rw [Matrix.mulVec_add] at hxy
    exact left_eq_add.1 hxy
  have hxd : star x ⬝ᵥ d = 0 := by
    rw [Matrix.star_mulVec, Matrix.conjTranspose_conjTranspose, ← Matrix.dotProduct_mulVec, hd,
      dotProduct_zero]
  have hdx : star d ⬝ᵥ x = 0 := by
    rw [Matrix.star_dotProduct, hxd, star_zero]
  have hsquares : star (x + d) ⬝ᵥ (x + d) = star x ⬝ᵥ x + star d ⬝ᵥ d := by
    rw [star_add, add_dotProduct, dotProduct_add, dotProduct_add, hxd, hdx, add_zero, zero_add]
  have hreal : ∑ i, ‖(x + d) i‖ ^ 2 = ∑ i, ‖x i‖ ^ 2 + ∑ i, ‖d i‖ ^ 2 := by
    rw [star_dotProduct_self, star_dotProduct_self, star_dotProduct_self] at hsquares
    exact_mod_cast hsquares
  have hrest : 0 ≤ ∑ i, ‖d i‖ ^ 2 := Finset.sum_nonneg fun i _ => sq_nonneg _
  change ∑ i, ‖x i‖ ^ 2 ≤ ∑ i, ‖(x + d) i‖ ^ 2
  rw [hreal]
  exact le_add_of_nonneg_right hrest

theorem toMatrix_transposeWith (a : Mat 𝕜 m n) :
    (transposeWith (starRingEnd 𝕜) a).toMatrix = a.toMatrixᴴ := by
  ext j i
  exact entry_transposeWith _ a i j

variable [DecidableEq 𝕜]

theorem solveSquare_exact {a : Mat 𝕜 n n} {b : Mat 𝕜 n k} {s : Solved 𝕜 ℝ n k} (h : solveSquare a b = some s) :
    a.toMatrix * s.solution.toMatrix = b.toMatrix := by
  obtain ⟨f, hf, rfl⟩ := Option.map_eq_some_iff.1 h
  exact LU.mul_mapColumns_solveColumn hf b

/-- The rank is full, or nothing but zeros is discarded. -/
theorem vanishesFrom_of_full {a : Mat 𝕜 m n} (hnm : n < m)
    (h : (factor a).rank = n ∨ (factor a).VanishesFrom (factor a).rank) :
    (factor a).VanishesFrom (factor a).rank := by
  rcases h with hfull | hzero
  · intro i j hi
    exact absurd i.isLt (by omega)
  · exact hzero

theorem solveTall_exact (hnm : n < m) (a : Mat 𝕜 m n) (b : Mat 𝕜 m k)
    (h : (factor a).rank = n ∨ (factor a).VanishesFrom (factor a).rank) :
    a.toMatrixᴴ * (a.toMatrix * (solveTall a b).solution.toMatrix - b.toMatrix) = 0 := by
  apply Matrix.ext_col
  intro j
  have hcolumn : (a.toMatrix * (solveTall a b).solution.toMatrix - b.toMatrix).col j =
      a.toMatrix *ᵥ (leastSquaresColumn (factor a) (b.columns.get j)).get - (b.columns.get j).get := by
    change (a.toMatrix * (solveTall a b).solution.toMatrix).col j - b.toMatrix.col j = _
    rw [col_mul, solveTall, col_mapColumns, col_toMatrix]
  rw [col_mul, hcolumn, leastSquaresColumn_normal (le_of_lt hnm) (vanishesFrom_of_full hnm h)]
  rfl

theorem solveWide_exact (hmn : m < n) (a : Mat 𝕜 m n) (b : Mat 𝕜 m k)
    (h : (factor (transposeWith (starRingEnd 𝕜) a)).rank = m ∨
      (factor (transposeWith (starRingEnd 𝕜) a)).VanishesFrom
          (factor (transposeWith (starRingEnd 𝕜) a)).rank ∧
        ∃ y : Matrix (Fin n) (Fin k) 𝕜, a.toMatrix * y = b.toMatrix) :
    a.toMatrix * (solveWide a b).solution.toMatrix = b.toMatrix := by
  have hadjoint : (transposeWith (starRingEnd 𝕜) a).toMatrixᴴ = a.toMatrix := by
    rw [toMatrix_transposeWith, Matrix.conjTranspose_conjTranspose]
  apply Matrix.ext_col
  intro j
  rw [col_mul, solveWide, col_mapColumns, col_toMatrix]
  rcases h with hfull | ⟨hzero, y, hy⟩
  · have hsolves := shortestColumn_solves_of_rank hfull (b.columns.get j)
    rwa [hadjoint] at hsolves
  · have hcolumn : (transposeWith (starRingEnd 𝕜) a).toMatrixᴴ *ᵥ y.col j = (b.columns.get j).get := by
      rw [hadjoint, ← col_mul, hy, col_toMatrix]
    have hsolves := shortestColumn_solves_of_solvable (le_of_lt hmn) hzero hcolumn
    rwa [hadjoint] at hsolves

theorem solveWide_mem_range (a : Mat 𝕜 m n) (b : Mat 𝕜 m k) (j : Fin k) :
    (solveWide a b).solution.toMatrix.col j ∈ LinearMap.range a.toMatrixᴴ.mulVecLin := by
  rw [solveWide, col_mapColumns, ← toMatrix_transposeWith]
  exact shortestColumn_mem_range _

/-- There is no answer exactly for singular square matrices. -/
theorem solve_eq_none_iff (a : Mat 𝕜 m n) (b : Mat 𝕜 m k) :
    a.solve b = none ↔ m = n ∧ ∃ x : Fin n → 𝕜, x ≠ 0 ∧ a.toMatrix *ᵥ x = 0 := by
  rcases lt_trichotomy m n with hmn | rfl | hnm
  · rw [solve_wide hmn]
    simp [ne_of_lt hmn]
  · rw [solve_square, solveSquare, Option.map_eq_none_iff, LU.factor?_eq_none_iff]
    exact (and_iff_right rfl).symm
  · rw [solve_tall hnm]
    simp [ne_of_gt hnm]

/-- There is an answer unless the matrix is square and singular: exact solutions of square systems,
    least-squares solutions of tall ones and shortest solutions of wide ones, as far as the rank reported
    makes them so. -/
theorem solve_exact (a : Mat 𝕜 m n) (b : Mat 𝕜 m k) :
    (a.solve b = none ↔ m = n ∧ ∃ x : Fin n → 𝕜, x ≠ 0 ∧ a.toMatrix *ᵥ x = 0) ∧
    ∀ s : Solved 𝕜 ℝ n k, a.solve b = some s →
      (m = n → a.toMatrix * s.solution.toMatrix = b.toMatrix) ∧
      (n < m → s.reportedRank n = n ∨ (factor a).VanishesFrom (s.reportedRank n) →
        a.toMatrixᴴ * (a.toMatrix * s.solution.toMatrix - b.toMatrix) = 0) ∧
      (m < n → s.reportedRank m = m ∨
          (factor (transposeWith (starRingEnd 𝕜) a)).VanishesFrom (s.reportedRank m) ∧
            (∃ y : Matrix (Fin n) (Fin k) 𝕜, a.toMatrix * y = b.toMatrix) →
        a.toMatrix * s.solution.toMatrix = b.toMatrix ∧
        (∀ j, s.solution.toMatrix.col j ∈ LinearMap.range a.toMatrixᴴ.mulVecLin) ∧
        ∀ y : Matrix (Fin n) (Fin k) 𝕜, a.toMatrix * y = b.toMatrix →
          ∀ j, ∑ i, ‖s.solution.toMatrix i j‖ ^ 2 ≤ ∑ i, ‖y i j‖ ^ 2) := by
  refine ⟨solve_eq_none_iff a b, ?_⟩
  intro s h
  refine ⟨?_, ?_, ?_⟩
  · rintro rfl
    rw [solve_square] at h
    exact solveSquare_exact h
  · intro hnm hrank
    rw [solve_tall hnm] at h
    obtain rfl := Option.some.inj h
    have hreported : (solveTall a b).reportedRank n = (factor a).rank :=
      reportedRank_rankWarnings _ (factor a).rank_le_columns
    rw [hreported] at hrank
    exact solveTall_exact hnm a b hrank
  · intro hmn hrank
    rw [solve_wide hmn] at h
    obtain rfl := Option.some.inj h
    have hreported : (solveWide a b).reportedRank m = (factor (transposeWith (starRingEnd 𝕜) a)).rank :=
      reportedRank_rankWarnings _ (factor (transposeWith (starRingEnd 𝕜) a)).rank_le_columns
    rw [hreported] at hrank
    have hsolves := solveWide_exact hmn a b hrank
    have hrange := solveWide_mem_range a b
    refine ⟨hsolves, hrange, ?_⟩
    intro y hy j
    have hsame : a.toMatrix *ᵥ (solveWide a b).solution.toMatrix.col j = a.toMatrix *ᵥ y.col j := by
      rw [← col_mul, ← col_mul, hsolves, hy]
    exact length_le_of_mem_range (hrange j) hsame

/-- Two numbers, not both zero, are a column of rank 1. -/
theorem rank_pair {c : Mat 𝕜 2 1} {i : Fin 2} (hc : c.entry i 0 ≠ 0) : (factor c).rank = 1 := by
  have hdiagonal (j : Fin (min 2 1)) : (factor c).upper j j ≠ 0 := by
    intro hzero
    have hturned (r : Fin 2) (q : Fin 1) : ((factor c).turning * c.toMatrix) r q = 0 := by
      obtain ⟨q, rfl⟩ := (PivotedQR.stage_factor c).columns.surjective q
      rw [PivotedQR.turned_entry]
      split
      · rfl
      · have hr : r = j.castLE (Nat.min_le_left 2 1) := by
          ext
          simp only [Fin.val_castLE]
          omega
        rw [hr, Subsingleton.elim q (j.castLE (Nat.min_le_right 2 1))]
        exact hzero
    have hcolumn : (factor c).turning *ᵥ c.toMatrix.col 0 = 0 := funext fun r => hturned r 0
    have hback := PivotedQR.turning_cancel c (c.toMatrix.col 0)
    rw [hcolumn, Matrix.mulVec_zero] at hback
    exact hc (congrFun hback i).symm
  have hcounts (j : Fin (min 2 1)) : (factor c).tolerance < ‖(factor c).upper j j‖ := by
    have hj : j = ⟨0, by decide⟩ := Fin.ext (Nat.lt_one_iff.1 j.isLt)
    have htolerance : (factor c).tolerance = 2 * (1 / 2 ^ 52) * ‖(factor c).upper j j‖ := by
      rw [hj]
      change (((max 2 1 : ℕ) : ℝ)) * (1 / 2 ^ 52) * ‖(factor c).upper ⟨0, by decide⟩ ⟨0, by decide⟩‖ = _
      norm_num
    have hpos : 0 < ‖(factor c).upper j j‖ := norm_pos_iff.2 (hdiagonal j)
    rw [htolerance]
    nlinarith
  have hall : (List.finRange (min 2 1)).takeWhile (fun j =>
      decide ((factor c).tolerance < MatrixScalar.modulus ((factor c).upper j j))) = List.finRange (min 2 1) := by
    rw [List.takeWhile_eq_self_iff]
    intro j _
    exact decide_eq_true (hcounts j)
  rw [PivotedQR.rank, hall]
  rfl

/-- One equation in two unknowns: the solution satisfies it and is the shortest one. -/
theorem solve_exact_row :
    ∃ s : Solved ℂ ℝ 2 1,
      (ofFn fun _ j => if j = 0 then 3 else 4 * Complex.I : Mat ℂ 1 2).solve (ofFn fun _ _ => 25) = some s ∧
      3 * s.solution.entry 0 0 + 4 * Complex.I * s.solution.entry 1 0 = 25 ∧
      ∀ y : Matrix (Fin 2) (Fin 1) ℂ, 3 * y 0 0 + 4 * Complex.I * y 1 0 = 25 →
        ‖s.solution.entry 0 0‖ ^ 2 + ‖s.solution.entry 1 0‖ ^ 2 ≤ ‖y 0 0‖ ^ 2 + ‖y 1 0‖ ^ 2 := by
  have hsolve := solve_wide (by decide) (ofFn fun _ j => if j = 0 then 3 else 4 * Complex.I : Mat ℂ 1 2)
    (ofFn fun _ _ => 25 : Mat ℂ 1 1)
  obtain ⟨s, hs⟩ : ∃ s, s = solveWide (ofFn fun _ j => if j = 0 then 3 else 4 * Complex.I : Mat ℂ 1 2)
    (ofFn fun _ _ => 25 : Mat ℂ 1 1) := ⟨_, rfl⟩
  rw [← hs] at hsolve
  have hfull : s.reportedRank 1 = 1 := by
    rw [hs]
    refine (reportedRank_rankWarnings _ (PivotedQR.rank_le_columns _)).trans (rank_pair (i := 0) ?_)
    rw [entry_transposeWith, entry_ofFn, if_pos rfl]
    exact (map_ne_zero (starRingEnd ℂ)).2 (by norm_num)
  obtain ⟨-, -, hwide⟩ := (solve_exact _ _).2 s hsolve
  obtain ⟨hsolves, -, hshortest⟩ := hwide (by decide) (Or.inl hfull)
  refine ⟨s, hsolve, ?_, ?_⟩
  · have hentry := congrFun (congrFun hsolves 0) 0
    simpa [Matrix.mul_apply, Fin.sum_univ_two] using hentry
  · intro y hy
    have hle := hshortest y ?_ 0
    · simpa [Fin.sum_univ_two] using hle
    · ext i j
      obtain rfl := Subsingleton.elim i 0
      obtain rfl := Subsingleton.elim j 0
      simpa [Matrix.mul_apply, Fin.sum_univ_two] using hy

end NumericArrays.Mat
