import NumericArrays.Proofs.Mat.Rank
import NumericArrays.Proofs.Mat.Triangular
import NumericArrays.Proofs.Mat.Transpose

/-! Systems that are not square: what their solutions satisfy. -/
namespace NumericArrays.Mat

open PivotedQR (factor turned_entry turned_leading turned_eq_zero turning_cancel stage_factor)
open scoped Exact Matrix

/-! ### Putting unknowns in place -/

section Places

variable {K : Type} [Arith K] {n r : Nat}

theorem padZero_get (x : Vector K r) (i : Fin n) :
    (padZero x n).get i = if h : i.val < r then x.get ⟨i, h⟩ else 0 := by
  rw [padZero, get_ofFn]
  by_cases h : i.val < r
  · rw [dif_pos h, Vector.getElem?_eq_getElem h]
    rfl
  · rw [dif_neg h, Vector.getElem?_eq_none (not_lt.1 h)]
    rfl

/-- The entries end up where the permutation says. -/
theorem scatter_get {perm : Vector (Fin n) n} (hperm : Function.Injective perm.get) (y : Vector K n)
    (i : Fin n) : (scatter perm y).get (perm.get i) = y.get i := by
  have hloop (l : List (Fin n)) (x : Vector K n) :
      (l.foldl (fun x i => placeAt x (perm.get i) (y.get i)) x).get (perm.get i) =
        if i ∈ l then y.get i else x.get (perm.get i) := by
    induction l generalizing x with
    | nil => simp
    | cons j l ih =>
      have hplace : (placeAt x (perm.get j) (y.get j)).get (perm.get i) =
          if i = j then y.get i else x.get (perm.get i) := by
        change (x.set (perm.get j) (y.get j) (perm.get j).isLt)[(perm.get i).val] = _
        rw [Vector.getElem_set]
        by_cases hij : i = j
        · subst hij
          rw [if_pos rfl, if_pos rfl]
        · rw [if_neg (fun h => hij (hperm (Fin.ext h.symm))), if_neg hij]
          rfl
      rw [List.foldl_cons, ih, hplace]
      simp only [List.mem_cons]
      by_cases hl : i ∈ l
      · rw [if_pos hl, if_pos (Or.inr hl)]
      · by_cases hij : i = j
        · rw [if_neg hl, if_pos hij, if_pos (Or.inl hij)]
        · rw [if_neg hl, if_neg hij, if_neg (by simp [hl, hij])]
  rw [scatter, hloop, if_pos (List.mem_finRange i)]

end Places

variable {𝕜 : Type} [RCLike 𝕜] [DecidableEq 𝕜] {m n : Nat}

/-! ### More rows than columns -/

section Tall

variable {a : Mat 𝕜 m n}

/-- The turned matrix applied to unknowns as far as the rank, in the places of their columns. -/
theorem turned_mulVec_placed (y : Vector 𝕜 (factor a).rank) (i : Fin m) :
    (((factor a).turning * a.toMatrix) *ᵥ (scatter (factor a).perm (padZero y n)).get) i =
      ∑ j : Fin (factor a).rank, ((factor a).turning * a.toMatrix) i
        ((factor a).perm.get (j.castLE (factor a).rank_le_columns)) * y.get j := by
  have hcolumns : Function.Bijective (factor a).perm.get := (stage_factor a).columns
  have hplaced (j : Fin n) : (scatter (factor a).perm (padZero y n)).get ((factor a).perm.get j) =
      if h : j.val < (factor a).rank then y.get ⟨j, h⟩ else 0 := by
    rw [scatter_get hcolumns.injective, padZero_get]
  rw [Matrix.mulVec, dotProduct, ← hcolumns.sum_comp, sum_eq_sum_castLE (factor a).rank_le_columns]
  · apply Finset.sum_congr rfl
    intro j _
    rw [hplaced, dif_pos (by exact j.isLt)]
    rfl
  · intro j hj
    rw [hplaced, dif_neg (not_lt.2 hj), mul_zero]

/-- Where these unknowns solve the leading triangle, that is the right-hand side as far as the rank, and
    zero from there on. -/
theorem turned_mulVec_scatter (g : Fin m → 𝕜) (i : Fin m) :
    (((factor a).turning * a.toMatrix) *ᵥ
      (scatter (factor a).perm (padZero (backward (factor a).leading
        fun i => g (i.castLE (factor a).rank_le_rows)) n)).get) i =
      if i.val < (factor a).rank then g i else 0 := by
  rw [turned_mulVec_placed]
  by_cases hi : i.val < (factor a).rank
  · have hterm (j : Fin (factor a).rank) (y : 𝕜) : ((factor a).turning * a.toMatrix) i
          ((factor a).perm.get (j.castLE (factor a).rank_le_columns)) * y =
        if j < ⟨i, hi⟩ then 0 else (factor a).leading ⟨i, hi⟩ j * y := by
      have hentry := turned_leading (a := a) ⟨i, hi⟩ j
      simp only [Fin.castLE_mk, Fin.eta] at hentry
      rw [hentry, ite_mul, zero_mul]
    simp only [hterm]
    rw [sum_ite_Ici, backward_solves _ _ (factor a).leading_ne_zero, if_pos hi]
    rfl
  · rw [if_neg hi]
    apply Finset.sum_eq_zero
    intro j _
    have hbelow : (j.castLE (factor a).rank_le_columns).val < i.val := lt_of_lt_of_le j.isLt (not_lt.1 hi)
    rw [turned_entry, if_pos hbelow, zero_mul]

/-- Turned, the matrix makes of the solution the turned right-hand side, as far as the rank. -/
theorem turned_mulVec_leastSquaresColumn (b : Vector 𝕜 m) (i : Fin m) :
    (((factor a).turning * a.toMatrix) *ᵥ (leastSquaresColumn (factor a) b).get) i =
      if i.val < (factor a).rank then ((factor a).turning *ᵥ b.get) i else 0 := by
  rw [← PivotedQR.applyAdjoint_get]
  exact turned_mulVec_scatter _ i

/-- The normal equations: what is left over is orthogonal to all columns, if the discarded part of the
    triangular factor is zero. -/
theorem leastSquaresColumn_normal (hnm : n ≤ m) (h : (factor a).VanishesFrom (factor a).rank) (b : Vector 𝕜 m) :
    a.toMatrixᴴ *ᵥ (a.toMatrix *ᵥ (leastSquaresColumn (factor a) b).get - b.get) = 0 := by
  let q := (factor a).turning
  let x := (leastSquaresColumn (factor a) b).get
  have hturned : a.toMatrixᴴ *ᵥ (a.toMatrix *ᵥ x - b.get) =
      (q * a.toMatrix)ᴴ *ᵥ ((q * a.toMatrix) *ᵥ x - q *ᵥ b.get) := by
    rw [Matrix.conjTranspose_mul, ← Matrix.mulVec_mulVec, ← Matrix.mulVec_mulVec, ← Matrix.mulVec_sub,
      turning_cancel]
  refine hturned.trans ?_
  funext j
  rw [Matrix.mulVec, dotProduct, Pi.zero_apply]
  apply Finset.sum_eq_zero
  intro i _
  rw [Pi.sub_apply, turned_mulVec_leastSquaresColumn]
  by_cases hi : i.val < (factor a).rank
  · rw [if_pos hi, sub_self, mul_zero]
  · rw [Matrix.conjTranspose_apply, turned_eq_zero hnm h (not_lt.1 hi), star_zero, zero_mul]

/-! ### The adjoint of such a system -/

/-- The adjoint of the turned matrix, where nothing counts past the rank. -/
theorem adjoint_mulVec (y : Fin m → 𝕜) (j : Fin n)
    (hy : ∀ i : Fin m, (factor a).rank ≤ i.val → star (((factor a).turning * a.toMatrix) i j) * y i = 0) :
    (((factor a).turning * a.toMatrix)ᴴ *ᵥ y) j = ∑ i : Fin (factor a).rank,
      star (((factor a).turning * a.toMatrix) (i.castLE (factor a).rank_le_rows) j) *
        y (i.castLE (factor a).rank_le_rows) := by
  rw [Matrix.mulVec, dotProduct, sum_eq_sum_castLE (factor a).rank_le_rows]
  · rfl
  · exact hy

/-- Its leading rows are a lower triangle. -/
theorem adjoint_leading (z : Fin (factor a).rank → 𝕜) (j : Fin (factor a).rank) :
    ∑ i : Fin (factor a).rank, star (((factor a).turning * a.toMatrix) (i.castLE (factor a).rank_le_rows)
        ((factor a).perm.get (j.castLE (factor a).rank_le_columns))) * z i =
      ∑ i ∈ Finset.Iic j, starRingEnd 𝕜 ((factor a).leading i j) * z i := by
  rw [← sum_ite_Iic]
  apply Finset.sum_congr rfl
  intro i _
  rw [turned_leading]
  split
  · rw [star_zero, zero_mul]
  · rfl

noncomputable def lowerUnknowns (a : Mat 𝕜 m n) (b : Vector 𝕜 n) : Vector 𝕜 (factor a).rank :=
  forward (fun i j => starRingEnd 𝕜 ((factor a).leading j i))
    (fun i x => x / starRingEnd 𝕜 ((factor a).leading i i))
    (fun i => b.get ((factor a).perm.get (i.castLE (factor a).rank_le_columns)))

theorem shortestColumn_get (b : Vector 𝕜 n) :
    (shortestColumn (factor a) b).get = (factor a).turningᴴ *ᵥ (padZero (lowerUnknowns a b) m).get :=
  PivotedQR.applyOrthogonal_get a _

theorem star_leading_ne_zero (i : Fin (factor a).rank) : starRingEnd 𝕜 ((factor a).leading i i) ≠ 0 :=
  (map_ne_zero _).2 ((factor a).leading_ne_zero i)

/-- The adjoint of the matrix applied to the solution, by the unknowns of the lower triangle. -/
theorem adjoint_mulVec_shortestColumn (b : Vector 𝕜 n) (j : Fin n) :
    (a.toMatrixᴴ *ᵥ (shortestColumn (factor a) b).get) j = ∑ i : Fin (factor a).rank,
      star (((factor a).turning * a.toMatrix) (i.castLE (factor a).rank_le_rows) j) *
        (lowerUnknowns a b).get i := by
  have hpad (i : Fin m) : (padZero (lowerUnknowns a b) m).get i =
      if h : i.val < (factor a).rank then (lowerUnknowns a b).get ⟨i, h⟩ else 0 := padZero_get _ i
  rw [shortestColumn_get, Matrix.mulVec_mulVec, ← Matrix.conjTranspose_mul, adjoint_mulVec]
  · apply Finset.sum_congr rfl
    intro i _
    rw [hpad, dif_pos (by exact i.isLt)]
    rfl
  · intro i hi
    rw [hpad, dif_neg (not_lt.2 hi), mul_zero]

/-- The system of the adjoint, where every row counts. -/
theorem shortestColumn_solves_of_rank (h : (factor a).rank = n) (b : Vector 𝕜 n) :
    a.toMatrixᴴ *ᵥ (shortestColumn (factor a) b).get = b.get := by
  funext j
  obtain ⟨j, rfl⟩ := (stage_factor a).columns.surjective j
  have hj : j.val < (factor a).rank := h.symm ▸ j.isLt
  rw [adjoint_mulVec_shortestColumn]
  refine (adjoint_leading _ ⟨j, hj⟩).trans ?_
  exact forward_solves (fun i j => starRingEnd 𝕜 ((factor a).leading j i)) _ star_leading_ne_zero ⟨j, hj⟩

/-- The system of the adjoint, where the discarded part of the triangular factor is zero and there is some
    solution. -/
theorem shortestColumn_solves_of_solvable (hnm : n ≤ m) (h : (factor a).VanishesFrom (factor a).rank)
    {b : Vector 𝕜 n} {y : Fin m → 𝕜} (hy : a.toMatrixᴴ *ᵥ y = b.get) :
    a.toMatrixᴴ *ᵥ (shortestColumn (factor a) b).get = b.get := by
  -- the solution there is, turned: only its leading entries count
  let turned := (factor a).turning *ᵥ y
  have hturned (j : Fin n) : b.get j = ∑ i : Fin (factor a).rank,
      star (((factor a).turning * a.toMatrix) (i.castLE (factor a).rank_le_rows) j) *
        turned (i.castLE (factor a).rank_le_rows) := by
    rw [← adjoint_mulVec turned j, Matrix.conjTranspose_mul, ← Matrix.mulVec_mulVec]
    · simp only [turned]
      rw [PivotedQR.turning_cancel, hy]
    · intro i hi
      rw [turned_eq_zero hnm h hi, star_zero, zero_mul]
  have hsame (i : Fin (factor a).rank) :
      (lowerUnknowns a b).get i = turned (i.castLE (factor a).rank_le_rows) := by
    refine forward_unique (y := fun i => turned (i.castLE (factor a).rank_le_rows))
      (fun i j => starRingEnd 𝕜 ((factor a).leading j i)) _ star_leading_ne_zero ?_ i
    intro j
    rw [hturned, ← adjoint_leading]
  funext j
  rw [adjoint_mulVec_shortestColumn, hturned j]
  simp only [hsame]

/-- The solution is a combination of the columns. -/
theorem shortestColumn_mem_range (b : Vector 𝕜 n) :
    (shortestColumn (factor a) b).get ∈ LinearMap.range a.toMatrix.mulVecLin := by
  let padded := (padZero (lowerUnknowns a b) m).get
  let w := (scatter (factor a).perm (padZero (backward (factor a).leading
    fun i => padded (i.castLE (factor a).rank_le_rows)) n)).get
  have hw : ((factor a).turning * a.toMatrix) *ᵥ w = padded := by
    funext i
    refine (turned_mulVec_scatter padded i).trans ?_
    split
    · rfl
    · rename_i hi
      exact ((padZero_get _ i).trans (dif_neg hi)).symm
  refine ⟨w, ?_⟩
  rw [Matrix.mulVecLin_apply, shortestColumn_get, ← turning_cancel a (a.toMatrix *ᵥ w),
    Matrix.mulVec_mulVec w, hw]

end Tall

end NumericArrays.Mat
