import NumericArrays.Proofs.Mat.Rank

/-! Orthogonal-triangular factors in exact arithmetic: they multiply to the columns of the matrix in their
    order, and the diagonal of the triangular factor descends. -/
namespace NumericArrays.PivotedQR

open Mat (toMatrix)
open scoped Exact Matrix

variable {𝕜 : Type} [RCLike 𝕜] {m n steps : Nat}

/-! ### Lengths of columns -/

section Lengths

variable {a : Mat 𝕜 m n} {r c : Fin m} {j : Fin n}

theorem lengthSq_le (h : r ≤ c) : lengthSq a c j ≤ lengthSq a r j := by
  rw [lengthSq_eq, lengthSq_eq]
  exact Finset.sum_le_sum_of_subset_of_nonneg (Finset.Ici_subset_Ici.2 h) fun i _ _ => sq_nonneg _

theorem lengthSq_congr {w : Mat 𝕜 m n} {q : Fin n} (h : w.columns.get q = a.columns.get j) :
    lengthSq w c q = lengthSq a c j := by
  rw [lengthSq_eq, lengthSq_eq]
  simp only [Mat.entry, h]

theorem Reflecting.sum_norm_sq {h : Matrix (Fin m) (Fin m) 𝕜} (hh : Reflecting h) (x : Fin m → 𝕜) :
    ∑ i, ‖(h *ᵥ x) i‖ ^ 2 = ∑ i, ‖x i‖ ^ 2 := by
  have hdot : star (h *ᵥ x) ⬝ᵥ (h *ᵥ x) = star x ⬝ᵥ x := by
    rw [Matrix.star_mulVec, hh.hermitian, Matrix.dotProduct_mulVec, Matrix.vecMul_vecMul, hh.involutive,
      Matrix.vecMul_one]
  rw [Mat.star_dotProduct_self, Mat.star_dotProduct_self] at hdot
  exact_mod_cast hdot

/-- A reflection from row `c` on keeps the length from any row up to `c` on. -/
theorem sum_norm_sq_mirror {t : 𝕜} {v : Vector 𝕜 m} (hh : Reflecting (mirror t (direction c v))) (hr : r ≤ c)
    (x : Fin m → 𝕜) :
    ∑ i ∈ Finset.Ici r, ‖(mirror t (direction c v) *ᵥ x) i‖ ^ 2 = ∑ i ∈ Finset.Ici r, ‖x i‖ ^ 2 := by
  have hsplit (y : Fin m → 𝕜) :
      ∑ i ∈ Finset.Ici r, ‖y i‖ ^ 2 + ∑ i ∈ Finset.Iio r, ‖y i‖ ^ 2 = ∑ i, ‖y i‖ ^ 2 := by
    rw [← Finset.filter_le_eq_Ici, ← Finset.filter_gt_eq_Iio]
    simp only [← not_le]
    exact Finset.sum_filter_add_sum_filter_not _ _ _
  have hbefore : ∑ i ∈ Finset.Iio r, ‖(mirror t (direction c v) *ᵥ x) i‖ ^ 2 =
      ∑ i ∈ Finset.Iio r, ‖x i‖ ^ 2 := by
    apply Finset.sum_congr rfl
    intro i hi
    have hic : i < c := lt_of_lt_of_le (Finset.mem_Iio.1 hi) hr
    rw [mirror_mulVec, Pi.sub_apply, Pi.smul_apply, direction_of_lt c v hic, smul_zero, sub_zero]
  have hall := hh.sum_norm_sq x
  rw [← hsplit, ← hsplit x, hbefore] at hall
  exact add_right_cancel hall

theorem lengthSq_swapColumns (d q : Fin n) :
    lengthSq (a.swapColumns d j) c q = lengthSq a c (Equiv.swap d j q) :=
  lengthSq_congr (Mat.get_swap _ d j q)

theorem lengthSq_eq_zero {d : Fin n} (h : ∀ i, c ≤ i → a.entry i d = 0) : lengthSq a c d = 0 := by
  rw [lengthSq_eq]
  apply Finset.sum_eq_zero
  intro i hi
  rw [h i (Finset.mem_Ici.1 hi), norm_zero, zero_pow two_ne_zero]

theorem norm_directed [DecidableEq 𝕜] {length : ℝ} (hlength : 0 ≤ length) (x : 𝕜) :
    ‖directed length x‖ = length := by
  obtain ⟨u, hu, -, hdirected⟩ := directed_spec length x
  have hunit : ‖u‖ = 1 := by
    rw [RCLike.conj_mul] at hu
    exact (pow_eq_one_iff_of_nonneg (norm_nonneg u) two_ne_zero).1 (by exact_mod_cast hu)
  rw [hdirected, norm_mul, hunit, mul_one, RCLike.norm_ofReal, abs_of_nonneg hlength]

/-- Clearing a column leaves its length in the diagonal entry, up to the sign. -/
theorem norm_clearColumn_diagonal [DecidableEq 𝕜] {length : ℝ} (hlength : 0 ≤ length) (d : Fin n) (x : 𝕜) :
    ‖(clearColumn a c d (directed length x)).1.entry c d‖ = length := by
  rw [clearColumn_entry_diagonal, norm_neg, norm_directed hlength]

/-- The columns after the cleared one keep their lengths. -/
theorem lengthSq_clearColumn [DecidableEq 𝕜] {d q : Fin n} {sigma : 𝕜}
    (hh : Reflecting (mirror (clearColumn a c d sigma).2
      (direction c ((clearColumn a c d sigma).1.columns.get d)))) (hr : r ≤ c) (hq : d < q) :
    lengthSq (clearColumn a c d sigma).1 r q = lengthSq a r q := by
  rw [lengthSq_eq, lengthSq_eq]
  change ∑ i ∈ Finset.Ici r, ‖((clearColumn a c d sigma).1.columns.get q).get i‖ ^ 2 = _
  rw [clearColumn_columns_of_gt a c d sigma hq, sum_norm_sq_mirror hh hr]
  rfl

end Lengths

/-! ### The diagonal -/

section Descent

variable [DecidableEq 𝕜] {a : Mat 𝕜 m n} {f : PivotedQR 𝕜 m n steps} {hm : steps < m} {hn : steps < n}

/-- What a step does to lengths: the column brought next is the longest of those to come, its length
    becomes that of the diagonal entry, and the columns after it keep theirs. -/
theorem Stage.step_lengths (s : Stage a f (Nat.le_of_lt hm) (Nat.le_of_lt hn)) :
    ∃ j, ⟨steps, hn⟩ ≤ j ∧
      (∀ q, ⟨steps, hn⟩ ≤ q → lengthSq f.packed ⟨steps, hm⟩ q ≤ lengthSq f.packed ⟨steps, hm⟩ j) ∧
      (∀ q, q < ⟨steps, hn⟩ → (f.step hm hn).packed.columns.get q = f.packed.columns.get q) ∧
      ‖(f.step hm hn).packed.entry ⟨steps, hm⟩ ⟨steps, hn⟩‖ ^ 2 = lengthSq f.packed ⟨steps, hm⟩ j ∧
      ∀ r q, r ≤ ⟨steps, hm⟩ → ⟨steps, hn⟩ < q →
        lengthSq (f.step hm hn).packed r q = lengthSq f.packed r (Equiv.swap ⟨steps, hn⟩ j q) := by
  let c : Fin m := ⟨steps, hm⟩
  let d : Fin n := ⟨steps, hn⟩
  have hstage : Stage a (f.step hm hn) hm hn := s.step
  have hreflecting := hstage.reflecting (Fin.last steps)
  obtain ⟨j, hj, hlongest, hcases⟩ := f.step_cases hm hn
  let w : Mat 𝕜 m n := f.packed.swapColumns d j
  have hbefore (q : Fin n) (hq : q < d) : w.columns.get q = f.packed.columns.get q := by
    rw [show w.columns.get q = _ from Mat.get_swap _ d j q, Mat.swap_of_lt hj hq]
  have hnext : lengthSq w c d = lengthSq f.packed c j := by
    rw [lengthSq_swapColumns, Equiv.swap_apply_left]
  refine ⟨j, hj, hlongest, ?_⟩
  rw [← hnext]
  rcases hcases with ⟨hzero, hstep⟩ | ⟨length, hlength, hsum, hstep⟩
  · rw [hstep]
    refine ⟨hbefore, ?_, fun r q _ _ => lengthSq_swapColumns d q⟩
    rw [lengthSq_eq_zero hzero, hzero c (le_refl c), norm_zero, zero_pow two_ne_zero]
  · have hmirror : Reflecting (mirror (clearColumn w c d (directed length (w.entry c d))).2
        (direction c ((clearColumn w c d (directed length (w.entry c d))).1.columns.get d))) := by
      rw [← reflection_last ⟨w, f.factors, f.perm.swap d j d.isLt j.isLt⟩]
      rwa [hstep] at hreflecting
    rw [hstep, lengthSq_eq, ← hsum]
    refine ⟨fun q hq => (clearColumn_columns_of_lt w c d _ hq).trans (hbefore q hq), ?_, ?_⟩
    · exact congrArg (· ^ 2) (norm_clearColumn_diagonal hlength.le d _)
    · intro r q hr hq
      exact (lengthSq_clearColumn hmirror hr hq).trans (lengthSq_swapColumns d q)

/-- After some steps: the diagonal of the steps made descends, and no column to come is longer, from the row
    of such a step on, than its diagonal entry. -/
structure Descending (f : PivotedQR 𝕜 m n steps) (hm : steps ≤ m) (hn : steps ≤ n) : Prop where
  diagonal : Antitone fun s : Fin steps => ‖f.packed.entry (s.castLE hm) (s.castLE hn)‖
  rest : ∀ (s : Fin steps) (j : Fin n), steps ≤ j.val →
    lengthSq f.packed (s.castLE hm) j ≤ ‖f.packed.entry (s.castLE hm) (s.castLE hn)‖ ^ 2

omit [DecidableEq 𝕜] in
theorem Descending.start (a : Mat 𝕜 m n) :
    Descending ⟨a, #v[], .ofFn id⟩ (Nat.zero_le m) (Nat.zero_le n) where
  diagonal s := s.elim0
  rest s := s.elim0

theorem Descending.step (h : Descending f (Nat.le_of_lt hm) (Nat.le_of_lt hn))
    (s : Stage a f (Nat.le_of_lt hm) (Nat.le_of_lt hn)) : Descending (f.step hm hn) hm hn := by
  obtain ⟨j, hj, hlongest, hbefore, hdiagonal, hafter⟩ := s.step_lengths
  have hkept (r : Fin steps) :
      (f.step hm hn).packed.entry (r.castSucc.castLE hm) (r.castSucc.castLE hn) =
        f.packed.entry (r.castLE (Nat.le_of_lt hm)) (r.castLE (Nat.le_of_lt hn)) := by
    rw [Mat.entry, hbefore _ r.isLt]
    rfl
  constructor
  · intro r t hrt
    induction t using Fin.lastCases with
    | last =>
      induction r using Fin.lastCases with
      | last => exact le_refl _
      | cast r =>
        -- the new entry is as long as a column that was no longer than the entry of row `r`
        simp only [hkept]
        refine (sq_le_sq₀ (norm_nonneg _) (norm_nonneg _)).1 ?_
        refine hdiagonal.trans_le ((lengthSq_le ?_).trans (h.rest r j hj))
        exact Fin.le_def.2 r.isLt.le
    | cast t =>
      induction r using Fin.lastCases with
      | last => exact absurd hrt (not_le.2 t.castSucc_lt_last)
      | cast r =>
        simp only [hkept]
        exact h.diagonal (Fin.castSucc_le_castSucc_iff.1 hrt)
  · intro r q hq
    have hlt : ⟨steps, hn⟩ < q := hq
    rw [hafter _ q (Fin.le_def.2 (Nat.le_of_lt_succ r.isLt)) hlt]
    have hplace : ⟨steps, hn⟩ ≤ Equiv.swap ⟨steps, hn⟩ j q := Mat.le_swap hj hlt.le
    induction r using Fin.lastCases with
    | last => exact (hlongest _ hplace).trans_eq hdiagonal.symm
    | cast r =>
      simp only [hkept]
      exact h.rest r _ hplace

end Descent

section Run

variable [DecidableEq 𝕜] (a : Mat 𝕜 m n)

theorem descending_factorUpTo (k : Nat) (hk : k ≤ min m n) :
    Descending (factorUpTo a k hk) (hk.trans (Nat.min_le_left m n)) (hk.trans (Nat.min_le_right m n)) := by
  induction k with
  | zero => exact .start a
  | succ k ih => exact (ih _).step (stage_factorUpTo a k _)

theorem descending_factor : Descending (factor a) (Nat.min_le_left m n) (Nat.min_le_right m n) :=
  descending_factorUpTo a (min m n) (Nat.le_refl _)

end Run

/-! ### All together -/

section Product

variable (f : PivotedQR 𝕜 m n (min m n))

def orthogonal : Matrix (Fin m) (Fin m) 𝕜 :=
  ((List.finRange (min m n)).map (f.reflection (Nat.min_le_left m n) (Nat.min_le_right m n))).prod

def triangle : Matrix (Fin m) (Fin n) 𝕜 :=
  .of fun i j => if j.val < i.val then 0 else f.packed.entry i j

end Product

variable [DecidableEq 𝕜]

section Orthogonal

variable (a : Mat 𝕜 m n)

theorem orthogonal_eq : (factor a).orthogonal = (factor a).turningᴴ :=
  (conjTranspose_inOrder _ (stage_factor a).reflecting _).symm

theorem conjTranspose_orthogonal : (factor a).orthogonalᴴ = (factor a).turning := by
  rw [orthogonal_eq, Matrix.conjTranspose_conjTranspose]

theorem orthogonal_mul_conjTranspose : (factor a).orthogonal * (factor a).orthogonalᴴ = 1 := by
  rw [conjTranspose_orthogonal, orthogonal_eq, turning_unitary]

theorem orthogonal_mul_triangle :
    (factor a).orthogonal * (factor a).triangle = a.toMatrix.submatrix id (factor a).perm.get := by
  have hturned : (factor a).triangle =
      (factor a).orthogonalᴴ * a.toMatrix.submatrix id (factor a).perm.get := by
    ext i j
    rw [conjTranspose_orthogonal]
    exact (turned_entry i j).symm
  rw [hturned, ← Matrix.mul_assoc, orthogonal_mul_conjTranspose, Matrix.one_mul]

variable {k : Nat} (b : Mat 𝕜 m k)

theorem toMatrix_applyOrthogonal :
    (b.mapColumns (factor a).applyOrthogonal).toMatrix = (factor a).orthogonal * b.toMatrix := by
  apply Matrix.ext_col
  intro j
  rw [Mat.col_mapColumns, Mat.col_mul, applyOrthogonal_get, orthogonal_eq, Mat.col_toMatrix]

theorem toMatrix_applyAdjoint :
    (b.mapColumns (factor a).applyAdjoint).toMatrix = (factor a).orthogonalᴴ * b.toMatrix := by
  apply Matrix.ext_col
  intro j
  rw [Mat.col_mapColumns, Mat.col_mul, applyAdjoint_get, conjTranspose_orthogonal, Mat.col_toMatrix]

end Orthogonal

omit [DecidableEq 𝕜] in
/-- The factor of a reflection is real. -/
theorem im_eq_zero_of_reflecting {t : 𝕜} {c : Fin m} {v : Vector 𝕜 m}
    (h : Reflecting (mirror t (direction c v))) : RCLike.im t = 0 := by
  have hentry : mirror t (direction c v) c c = 1 - t := by
    simp [mirror, Matrix.vecMulVec_apply, direction_self]
  have hstar : star (mirror t (direction c v) c c) = mirror t (direction c v) c c :=
    congrFun₂ h.hermitian c c
  rw [hentry, star_sub, star_one, sub_right_inj] at hstar
  exact RCLike.conj_eq_iff_im.1 hstar

structure Factors (a : Mat 𝕜 m n) (f : PivotedQR 𝕜 m n (min m n)) : Prop where
  columns : Function.Bijective f.perm.get
  real : ∀ s, RCLike.im (f.factors.get s) = 0
  unitary : ∀ s, f.reflection (Nat.min_le_left m n) (Nat.min_le_right m n) s ∈ Matrix.unitaryGroup (Fin m) 𝕜
  product : f.orthogonal * f.triangle = a.toMatrix.submatrix id f.perm.get
  diagonal : Antitone fun s => ‖f.upper s s‖
  applyOrthogonal : ∀ {k : Nat} (b : Mat 𝕜 m k),
    (b.mapColumns f.applyOrthogonal).toMatrix = f.orthogonal * b.toMatrix
  applyAdjoint : ∀ {k : Nat} (b : Mat 𝕜 m k),
    (b.mapColumns f.applyAdjoint).toMatrix = f.orthogonalᴴ * b.toMatrix
  applyOrthogonal_applyAdjoint : ∀ {k : Nat} (b : Mat 𝕜 m k),
    (b.mapColumns f.applyAdjoint).mapColumns f.applyOrthogonal = b
  applyAdjoint_applyOrthogonal : ∀ {k : Nat} (b : Mat 𝕜 m k),
    (b.mapColumns f.applyOrthogonal).mapColumns f.applyAdjoint = b

/-- Every matrix has such factors. -/
theorem factor_exact (a : Mat 𝕜 m n) : Factors a (factor a) where
  columns := (stage_factor a).columns
  real s := im_eq_zero_of_reflecting ((stage_factor a).reflecting s)
  unitary s := by
    have h := (stage_factor a).reflecting s
    rw [Matrix.mem_unitaryGroup_iff, Matrix.star_eq_conjTranspose, h.hermitian, h.involutive]
  product := orthogonal_mul_triangle a
  diagonal := (descending_factor a).diagonal
  applyOrthogonal := toMatrix_applyOrthogonal a
  applyAdjoint := toMatrix_applyAdjoint a
  applyOrthogonal_applyAdjoint b := by
    apply Mat.eq_of_toMatrix
    rw [toMatrix_applyOrthogonal, toMatrix_applyAdjoint, ← Matrix.mul_assoc, orthogonal_mul_conjTranspose,
      Matrix.one_mul]
  applyAdjoint_applyOrthogonal b := by
    apply Mat.eq_of_toMatrix
    rw [toMatrix_applyAdjoint, toMatrix_applyOrthogonal, ← Matrix.mul_assoc,
      mul_eq_one_comm.1 (orthogonal_mul_conjTranspose a), Matrix.one_mul]

end NumericArrays.PivotedQR
