import NumericArrays.Proofs.Mat.Orthogonal

/-! Finished orthogonal-triangular factors: what they turn, and which part of the triangle counts. -/
namespace NumericArrays.PivotedQR

open Mat (toMatrix)
open scoped Exact Matrix

variable {𝕜 : Type} [RCLike 𝕜] {m n : Nat}

/-! ### The orthogonal factor -/

section Turning

variable (f : PivotedQR 𝕜 m n (min m n))

def turning : Matrix (Fin m) (Fin m) 𝕜 := f.rotation (Nat.min_le_left m n) (Nat.min_le_right m n)

variable [DecidableEq 𝕜]

theorem reflectAt_get (s : Fin (min m n)) (x : Vector 𝕜 m) :
    (f.reflectAt s x).get = f.reflection (Nat.min_le_left m n) (Nat.min_le_right m n) s *ᵥ x.get := by
  unfold reflectAt reflection
  by_cases ht : f.factors.get s = 0
  · rw [if_pos (by simpa using ht), ht, mirror, zero_smul, sub_zero, Matrix.one_mulVec]
  · rw [if_neg (by simpa using ht), reflect_get]

theorem applyAdjoint_get (x : Vector 𝕜 m) : (f.applyAdjoint x).get = f.turning *ᵥ x.get :=
  foldl_get _ f.reflectAt f.reflectAt_get _ x

end Turning

section Factor

variable [DecidableEq 𝕜] (a : Mat 𝕜 m n)

theorem stage_factor : Stage a (factor a) (Nat.min_le_left m n) (Nat.min_le_right m n) :=
  stage_factorUpTo a (min m n) (Nat.le_refl _)

theorem applyOrthogonal_get (x : Vector 𝕜 m) :
    ((factor a).applyOrthogonal x).get = (factor a).turningᴴ *ᵥ x.get :=
  foldr_get _ (stage_factor a).reflecting _ (factor a).reflectAt_get _ x

theorem turning_unitary : (factor a).turningᴴ * (factor a).turning = 1 :=
  inOrder_unitary _ (stage_factor a).reflecting _

/-- Turning back after turning. -/
theorem turning_cancel (x : Fin m → 𝕜) : (factor a).turningᴴ *ᵥ ((factor a).turning *ᵥ x) = x := by
  rw [Matrix.mulVec_mulVec, turning_unitary, Matrix.one_mulVec]

end Factor

/-! ### The part that counts -/

section Leading

variable (f : PivotedQR 𝕜 m n (min m n))

theorem tolerance_nonneg : 0 ≤ f.tolerance := by
  unfold tolerance
  split
  · exact le_refl 0
  · simp only [RealScalar.ofNat, RealScalar.epsilon, MatrixScalar.modulus]
    positivity

/-- Diagonal entries before the rank are not zero. -/
theorem upper_ne_zero {i : Fin (min m n)} (hi : i.val < f.rank) : f.upper i i ≠ 0 := by
  let counts (i : Fin (min m n)) : Bool := f.tolerance < MatrixScalar.modulus (f.upper i i)
  have hi' : i.val < ((List.finRange (min m n)).takeWhile counts).length := hi
  have hplace : ((List.finRange (min m n)).takeWhile counts)[i.val] = i := by
    rw [(List.takeWhile_prefix counts).getElem hi', List.getElem_finRange]
    rfl
  have hcounts : counts i = true := List.mem_takeWhile_imp (hplace ▸ List.getElem_mem hi')
  have hlarge : f.tolerance < ‖f.upper i i‖ := of_decide_eq_true hcounts
  intro hzero
  rw [hzero, norm_zero] at hlarge
  exact absurd f.tolerance_nonneg (not_le.2 hlarge)

/-- The leading block of the triangular factor, as large as the rank. -/
noncomputable def leading (i j : Fin f.rank) : 𝕜 := f.upper (i.castLE f.rank_le) (j.castLE f.rank_le)

theorem leading_ne_zero (i : Fin f.rank) : f.leading i i ≠ 0 := f.upper_ne_zero i.isLt

def VanishesFrom (r : Nat) : Prop := ∀ i j : Fin (min m n), r ≤ i.val → i ≤ j → f.upper i j = 0

end Leading

section Turned

variable [DecidableEq 𝕜] {a : Mat 𝕜 m n}

/-- The matrix, turned, with its columns in their order. -/
theorem turned_entry (i : Fin m) (j : Fin n) :
    ((factor a).turning * a.toMatrix) i ((factor a).perm.get j) =
      if j.val < i.val then 0 else (factor a).packed.entry i j := by
  rw [turning, (stage_factor a).triangular]
  congr 1
  simp only [eq_iff_iff]
  omega

theorem turned_leading (i j : Fin (factor a).rank) :
    ((factor a).turning * a.toMatrix) (i.castLE (factor a).rank_le_rows)
        ((factor a).perm.get (j.castLE (factor a).rank_le_columns)) =
      if j < i then 0 else (factor a).leading i j :=
  turned_entry _ _

/-- Rows past the rank of a tall system are zero if the rest of the triangle is. -/
theorem turned_eq_zero (hnm : n ≤ m) (h : (factor a).VanishesFrom (factor a).rank) {i : Fin m}
    (hi : (factor a).rank ≤ i.val) (j : Fin n) : ((factor a).turning * a.toMatrix) i j = 0 := by
  obtain ⟨j, rfl⟩ := (stage_factor a).columns.surjective j
  rw [turned_entry]
  split
  · rfl
  · exact h ⟨i, by omega⟩ ⟨j, by omega⟩ hi (by rw [Fin.le_def]; simp only; omega)

end Turned

end NumericArrays.PivotedQR
