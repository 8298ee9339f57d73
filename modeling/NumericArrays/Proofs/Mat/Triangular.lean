import NumericArrays.Proofs.Mat.Steps

/-! Substitution solves triangular systems, and nothing else solves them. -/
namespace NumericArrays.Mat

variable {𝕜 : Type} [Field 𝕜] {r : Nat}

/-! ### From the first unknown on -/

section Forward

variable (l : Fin r → Fin r → 𝕜) (finish : Fin r → 𝕜 → 𝕜) (c : Fin r → 𝕜)

/-- Each unknown from the ones before it. -/
theorem forward_get (i : Fin r) :
    (forward l finish c).get i =
      finish i (c i - ∑ j ∈ Finset.Iio i, l i j * (forward l finish c).get j) := by
  have hi : i.val ≤ r := Nat.le_of_lt i.isLt
  have hlast : (forward l finish c).get i = (forwardUpTo l finish c (i + 1) i.isLt).get (Fin.last i) :=
    (forwardUpTo_get l finish c (i + 1) i.isLt (Fin.last i)).symm
  rw [hlast]
  change (Vector.push _ _)[i.val] = _
  rw [Vector.getElem_push_eq, foldl_finRange_sub,
    ← sum_castLE (fun j => l i j * (forward l finish c).get j) i hi]
  simp only [forwardUpTo_get]

/-- Divided by a diagonal free of zeros, the unknowns solve the system. -/
theorem forward_solves (hl : ∀ i, l i i ≠ 0) (i : Fin r) :
    ∑ j ∈ Finset.Iic i, l i j * (forward l (fun i x => x / l i i) c).get j = c i := by
  have hi : l i i * (forward l (fun i x => x / l i i) c).get i =
      c i - ∑ j ∈ Finset.Iio i, l i j * (forward l (fun i x => x / l i i) c).get j := by
    rw [forward_get, mul_div_cancel₀ _ (hl i)]
  rw [← Finset.Iio_insert, Finset.sum_insert (by simp), hi, sub_add_cancel]

/-- No other numbers solve it. -/
theorem forward_unique (hl : ∀ i, l i i ≠ 0) {y : Fin r → 𝕜}
    (hy : ∀ i, ∑ j ∈ Finset.Iic i, l i j * y j = c i) (i : Fin r) :
    (forward l (fun i x => x / l i i) c).get i = y i := by
  induction i using WellFoundedLT.induction with
  | ind i ih =>
    have hbefore : ∑ j ∈ Finset.Iio i, l i j * (forward l (fun i x => x / l i i) c).get j =
        ∑ j ∈ Finset.Iio i, l i j * y j := by
      apply Finset.sum_congr rfl
      intro j hj
      rw [ih j (Finset.mem_Iio.1 hj)]
    have hi := hy i
    rw [← Finset.Iio_insert, Finset.sum_insert (by simp)] at hi
    rw [forward_get, hbefore, ← hi, add_sub_cancel_right, mul_div_cancel_left₀ _ (hl i)]

end Forward

/-! ### From the last unknown on -/

section Backward

variable (u : Fin r → Fin r → 𝕜) (c : Fin r → 𝕜)

/-- Each unknown from the ones after it. -/
theorem backward_get (i : Fin r) :
    (backward u c).get i = (c i - ∑ j ∈ Finset.Ioi i, u i j * (backward u c).get j) / u i i := by
  rw [backward_get_remainder, remainder, foldl_after_sub]

/-- With a diagonal free of zeros, the unknowns solve the system. -/
theorem backward_solves (hu : ∀ i, u i i ≠ 0) (i : Fin r) :
    ∑ j ∈ Finset.Ici i, u i j * (backward u c).get j = c i := by
  have hi : u i i * (backward u c).get i = c i - ∑ j ∈ Finset.Ioi i, u i j * (backward u c).get j := by
    rw [backward_get, mul_div_cancel₀ _ (hu i)]
  rw [← Finset.Ioi_insert, Finset.sum_insert (by simp), hi, sub_add_cancel]

end Backward

end NumericArrays.Mat
