import NumericArrays.Proofs.Engine.Turned

/-! The product of two matrices: every entry is the product of a row and a column, added up from the first
    pair on. -/
namespace NumericArrays

namespace NDArray

variable {a b c : NDArray}

structure Composable (a b : NDArray) : Prop where
  left : a.WellFormed
  right : b.WellFormed
  left_isMatrix : a.dims.isMatrix = true
  right_isMatrix : b.dims.isMatrix = true
  cols_eq : a.cols = b.rows
  fits : a.rows * b.cols ≤ maxCount

/-- The product of two matrices with its entries rounded to a kind. -/
structure Multiplied (scalars : Coefficients) (kind : Storage) (a b c : NDArray) : Prop where
  wellFormed : c.WellFormed
  dims_eq : c.dims = [a.rows, b.cols]
  kind_eq : c.kind = kind
  isComplex_iff : c.isComplex = true ↔ scalars = .complex
  re_eq : scalars = .real → ∀ i < a.rows, ∀ j < b.cols, c.re (i + j * a.rows) =
    kind.store (dot a.cols (fun k => a.re (i + k * a.rows)) fun k => b.re (k + j * b.rows))
  cartesian_eq : scalars = .complex → ∀ i < a.rows, ∀ j < b.cols, c.cartesian (i + j * a.rows) =
    stored kind (dot a.cols (fun k => a.cartesian (i + k * a.rows)) fun k => b.cartesian (k + j * b.rows))

/-- Double numbers are rounded to no other kind before. -/
theorem Multiplied.retag {scalars : Coefficients} (h : Multiplied scalars .double a b c) {kind : Storage}
    (hkind : kind ≠ .logical) : Multiplied scalars kind a b (c.retag kind) where
  wellFormed := h.wellFormed.retag fun hl => absurd hl hkind
  dims_eq := h.dims_eq
  kind_eq := rfl
  isComplex_iff := by
    rw [isComplex_retag]
    exact h.isComplex_iff
  re_eq hs i hi j hj := by
    rw [re_retag, h.re_eq hs i hi j hj]
    rfl
  cartesian_eq hs i hi j hj := by
    rw [cartesian_retag, h.cartesian_eq hs i hi j hj]
    rfl

end NDArray

namespace Dense

open NDArray (Composable Multiplied)

variable {a b : NDArray}

def multiply (K : Type) [ArrayElement K] [Arith K] (a b : NDArray) : Mat K a.rows b.cols :=
  (Mat.ofArray a a.rows a.cols).product (Mat.ofArray b a.cols b.cols)

theorem product_eq (K : Type) [ArrayElement K] [Arith K] (h : a.Composable b) :
    product K a b = .ok (multiply K a b).toArray := by
  unfold product
  rw [checkMatrix_of_isMatrix h.left_isMatrix, checkMatrix_of_isMatrix h.right_isMatrix]
  change (if a.cols = b.rows then result K fun _ => multiply K a b else .error _) = _
  rw [if_pos h.cols_eq, result_eq, if_pos h.fits]

theorem entry_multiply {K : Type} [ArrayElement K] [Arith K] (h : a.Composable b) {i j : Nat}
    (hi : i < a.rows) (hj : j < b.cols) :
    (multiply K a b).entry ⟨i, hi⟩ ⟨j, hj⟩ =
      dot a.cols (fun k => ArrayElement.read a (i + k * a.rows))
        fun k => ArrayElement.read b (k + j * b.rows) := by
  rw [multiply, Mat.entry_product, ← Mat.foldl_finRange_eq_dot]
  simp only [Mat.ofArray, Mat.entry_ofFn, h.cols_eq]

theorem multiply_wellFormed (K : Type) [ArrayElement K] [LawfulArrayElement K] [Arith K]
    (h : a.Composable b) : (multiply K a b).toArray.WellFormed :=
  product_wellFormed h.left h.right (product_eq K h)

theorem multiplied_real (h : a.Composable b) :
    Multiplied .real .double a b (multiply Float a b).toArray where
  wellFormed := multiply_wellFormed Float h
  dims_eq := rfl
  kind_eq := rfl
  isComplex_iff := iff_of_false Bool.false_ne_true (by decide)
  re_eq _ i hi j hj := by
    rw [Nat.mul_comm j]
    exact (Mat.re_toArray _ ⟨i, hi⟩ ⟨j, hj⟩).trans (entry_multiply h hi hj)
  cartesian_eq hs := by cases hs

theorem multiplied_complex (h : a.Composable b) :
    Multiplied .complex .double a b (multiply (Cartesian Float) a b).toArray where
  wellFormed := multiply_wellFormed (Cartesian Float) h
  dims_eq := rfl
  kind_eq := rfl
  isComplex_iff := iff_of_true rfl rfl
  re_eq hs := by cases hs
  cartesian_eq _ i hi j hj := by
    rw [Nat.mul_comm j]
    exact (Mat.cartesian_toArray _ ⟨i, hi⟩ ⟨j, hj⟩).trans (entry_multiply h hi hj)

end Dense

namespace Engine

open NDArray (Multiplied)

variable {a b : NDArray} {v w : Value}

/-- Every two matrices that go together have a product in double precision. -/
theorem exists_product (scalars : Coefficients) (h : a.Composable b) :
    ∃ c, dense.product scalars a b = pure c ∧ Multiplied scalars .double a b c := by
  cases scalars with
  | real => exact ⟨_, congrArg Logged.ofExcept (Dense.product_eq Float h), Dense.multiplied_real h⟩
  | complex =>
    exact ⟨_, congrArg Logged.ofExcept (Dense.product_eq (Cartesian Float) h), Dense.multiplied_complex h⟩

/-- Matrices of every size are multiplied by adding up, for each entry, the products of a row and a column
    from the first one on; those of values are rounded to the kind of an arithmetic result only then. -/
theorem product_eq_dot (h : v.toArray.Composable w.toArray) :
    (∀ scalars, ∃ c, dense.product scalars v.toArray w.toArray = pure c ∧
      Multiplied scalars .double v.toArray w.toArray c) ∧
    (v.size ≠ 1 → w.size ≠ 1 → ∃ c, dense.mul v w = pure (.array c) ∧
      Multiplied (v.coefficients w) (v.kind.arithmetic w.kind) v.toArray w.toArray c) := by
  refine ⟨fun scalars => exists_product scalars h, fun hv hw => ?_⟩
  obtain ⟨c, hc, hproduct⟩ := exists_product (v.coefficients w) h
  have hkind : v.kind.arithmetic w.kind ≠ .logical := Storage.arithmetic_ne_logical _ _
  refine ⟨_, ?_, hproduct.retag hkind⟩
  unfold mul
  rw [if_neg (mt Value.isScalar_or_iff.mp (not_or_intro hv hw)), hc]
  exact ofKind_of_double hproduct.kind_eq hkind

/-- A row whose first number has no 32-bit neighbour at distance 1. -/
def wideRow : NDArray := ⟨[1, 3], #[16777216, 1, 1], none, .single⟩

def onesColumn : NDArray := ⟨[3, 1], #[1, 1, 1], none, .single⟩

theorem wideRow_composable : wideRow.Composable onesColumn where
  left :=
    NDArray.wellFormed_exact (by decide) (by decide) (by decide) (fun _ h => by cases h) fun h => by cases h
  right :=
    NDArray.wellFormed_exact (by decide) (by decide) (by decide) (fun _ h => by cases h) fun h => by cases h
  left_isMatrix := by decide
  right_isMatrix := by decide
  cols_eq := by decide
  fits := by decide

/-- The sum is rounded to 32 bits at its end only: otherwise the ones would be lost. -/
theorem product_eq_dot_wideRow : wideRow.Composable onesColumn ∧ wideRow.size ≠ 1 ∧ onesColumn.size ≠ 1 ∧
    ∃ c, dense.mul (.array wideRow) (.array onesColumn) = pure (.array c) ∧
      Multiplied .real .single wideRow onesColumn c ∧ c.re 0 = 16777218 := by
  have hsizes : wideRow.size ≠ 1 ∧ onesColumn.size ≠ 1 := by decide
  obtain ⟨-, hmul⟩ := product_eq_dot (v := .array wideRow) (w := .array onesColumn) wideRow_composable
  obtain ⟨c, hc, hproduct⟩ := hmul hsizes.1 hsizes.2
  refine ⟨wideRow_composable, hsizes.1, hsizes.2, c, hc, hproduct, ?_⟩
  have hentry := hproduct.re_eq rfl 0 (by decide) 0 (by decide)
  rw [show c.re 0 = _ from hentry]
  decide +kernel

end Engine
end NumericArrays
