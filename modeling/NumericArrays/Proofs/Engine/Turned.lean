import NumericArrays.Proofs.Engine.RealData
import NumericArrays.Proofs.Engine.Unary
import NumericArrays.Proofs.Mat.Transpose

/-! Transposes: the engine of this library exchanges rows and columns, and nothing else changes. -/
namespace NumericArrays

/-! ### Values with two axes -/

theorem Shape.extent_of_isUnit {s : Shape} (h : s.isUnit = true) (axis : Nat) : s.extent axis = 1 := by
  by_cases haxis : axis < s.length
  · exact beq_iff_eq.mp (List.all_eq_true.mp h _ (Shape.extent_mem haxis))
  · exact Shape.extent_of_length_le (Nat.not_lt.mp haxis)

namespace Value

variable {u v w : Value}

/-- The same form, kind and elements, in shapes that agree up to ones at the end. -/
structure Matches (v w : Value) : Prop where
  isNumber_eq : v.isNumber = w.isNumber
  toArray : v.toArray.Matches w.toArray

/-- A matrix whose elements are numbers of its kind. -/
structure Planar (v : Value) : Prop where
  wellFormed : v.WellFormed
  isMatrix : v.dims.isMatrix = true
  faithful : v.Faithful

namespace Planar

theorem of_real {m n : Nat} {real : Array Float} {kind : Storage} (hdims : ∀ d ∈ [m, n], d ≤ maxCount)
    (hcount : Shape.count? [m, n] = some real.size) (hnumbers : ∀ x ∈ real, kind.store x = x) :
    Planar (.array ⟨[m, n], real, none, kind⟩) where
  wellFormed := NDArray.wellFormed_exact le_rfl hdims hcount (fun _ h => by cases h) fun _ => rfl
  isMatrix := rfl
  faithful := NDArray.faithful_of_real hnumbers

theorem size_eq (hv : v.Planar) : v.size = v.rows * v.cols := by
  have hm : v.toArray.dims.isMatrix = true := v.dims_toArray.symm ▸ hv.isMatrix
  rw [← size_toArray, hv.wellFormed.toArray.size_of_isMatrix hm, rows_toArray, dims_toArray, cols]

theorem size_of_isUnit (hv : v.Planar) (h : v.dims.isUnit = true) : v.size = 1 := by
  rw [hv.size_eq, rows, cols, Shape.extent_of_isUnit h, Shape.extent_of_isUnit h]

/-- Two extents say everything about a shape. -/
theorem extent_eq (hv : v.Planar) (hw : w.Planar) (hrows : v.rows = w.rows) (hcols : v.cols = w.cols)
    (axis : Nat) : v.dims.extent axis = w.dims.extent axis := by
  match axis with
  | 0 => exact hrows
  | 1 => exact hcols
  | axis + 2 =>
    rw [Nat.add_comm, Shape.isMatrix_iff.mp hv.isMatrix, Shape.isMatrix_iff.mp hw.isMatrix]

end Planar

structure Turned (v w : Value) : Prop where
  left : v.Planar
  right : w.Planar
  isNumber_eq : w.isNumber = v.isNumber
  kind_eq : w.kind = v.kind
  isComplex_eq : w.isComplex = v.isComplex
  rows_eq : w.rows = v.cols
  cols_eq : w.cols = v.rows
  element_eq : ∀ i < v.rows, ∀ j < v.cols, w.element (j + i * v.cols) = v.element (i + j * v.rows)

namespace Turned

theorem symm (h : v.Turned w) : w.Turned v where
  left := h.right
  right := h.left
  isNumber_eq := h.isNumber_eq.symm
  kind_eq := h.kind_eq.symm
  isComplex_eq := h.isComplex_eq.symm
  rows_eq := h.cols_eq.symm
  cols_eq := h.rows_eq.symm
  element_eq i hi j hj := by
    rw [h.rows_eq] at hi
    rw [h.cols_eq] at hj
    rw [h.rows_eq, h.cols_eq]
    exact (h.element_eq j hj i hi).symm

theorem size_eq (h : v.Turned w) : w.size = v.size := by
  rw [h.right.size_eq, h.left.size_eq, h.rows_eq, h.cols_eq, Nat.mul_comm]

/-- A value has one transpose only. -/
theorem matches_of_turned (hv : u.Turned v) (hw : u.Turned w) : v.Matches w where
  isNumber_eq := hv.isNumber_eq.trans hw.isNumber_eq.symm
  toArray := by
    have hdims (axis : Nat) : v.toArray.dims.extent axis = w.toArray.dims.extent axis := by
      rw [dims_toArray, dims_toArray]
      exact hv.right.extent_eq hw.right (hv.rows_eq.trans hw.rows_eq.symm)
        (hv.cols_eq.trans hw.cols_eq.symm) axis
    have hkind : v.toArray.kind = w.toArray.kind := by
      rw [kind_toArray, kind_toArray, hv.kind_eq, hw.kind_eq]
    have hcomplex : v.toArray.isComplex = w.toArray.isComplex := by
      rw [isComplex_toArray, isComplex_toArray, hv.isComplex_eq, hw.isComplex_eq]
    refine NDArray.matches_of_cartesian hv.right.wellFormed.toArray hw.right.wellFormed.toArray hdims hkind
      hcomplex ?_
    intro p hp
    rw [size_toArray, hv.right.size_eq, hv.rows_eq, hv.cols_eq] at hp
    obtain ⟨j, i, rfl⟩ := Mat.exists_place hp
    rw [Nat.mul_comm]
    exact (hv.element_eq i i.isLt j j.isLt).trans (hw.element_eq i i.isLt j j.isLt).symm

end Turned
end Value

/-! ### Conversion of results -/

namespace NDArray

variable {a c : NDArray} {kind : Storage}

/-- A double array can be converted to any kind, to truth values if it is real and has no NaN. -/
theorem convert_of_double (h : a.kind = .double)
    (htruth : kind = .logical → a.imag = none ∧ ∀ p < a.size, (a.re p).isNaN = false) :
    a.convert kind = .ok (a.retag kind) := by
  unfold convert
  rw [h]
  cases kind with
  | double =>
    have hsame : a.retag .double = a := h ▸ (faithful_of_double h).retag_eq
    rw [if_pos rfl, hsame]
  | single => rfl
  | logical =>
    obtain ⟨hreal, hnumbers⟩ := htruth rfl
    have himag : a.hasZeroImag = true := hasZeroImag_iff.mpr fun p _ => by
      rw [im_of_real hreal]
      exact zero_beq_zero
    have hnan : a.reals.any (·.isNaN) = false := by
      rw [Bool.eq_false_iff, ne_eq, any_isNaN_reals_iff]
      rintro ⟨p, hp, hnan⟩
      rw [hnumbers p hp] at hnan
      cases hnan
    have hdrop : { a.retag .logical with imag := none } = a.retag .logical := by
      simp only [retag, hreal, Option.map_none]
    rw [if_neg (by decide), if_pos rfl, himag, hnan, hdrop]
    rfl

/-! ### Transposed arrays -/

structure Flipped (a c : NDArray) : Prop where
  wellFormed : c.WellFormed
  kind_eq : c.kind = .double
  dims_eq : c.dims = [a.cols, a.rows]
  isComplex_eq : c.isComplex = a.isComplex
  cartesian_eq : ∀ i < a.rows, ∀ j < a.cols, c.cartesian (j + i * a.cols) = a.cartesian (i + j * a.rows)

namespace Flipped

theorem rows_eq (h : a.Flipped c) : c.rows = a.cols := by
  rw [rows, h.dims_eq]
  rfl

theorem isMatrix (h : a.Flipped c) : c.dims.isMatrix = true := by
  rw [h.dims_eq]
  rfl

theorem cols_eq (h : a.Flipped c) : c.cols = a.rows := by
  rw [h.wellFormed.cols_eq h.isMatrix, h.dims_eq]
  rfl

theorem size_eq (h : a.Flipped c) (ha : a.WellFormed) (hm : a.dims.isMatrix = true) : c.size = a.size := by
  rw [h.wellFormed.size_of_isMatrix h.isMatrix, ha.size_of_isMatrix hm, ← h.wellFormed.cols_eq h.isMatrix,
    ← ha.cols_eq hm, h.rows_eq, h.cols_eq, Nat.mul_comm]

/-- Every element comes from somewhere. -/
theorem exists_cartesian (h : a.Flipped c) {p : Nat} (hp : p < c.size) :
    ∃ q, c.cartesian p = a.cartesian q := by
  rw [h.wellFormed.size_of_isMatrix h.isMatrix, ← h.wellFormed.cols_eq h.isMatrix, h.rows_eq, h.cols_eq] at hp
  obtain ⟨j, i, rfl⟩ := Mat.exists_place hp
  rw [Nat.mul_comm]
  exact ⟨_, h.cartesian_eq i i.isLt j j.isLt⟩

/-- The elements are numbers of the kind they have in the array. -/
theorem faithful (h : a.Flipped c) (hf : a.Faithful) : Faithful { c with kind := a.kind } := by
  intro p
  change stored a.kind (c.cartesian p) = c.cartesian p
  by_cases hp : p < c.size
  · obtain ⟨q, hq⟩ := h.exists_cartesian hp
    rw [hq]
    exact hf q
  · rw [h.wellFormed.cartesian_of_size_le (Nat.not_lt.mp hp), stored_zero]

theorem retag_eq (h : a.Flipped c) (hf : a.Faithful) : c.retag a.kind = { c with kind := a.kind } :=
  (h.faithful hf).retag_eq

theorem imag_of_real (h : a.Flipped c) (hreal : a.imag = none) : c.imag = none := by
  have hc := h.isComplex_eq
  rw [isComplex, isComplex, hreal] at hc
  simpa using hc

theorem convert (h : a.Flipped c) (ha : a.WellFormed) (hf : a.Faithful) :
    c.convert a.kind = .ok (c.retag a.kind) := by
  refine convert_of_double h.kind_eq fun hk => ⟨h.imag_of_real (ha.logical_real hk), fun p hp => ?_⟩
  have hbit : c.re p = 0 ∨ c.re p = 1 := (h.faithful hf).truthful hk p
  rcases hbit with hbit | hbit
  · rw [hbit]
    decide
  · rw [hbit]
    decide

end Flipped
end NDArray

namespace Dense

variable {a : NDArray}

/-- The transpose of a matrix, entry by entry. -/
theorem transpose_eq {K : Type} [ArrayElement K] [Arith K] (f : K → K) (h : a.dims.isMatrix = true) :
    transpose K f a = .ok (Mat.transposeWith f (Mat.ofArray a a.rows a.cols)).toArray := by
  unfold transpose
  rw [checkMatrix_of_isMatrix h]
  exact congrArg Except.ok (Mat.collect_eq _)

theorem entry_transposed {K : Type} [ArrayElement K] [Arith K] {m n i j : Nat} (hi : i < m) (hj : j < n) :
    (Mat.transposeWith id (Mat.ofArray a m n : Mat K m n)).entry ⟨j, hj⟩ ⟨i, hi⟩ =
      ArrayElement.read a (i + j * m) := by
  rw [Mat.entry_transposeWith _ _ ⟨i, hi⟩ ⟨j, hj⟩, Mat.ofArray, Mat.entry_ofFn, id_eq]

theorem flipped_real (ha : a.WellFormed) (hm : a.dims.isMatrix = true) (hreal : a.isComplex = false) :
    a.Flipped (Mat.transposeWith id (Mat.ofArray a a.rows a.cols : Mat Float a.rows a.cols)).toArray where
  wellFormed := transpose_wellFormed id ha (transpose_eq id hm)
  kind_eq := rfl
  dims_eq := rfl
  isComplex_eq := hreal.symm
  cartesian_eq i hi j hj := by
    rw [NDArray.cartesian_of_real rfl, NDArray.cartesian_of_real hreal, Nat.mul_comm i]
    have hentry := (Mat.re_toArray _ ⟨j, hj⟩ ⟨i, hi⟩).trans (entry_transposed (K := Float) (a := a) hi hj)
    exact Cartesian.ext hentry rfl

theorem flipped_complex (ha : a.WellFormed) (hm : a.dims.isMatrix = true) (hcomplex : a.isComplex = true) :
    a.Flipped
      (Mat.transposeWith id (Mat.ofArray a a.rows a.cols : Mat (Cartesian Float) a.rows a.cols)).toArray where
  wellFormed := transpose_wellFormed id ha (transpose_eq id hm)
  kind_eq := rfl
  dims_eq := rfl
  isComplex_eq := hcomplex.symm
  cartesian_eq i hi j hj := by
    rw [Nat.mul_comm i]
    exact (Mat.cartesian_toArray _ ⟨j, hj⟩ ⟨i, hi⟩).trans (entry_transposed hi hj)

end Dense

namespace Engine

variable {a : NDArray} {v : Value}

theorem ofKind_of_double {c : NDArray} {kind : Storage} (hc : c.kind = .double) (hkind : kind ≠ .logical) :
    (liftM (Value.ofKind kind c) : Logged Value) = pure (.array (c.retag kind)) :=
  congrArg (fun r => Logged.ofExcept (r.map Value.array))
    (NDArray.convert_of_double hc fun h => absurd h hkind)

/-- Every matrix has a transpose in double precision. -/
theorem exists_flipped (ha : a.WellFormed) (hm : a.dims.isMatrix = true) :
    ∃ c, dense.transpose (if a.isComplex then .complex else .real) a = pure c ∧ a.Flipped c := by
  cases hc : a.isComplex with
  | false =>
    exact ⟨_, congrArg Logged.ofExcept (Dense.transpose_eq (id : Float → Float) hm),
      Dense.flipped_real ha hm hc⟩
  | true =>
    exact ⟨_, congrArg Logged.ofExcept (Dense.transpose_eq (id : Cartesian Float → _) hm),
      Dense.flipped_complex ha hm hc⟩

/-- A single element is its own transpose. -/
theorem turned_of_isUnit (hv : v.Planar) (h : v.dims.isUnit = true) : v.Turned v := by
  have hrows : v.rows = 1 := Shape.extent_of_isUnit h 0
  have hcols : v.cols = 1 := Shape.extent_of_isUnit h 1
  refine ⟨hv, hv, rfl, rfl, rfl, hrows.trans hcols.symm, hcols.trans hrows.symm, fun i hi j hj => ?_⟩
  obtain rfl : i = 0 := by omega
  obtain rfl : j = 0 := by omega
  rw [Nat.zero_mul, Nat.zero_mul]

/-- Conversion to one kind, before and after the transpose. -/
theorem turned_of_flipped {c : NDArray} {kind : Storage} (ha : a.WellFormed) (hm : a.dims.isMatrix = true)
    (h : a.Flipped c) (hk : kind = .logical → a.imag = none) :
    Value.Turned (.array (a.retag kind)) (.array (c.retag kind)) where
  left := ⟨ha.retag hk, hm, NDArray.faithful_retag kind⟩
  right := ⟨h.wellFormed.retag fun hl => h.imag_of_real (hk hl), h.isMatrix, NDArray.faithful_retag kind⟩
  isNumber_eq := rfl
  kind_eq := rfl
  isComplex_eq := by
    change (c.retag kind).isComplex = (a.retag kind).isComplex
    rw [NDArray.isComplex_retag, NDArray.isComplex_retag, h.isComplex_eq]
  rows_eq := h.rows_eq.trans (ha.cols_eq hm)
  cols_eq := (h.wellFormed.cols_eq h.isMatrix).symm.trans h.cols_eq
  element_eq i hi j hj := by
    have hcols : a.dims.extent 1 = a.cols := (ha.cols_eq hm).symm
    have hcell : c.cartesian (j + i * a.cols) = a.cartesian (i + j * a.rows) :=
      h.cartesian_eq i hi j (hcols ▸ hj)
    change (c.retag kind).cartesian (j + i * a.dims.extent 1) = (a.retag kind).cartesian (i + j * a.rows)
    rw [hcols, NDArray.cartesian_retag, NDArray.cartesian_retag, hcell]

/-- The transpose of an array of more than one element, and the way to it. -/
theorem transposed_array (ha : Value.Planar (.array a)) (hunit : ¬ (Value.array a).dims.isUnit = true) :
    ∃ c, dense.transpose (if a.isComplex then .complex else .real) a = pure c ∧ a.Flipped c ∧
      dense.transposed (.array a) = pure (.array (c.retag a.kind)) := by
  obtain ⟨c, hc, h⟩ := exists_flipped ha.wellFormed ha.isMatrix
  refine ⟨c, hc, h, ?_⟩
  have hkind : Value.ofKind a.kind c = .ok (.array (c.retag a.kind)) :=
    congrArg (·.map Value.array) (h.convert ha.wellFormed ha.faithful)
  unfold transposed
  rw [if_neg hunit]
  change dense.transpose (if a.isComplex then .complex else .real) a >>= _ = _
  rw [hc]
  exact congrArg Logged.ofExcept hkind

/-- Every matrix has a transpose, and there is nothing to report about it. -/
theorem exists_turned (hv : v.Planar) : ∃ w, dense.transposed v = pure w ∧ v.Turned w := by
  by_cases hunit : v.dims.isUnit = true
  · exact ⟨v, transposed_of_isUnit hunit, turned_of_isUnit hv hunit⟩
  · cases v with
    | number x => exact absurd rfl hunit
    | array a =>
      obtain ⟨c, -, h, htransposed⟩ := transposed_array hv hunit
      have hself : a.retag a.kind = a := NDArray.Faithful.retag_eq hv.faithful
      have hturned := turned_of_flipped hv.wellFormed hv.isMatrix h hv.wellFormed.logical_real
      rw [hself] at hturned
      exact ⟨_, htransposed, hturned⟩

end Engine
end NumericArrays
