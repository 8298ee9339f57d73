import NumericArrays.Proofs.Engine.Turned

/-! Operators that work element by element commute with the transpose. -/
namespace NumericArrays

open Value (Turned)

/-! ### Elements of transposes -/

namespace Value

variable {u v w : Value} {i j : Nat}

namespace Turned

/-- Every element of a transpose is one of the matrix. -/
theorem exists_element (h : v.Turned w) {p : Nat} (hp : p < w.size) :
    ∃ q < v.size, w.element p = v.element q := by
  rw [h.right.size_eq, h.rows_eq, h.cols_eq] at hp
  obtain ⟨j, i, rfl⟩ := Mat.exists_place hp
  refine ⟨i + j * v.rows, ?_, ?_⟩
  · rw [h.left.size_eq]
    exact Mat.place_lt i j
  · rw [Nat.mul_comm v.cols]
    exact h.element_eq i i.isLt j j.isLt

/-- What an operand contributes to a matrix `u` at some row and column: its own element there, or the only
    one it has. -/
theorem operand_eq (h : v.Turned w) (hfits : v.size = 1 ∨ v.rows = u.rows ∧ v.cols = u.cols)
    (hi : i < u.rows) (hj : j < u.cols) :
    w.operand (j + i * u.cols) = v.operand (i + j * u.rows) := by
  unfold operand
  rw [h.size_eq]
  by_cases hone : v.size = 1
  · rw [if_pos hone, if_pos hone]
    have hproduct : v.rows * v.cols = 1 := h.left.size_eq.symm.trans hone
    have hrows : v.rows = 1 := Nat.eq_one_of_mul_eq_one_right hproduct
    have hcols : v.cols = 1 := Nat.eq_one_of_mul_eq_one_left hproduct
    simpa using h.element_eq 0 (by omega) 0 (by omega)
  · obtain ⟨hrows, hcols⟩ := hfits.resolve_left hone
    rw [if_neg hone, if_neg hone, ← hrows, ← hcols]
    exact h.element_eq i (hrows ▸ hi) j (hcols ▸ hj)

/-- The check for truth values looks at elements only, wherever they are. -/
theorem checkTruth_eq (h : v.Turned w) : w.toArray.checkTruth = v.toArray.checkTruth := by
  have hzero {v w : Value} (h : v.Turned w) (hv : v.toArray.hasZeroImag = true) :
      w.toArray.hasZeroImag = true := by
    rw [NDArray.hasZeroImag_iff] at hv ⊢
    intro p hp
    rw [size_toArray] at hp
    obtain ⟨q, hq, helement⟩ := h.exists_element hp
    have him : w.toArray.im p = v.toArray.im q := congrArg Cartesian.im helement
    rw [him]
    exact hv q (v.size_toArray.symm ▸ hq)
  have hnan {v w : Value} (h : v.Turned w) (hw : w.toArray.reals.any (·.isNaN) = true) :
      v.toArray.reals.any (·.isNaN) = true := by
    rw [NDArray.any_isNaN_reals_iff] at hw ⊢
    obtain ⟨p, hp, hpnan⟩ := hw
    rw [size_toArray] at hp
    obtain ⟨q, hq, helement⟩ := h.exists_element hp
    have hre : w.toArray.re p = v.toArray.re q := congrArg Cartesian.re helement
    exact ⟨q, v.size_toArray.symm ▸ hq, hre ▸ hpnan⟩
  have hzero_eq : w.toArray.hasZeroImag = v.toArray.hasZeroImag :=
    Bool.eq_iff_iff.mpr ⟨hzero h.symm, hzero h⟩
  have hnan_eq : w.toArray.reals.any (·.isNaN) = v.toArray.reals.any (·.isNaN) :=
    Bool.eq_iff_iff.mpr ⟨hnan h, hnan h.symm⟩
  rw [NDArray.checkTruth, NDArray.checkTruth, hzero_eq, hnan_eq]

end Turned

theorem Planar.same_iff (hv : v.Planar) (hw : w.Planar) :
    v.dims.same w.dims = true ↔ v.rows = w.rows ∧ v.cols = w.cols := by
  rw [Shape.same_iff]
  exact ⟨fun h => ⟨h 0, h 1⟩, fun h => hv.extent_eq hw h.1 h.2⟩

end Value

/-! ### Pairs of operands -/

namespace Elementwise

variable {a b x y r s : Value} {i j : Nat}

/-- The operand that gives the result its shape. -/
def outline (a b : Value) : Value := if a.size = 1 then b else a

theorem resultDims_eq (a b : Value) : resultDims a b = (outline a b).dims := by
  unfold resultDims outline
  split <;> rfl

theorem turned_outline (ha : a.Turned x) (hb : b.Turned y) : (outline a b).Turned (outline x y) := by
  unfold outline
  rw [ha.size_eq]
  split
  · exact hb
  · exact ha

theorem conforming_iff (ha : a.Turned x) (hb : b.Turned y) : Conforming x y ↔ Conforming a b := by
  unfold Conforming
  rw [ha.size_eq, hb.size_eq, ha.right.same_iff hb.right, ha.left.same_iff hb.left, ha.rows_eq, ha.cols_eq,
    hb.rows_eq, hb.cols_eq, and_comm (a := a.cols = b.cols)]

/-- Transposed operands contribute to a transposed place what they contribute to the place itself. -/
theorem operands_eq (ha : a.Turned x) (hb : b.Turned y) (h : Conforming a b)
    (hi : i < (outline a b).rows) (hj : j < (outline a b).cols) :
    x.operand (j + i * (outline a b).cols) = a.operand (i + j * (outline a b).rows) ∧
      y.operand (j + i * (outline a b).cols) = b.operand (i + j * (outline a b).rows) := by
  have hfits : (a.size = 1 ∨ a.rows = (outline a b).rows ∧ a.cols = (outline a b).cols) ∧
      (b.size = 1 ∨ b.rows = (outline a b).rows ∧ b.cols = (outline a b).cols) := by
    unfold outline
    by_cases hone : a.size = 1
    · rw [if_pos hone]
      exact ⟨.inl hone, .inr ⟨rfl, rfl⟩⟩
    · rw [if_neg hone]
      refine ⟨.inr ⟨rfl, rfl⟩, (h.resolve_left hone).imp_right fun hsame => ?_⟩
      obtain ⟨hrows, hcols⟩ := (ha.left.same_iff hb.left).mp hsame
      exact ⟨hrows.symm, hcols.symm⟩
  exact ⟨ha.operand_eq hfits.1 hi hj, hb.operand_eq hfits.2 hi hj⟩

theorem isMatrix_congr {s t : Shape} (h : s.same t = true) (ht : t.isMatrix = true) : s.isMatrix = true := by
  rw [Shape.isMatrix_iff] at ht ⊢
  intro axis
  rw [Shape.same_iff.mp h, ht]

/-- Results whose elements correspond are each other's transposes. -/
theorem turned_of_elements (ha : a.Turned x) (hb : b.Turned y) (hr : r.WellFormed ∧ r.Faithful)
    (hs : s.WellFormed ∧ s.Faithful) (hrd : r.dims.same (resultDims a b) = true)
    (hsd : s.dims.same (resultDims x y) = true) (hnumber : s.isNumber = r.isNumber) (hkind : s.kind = r.kind)
    (hcomplex : s.isComplex = r.isComplex)
    (helement : ∀ i < (outline a b).rows, ∀ j < (outline a b).cols,
      s.element (j + i * (outline a b).cols) = r.element (i + j * (outline a b).rows)) : r.Turned s := by
  have hout := turned_outline ha hb
  rw [resultDims_eq] at hrd hsd
  have hrows : r.rows = (outline a b).rows := Shape.same_iff.mp hrd 0
  have hcols : r.cols = (outline a b).cols := Shape.same_iff.mp hrd 1
  refine ⟨⟨hr.1, isMatrix_congr hrd hout.left.isMatrix, hr.2⟩,
    ⟨hs.1, isMatrix_congr hsd hout.right.isMatrix, hs.2⟩, hnumber, hkind, hcomplex, ?_, ?_, ?_⟩
  · exact (Shape.same_iff.mp hsd 0).trans (hout.rows_eq.trans hcols.symm)
  · exact (Shape.same_iff.mp hsd 1).trans (hout.cols_eq.trans hrows.symm)
  · rw [hrows, hcols]
    exact helement

theorem count_resultDims_eq (ha : a.Turned x) (hb : b.Turned y) :
    (resultDims a b).count = (outline a b).rows * (outline a b).cols := by
  rw [resultDims_eq, ← Value.dims_toArray, ← (turned_outline ha hb).left.size_eq, ← Value.size_toArray]
  rfl

/-- The places at some row and column are there in the results. -/
theorem places_lt (ha : a.Turned x) (hb : b.Turned y) (hi : i < (outline a b).rows)
    (hj : j < (outline a b).cols) :
    i + j * (outline a b).rows < (resultDims a b).count ∧
      j + i * (outline a b).cols < (resultDims x y).count := by
  have hout := turned_outline ha hb
  rw [count_resultDims_eq ha hb, count_resultDims_eq ha.symm hb.symm, hout.rows_eq, hout.cols_eq]
  exact ⟨Mat.place_lt ⟨i, hi⟩ ⟨j, hj⟩, Mat.place_lt ⟨j, hj⟩ ⟨i, hi⟩⟩

end Elementwise

open Elementwise

/-! ### Arithmetic -/

namespace Arithmetic

variable {op : Arithmetic} {a b x y r s : Value}

theorem RunsComplex.turned (ha : a.Turned x) (hb : b.Turned y) (hfit : Conforming a b)
    (h : op.RunsComplex a b) : op.RunsComplex x y := by
  rcases h with hc | hc | ⟨p, hp, hleaves⟩
  · exact .inl (ha.isComplex_eq.trans hc)
  · exact .inr (.inl (hb.isComplex_eq.trans hc))
  · right
    right
    rw [count_resultDims_eq ha hb] at hp
    obtain ⟨i, j, rfl⟩ := Mat.exists_place hp
    obtain ⟨hx, hy⟩ := operands_eq ha hb hfit i.isLt j.isLt
    refine ⟨j + i * (outline a b).cols, (places_lt ha hb i.isLt j.isLt).2, ?_⟩
    rw [hx, hy, Nat.mul_comm j]
    exact hleaves

theorem runsComplex_iff (ha : a.Turned x) (hb : b.Turned y) (hfit : Conforming a b) :
    op.RunsComplex x y ↔ op.RunsComplex a b :=
  ⟨.turned ha.symm hb.symm ((conforming_iff ha hb).mpr hfit), .turned ha hb hfit⟩

theorem turned_of_follows (ha : a.Turned x) (hb : b.Turned y) (hfit : Conforming a b)
    (hr : op.apply a b = .ok r) (hs : op.apply x y = .ok s) (hra : op.Follows a b r)
    (hsa : op.Follows x y s) : r.Turned s := by
  have hruns : op.RunsComplex x y ↔ op.RunsComplex a b := runsComplex_iff ha hb hfit
  have hkind : x.kind.arithmetic y.kind = a.kind.arithmetic b.kind := by rw [ha.kind_eq, hb.kind_eq]
  refine turned_of_elements ha hb
    ⟨apply_wellFormed ha.left.wellFormed hb.left.wellFormed r hr, Value.arithmetic_faithful hr⟩
    ⟨apply_wellFormed ha.right.wellFormed hb.right.wellFormed s hs, Value.arithmetic_faithful hs⟩
    hra.dims_same hsa.dims_same ?_ ?_ ?_ ?_
  · rw [Bool.eq_iff_iff, hra.isNumber_iff, hsa.isNumber_iff, ha.size_eq, hb.size_eq, hkind]
  · rw [hra.kind_eq, hsa.kind_eq, hkind]
  · rw [Bool.eq_iff_iff, hra.isComplex_iff, hsa.isComplex_iff, hruns]
  · intro i hi j hj
    obtain ⟨hp, hq⟩ := places_lt ha hb hi hj
    rw [← hra.size_eq] at hp
    rw [← hsa.size_eq] at hq
    obtain ⟨hx, hy⟩ := operands_eq ha hb hfit hi hj
    by_cases hcomplex : op.RunsComplex a b
    · rw [hra.element_complex hcomplex _ hp, hsa.element_complex (hruns.mpr hcomplex) _ hq, hkind, hx, hy]
    · rw [hra.element_real hcomplex _ hp, hsa.element_real (mt hruns.mp hcomplex) _ hq, hkind, hx, hy]

end Arithmetic

/-! ### Comparison and logic -/

namespace Elementwise

variable {a b x y : Value} {f g : Nat → Bool} {i : Nat}

structure LogicalAnswer (a b : Value) (f : Nat → Bool) (r : Value) : Prop where
  isNumber_iff : r.isNumber = true ↔ a.size = 1 ∧ b.size = 1
  kind_eq : r.kind = .logical
  isComplex_eq : r.isComplex = false
  dims_same : r.dims.same (resultDims a b) = true
  element_eq : ∀ i < (resultDims a b).count, r.element i = ⟨ofBool (f i), 0⟩

theorem logicalAnswer (a b : Value) (f : Nat → Bool) :
    LogicalAnswer a b f (logicalResult a.toArray b.toArray (resultDims a b) f) := by
  unfold logicalResult
  split
  · rename_i hboth
    obtain ⟨ha, hb⟩ := (bothScalar_toArray a b).mp hboth
    refine ⟨⟨fun _ => ⟨ha, hb⟩, fun _ => rfl⟩, rfl, rfl, same_resultDims ha hb, fun i hi => ?_⟩
    obtain rfl : i = 0 := by rw [count_resultDims ha hb] at hi; omega
    exact Value.element_number _
  · rename_i hboth
    refine ⟨⟨fun h => (by cases h), fun h => absurd ((bothScalar_toArray a b).mpr h) hboth⟩, rfl, rfl,
      Shape.same_iff.mpr fun _ => rfl, fun i hi => NDArray.cartesian_ofFn_real (fun i => ofBool (f i)) hi⟩

theorem turned_logicalResult (ha : a.Turned x) (hb : b.Turned y) (hfit : Conforming a b)
    (hfg : ∀ i < (outline a b).rows, ∀ j < (outline a b).cols,
      g (j + i * (outline a b).cols) = f (i + j * (outline a b).rows)) :
    (logicalResult a.toArray b.toArray (resultDims a b) f).Turned
      (logicalResult x.toArray y.toArray (resultDims x y) g) := by
  have hr := logicalAnswer a b f
  have hs := logicalAnswer x y g
  have hbroadcast : broadcast a.toArray b.toArray = .ok (resultDims a b) := by
    rw [broadcast_toArray, if_pos hfit]
  have hbroadcast' : broadcast x.toArray y.toArray = .ok (resultDims x y) := by
    rw [broadcast_toArray, if_pos ((conforming_iff ha hb).mpr hfit)]
  refine turned_of_elements ha hb
    ⟨logicalResult_wellFormed ha.left.wellFormed.toArray hb.left.wellFormed.toArray hbroadcast f,
      Value.logicalResult_faithful f⟩
    ⟨logicalResult_wellFormed ha.right.wellFormed.toArray hb.right.wellFormed.toArray hbroadcast' g,
      Value.logicalResult_faithful g⟩ hr.dims_same hs.dims_same ?_ ?_ ?_ ?_
  · rw [Bool.eq_iff_iff, hr.isNumber_iff, hs.isNumber_iff, ha.size_eq, hb.size_eq]
  · rw [hr.kind_eq, hs.kind_eq]
  · rw [hr.isComplex_eq, hs.isComplex_eq]
  · intro i hi j hj
    obtain ⟨hp, hq⟩ := places_lt ha hb hi hj
    rw [hr.element_eq _ hp, hs.element_eq _ hq, hfg i hi j hj]

/-- The second outcome is the transpose of the first: a fault of the same sort, or the same value but for
    ones at the end of its shape. -/
inductive Transposes : Except Fault Value → Except Fault Value → Prop
  | fault {e f : Fault} (h : f.SameSort e) : Transposes (.error e) (.error f)
  | value {r s t : Value} (ht : Engine.dense.transposed r = pure t) (h : s.Matches t) :
    Transposes (.ok r) (.ok s)

theorem Transposes.of_turned {r s : Value} (h : r.Turned s) : Transposes (.ok r) (.ok s) := by
  obtain ⟨t, ht, hturned⟩ := Engine.exists_turned h.left
  exact .value ht (h.matches_of_turned hturned)

theorem Transposes.exists_of_ok {r : Value} {outcome : Except Fault Value} (h : Transposes (.ok r) outcome) :
    ∃ s t, outcome = .ok s ∧ Engine.dense.transposed r = pure t ∧ s.Matches t := by
  cases h with
  | value ht h => exact ⟨_, _, rfl, ht, h⟩

theorem Transposes.pairwise (ha : a.Turned x) (hb : b.Turned y)
    (test : Cartesian Float → Cartesian Float → Bool) :
    Transposes (pairwise a.toArray b.toArray fun i => test (a.operand i) (b.operand i))
      (pairwise x.toArray y.toArray fun i => test (x.operand i) (y.operand i)) := by
  unfold Elementwise.pairwise
  rw [broadcast_toArray, broadcast_toArray]
  by_cases hfit : Conforming a b
  · rw [if_pos hfit, if_pos ((conforming_iff ha hb).mpr hfit)]
    refine .of_turned (turned_logicalResult ha hb hfit fun i hi j hj => ?_)
    obtain ⟨hx, hy⟩ := operands_eq ha hb hfit hi hj
    rw [hx, hy]
  · rw [if_neg hfit, if_neg (mt (conforming_iff ha hb).mp hfit)]
    exact .fault rfl

end Elementwise

theorem Arithmetic.transposes (op : Arithmetic) {a b x y : Value} (ha : a.Turned x) (hb : b.Turned y) :
    Transposes (op.apply a b) (op.apply x y) := by
  by_cases hfit : Conforming a b
  · obtain ⟨r, hr, hra⟩ := op.exists_follows hfit
    obtain ⟨s, hs, hsa⟩ := op.exists_follows ((conforming_iff ha hb).mpr hfit)
    rw [hr, hs]
    exact .of_turned (turned_of_follows ha hb hfit hr hs hra hsa)
  · rw [op.apply_of_not_conforming hfit, op.apply_of_not_conforming (mt (conforming_iff ha hb).mp hfit)]
    exact .fault rfl

theorem Comparison.transposes (op : Comparison) {a b x y : Value} (ha : a.Turned x) (hb : b.Turned y) :
    Transposes (op.apply a b) (op.apply x y) := by
  have hpairs (v w : Value) : op.apply v w =
      pairwise v.toArray w.toArray fun i => op.complex (v.operand i) (w.operand i) := by
    simp only [op.apply_eq, funext (op.element_eq_complex _ _), Value.operand_eq]
  rw [hpairs, hpairs]
  exact .pairwise ha hb op.complex

theorem Connective.transposes (op : Connective) {a b x y : Value} (ha : a.Turned x) (hb : b.Turned y) :
    Transposes (op.apply a b) (op.apply x y) := by
  have hpairs (v w : Value) : op.onArrays v.toArray w.toArray =
      pairwise v.toArray w.toArray fun i => op.holds ((v.operand i).re != 0) ((w.operand i).re != 0) := by
    simp only [← Value.operand_eq]
    rfl
  rw [op.apply_eq, op.apply_eq, ha.checkTruth_eq, hb.checkTruth_eq, hpairs, hpairs]
  cases a.toArray.checkTruth with
  | error e => exact .fault rfl
  | ok _ =>
    cases b.toArray.checkTruth with
    | error e => exact .fault rfl
    | ok _ => exact .pairwise ha hb fun z w => op.holds (z.re != 0) (w.re != 0)

/-! ### All operators -/

inductive Binary where
  | arithmetic (op : Arithmetic)
  | comparison (op : Comparison)
  | connective (op : Connective)
deriving DecidableEq, Repr

namespace Binary

def apply : Binary → Value → Value → Except Fault Value
  | arithmetic op, a, b => op.apply a b
  | comparison op, a, b => op.apply a b
  | connective op, a, b => op.apply a b

/-- Operators with two operands commute with the transpose of matrices whose elements are numbers of their
    kinds: both ways there is a fault of the same sort, or the same value. -/
theorem apply_transposed (op : Binary) {a b : Value} (ha : a.Planar) (hb : b.Planar) :
    ∃ x y, Engine.dense.transposed a = pure x ∧ Engine.dense.transposed b = pure y ∧
      Transposes (op.apply a b) (op.apply x y) := by
  obtain ⟨x, hx, hax⟩ := Engine.exists_turned ha
  obtain ⟨y, hy, hby⟩ := Engine.exists_turned hb
  refine ⟨x, y, hx, hy, ?_⟩
  cases op with
  | arithmetic op => exact op.transposes hax hby
  | comparison op => exact op.transposes hax hby
  | connective op => exact op.transposes hax hby

def bits : Value := .array ⟨[1, 2], #[1, 0], none, .logical⟩

def halves : Value := .array ⟨[1, 2], #[2, 0.5], none, .single⟩

theorem bits_planar : bits.Planar := .of_real (by decide) (by decide) (by decide +kernel)

theorem halves_planar : halves.Planar := .of_real (by decide) (by decide) (by decide +kernel)

/-- Rows are subtracted, and columns. -/
theorem apply_transposed_rows : bits.Planar ∧ halves.Planar ∧
    ∃ x y s t, Engine.dense.transposed bits = pure x ∧ Engine.dense.transposed halves = pure y ∧
      (arithmetic .sub).apply x y = .ok s ∧
      Engine.dense.transposed (.array ⟨[1, 2], #[-1, -0.5], none, .single⟩) = pure t ∧ s.Matches t := by
  obtain ⟨x, y, hx, hy, h⟩ := apply_transposed (arithmetic .sub) bits_planar halves_planar
  have hrow : (arithmetic .sub).apply bits halves = .ok (.array ⟨[1, 2], #[-1, -0.5], none, .single⟩) := by
    decide +kernel
  rw [hrow] at h
  obtain ⟨s, t, hs, ht, hst⟩ := h.exists_of_ok
  exact ⟨bits_planar, halves_planar, x, y, s, t, hx, hy, hs, ht, hst⟩

end Binary
end NumericArrays
