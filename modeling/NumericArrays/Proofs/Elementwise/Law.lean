import NumericArrays.Proofs.Elementwise.Operators

/-! Arithmetic follows one law, element by element, on single numbers, on arrays and on both. -/
namespace NumericArrays

/-! ### Values as operands -/

namespace Value

variable {v : Value}

/-- The element at a position in storage; a real one has the imaginary part zero. -/
def element (v : Value) (i : Nat) : Cartesian Float := v.toArray.cartesian i

/-- The element that an operand contributes at position `i` of a result. A single element serves for
    all positions. -/
def operand (v : Value) (i : Nat) : Cartesian Float := v.element (if v.size = 1 then 0 else i)

def isNumber : Value → Bool
  | number _ => true
  | array _ => false

theorem element_number (x : Number) : (number x).element 0 = x.toCartesian := by
  cases x <;> rfl

theorem operand_of_real (h : v.isComplex = false) (i : Nat) : v.operand i = ⟨(v.operand i).re, 0⟩ :=
  NDArray.cartesian_of_real (v.isComplex_toArray.trans h) _

theorem operand_eq (v : Value) (i : Nat) :
    v.toArray.cartesian (Elementwise.source v.toArray i) = v.operand i := by
  simp only [Elementwise.source, NDArray.isScalar, size_toArray, beq_iff_eq]
  rfl

end Value

namespace NDArray

variable {dims : Shape} {kind : Storage} {i n : Nat}

theorem cartesian_ofFn_real (f : Nat → Float) (hi : i < n) :
    cartesian ⟨dims, .ofFn fun i : Fin n => f i, none, kind⟩ i = ⟨f i, 0⟩ := by
  refine Cartesian.ext ?_ rfl
  exact getD_ofFn.trans (if_pos hi)

theorem cartesian_ofFn_complex (f : Nat → Cartesian Float) (hi : i < n) :
    cartesian ⟨dims, (Array.ofFn fun i : Fin n => f i).map (·.re),
      some ((Array.ofFn fun i : Fin n => f i).map (·.im)), kind⟩ i = f i := by
  refine Cartesian.ext ?_ ?_
  · show ((Array.ofFn fun i : Fin n => f i).map (·.re)).getD i 0 = _
    simp [hi]
  · show ((Array.ofFn fun i : Fin n => f i).map (·.im)).getD i 0 = _
    simp [hi]

end NDArray

/-! ### Shapes of results -/

namespace Elementwise

variable {a b : Value}

/-- The shapes of two operands fit: one of them has a single element, or they agree up to ones at the
    end. -/
def Conforming (a b : Value) : Prop := a.size = 1 ∨ b.size = 1 ∨ a.dims.same b.dims = true

instance : Decidable (Conforming a b) := inferInstanceAs (Decidable (_ ∨ _ ∨ _))

/-- Shape of the result of conforming operands: that of the second if the first has a single element,
    else that of the first. -/
def resultDims (a b : Value) : Shape := if a.size = 1 then b.dims else a.dims

theorem broadcast_toArray (a b : Value) :
    broadcast a.toArray b.toArray =
      if Conforming a b then .ok (resultDims a b) else .error (.shapeMismatch a.dims b.dims) := by
  unfold broadcast Conforming resultDims
  simp only [NDArray.isScalar, Value.size_toArray, Value.dims_toArray, beq_iff_eq, Bool.or_eq_true]
  by_cases ha : a.size = 1
  · simp only [ha, true_or, if_true]
  · simp only [ha, false_or, if_false]

theorem bothScalar_toArray (a b : Value) :
    bothScalar a.toArray b.toArray = true ↔ a.size = 1 ∧ b.size = 1 := by
  simp [bothScalar, NDArray.isScalar, Value.size_toArray]

/-- Two single elements have a single result. -/
theorem count_resultDims (ha : a.size = 1) (hb : b.size = 1) : (resultDims a b).count = 1 := by
  rw [resultDims, if_pos ha, ← Value.dims_toArray]
  exact (Value.size_toArray b).trans hb

theorem same_resultDims (ha : a.size = 1) (hb : b.size = 1) :
    Shape.same [1, 1] (resultDims a b) = true := by
  have hcount := count_resultDims ha hb
  have hprod : (resultDims a b).prod = 1 := by
    cases hc : (resultDims a b).count? with
    | none => simp [Shape.count, hc, maxCount] at hcount
    | some n => rw [← Shape.prod_of_count? hc, ← hcount, Shape.count_of_count? hc]
  rw [Shape.same_iff]
  intro axis
  have hone : Shape.extent [1, 1] axis = 1 := by
    rcases axis with _ | _ | axis
    · rfl
    · rfl
    · exact Shape.extent_of_length_le (by simp)
  have hpos : 0 < (resultDims a b).prod := by omega
  have hle := Shape.extent_le_prod hpos axis
  have hlt := Shape.prod_pos_iff.mp hpos axis
  omega

end Elementwise

open Elementwise

/-! ### The law -/

namespace Arithmetic

variable {op : Arithmetic} {a b r : Value}

/-- An operand is complex, or some pair of real parts has no real result. -/
def RunsComplex (op : Arithmetic) (a b : Value) : Prop :=
  a.isComplex = true ∨ b.isComplex = true ∨
    ∃ i < (resultDims a b).count, op.leavesReals (a.operand i).re (b.operand i).re = true

structure Follows (op : Arithmetic) (a b r : Value) : Prop where
  kind_eq : r.kind = a.kind.arithmetic b.kind
  isComplex_iff : r.isComplex = true ↔ op.RunsComplex a b
  isNumber_iff : r.isNumber = true ↔ a.size = 1 ∧ b.size = 1 ∧ a.kind.arithmetic b.kind = .double
  /-- An array has the shape to the letter. A number is `1 x 1`, and the shape is so up to ones. -/
  dims_eq : r.isNumber = false → r.dims = resultDims a b
  dims_same : r.dims.same (resultDims a b) = true
  size_eq : r.size = (resultDims a b).count
  element_real : ¬ op.RunsComplex a b → ∀ i < r.size, r.element i =
    ⟨(a.kind.arithmetic b.kind).store (op.real (a.operand i).re (b.operand i).re), 0⟩
  element_complex : op.RunsComplex a b → ∀ i < r.size, r.element i =
    NDArray.stored (a.kind.arithmetic b.kind) (op.complex (a.operand i) (b.operand i))

theorem needsComplex_iff (op : Arithmetic) (a b : Value) :
    op.needsComplex a.toArray b.toArray (resultDims a b).count = true ↔ op.RunsComplex a b := by
  have hre : ∀ (v : Value) i, v.toArray.re (source v.toArray i) = (v.operand i).re :=
    fun v i => congrArg Cartesian.re (v.operand_eq i)
  simp only [needsComplex, RunsComplex, Bool.or_eq_true, Value.isComplex_toArray, List.any_eq_true,
    List.mem_range, hre, or_assoc]

theorem realElement_eq (op : Arithmetic) (a b : Value) (i : Nat) :
    op.realElement a.toArray b.toArray i =
      (a.kind.arithmetic b.kind).store (op.real (a.operand i).re (b.operand i).re) := by
  rw [← a.operand_eq, ← b.operand_eq, ← a.kind_toArray, ← b.kind_toArray]
  rfl

theorem complexElement_eq (op : Arithmetic) (a b : Value) (i : Nat) :
    op.complexElement a.toArray b.toArray i =
      NDArray.stored (a.kind.arithmetic b.kind) (op.complex (a.operand i) (b.operand i)) := by
  rw [← a.operand_eq, ← b.operand_eq, ← a.kind_toArray, ← b.kind_toArray]
  rfl

theorem kind_toArrays (a b : Value) :
    a.toArray.kind.arithmetic b.toArray.kind = a.kind.arithmetic b.kind := by
  rw [Value.kind_toArray, Value.kind_toArray]

theorem isNumber_condition :
    (a.toArray.kind.arithmetic b.toArray.kind == .double && bothScalar a.toArray b.toArray) = true ↔
      a.size = 1 ∧ b.size = 1 ∧ a.kind.arithmetic b.kind = .double := by
  rw [Bool.and_eq_true, beq_iff_eq, bothScalar_toArray, kind_toArrays]
  exact ⟨fun h => ⟨h.2.1, h.2.2, h.1⟩, fun h => ⟨h.2.2, h.1, h.2.1⟩⟩

/-- A number follows the law if its only element does. -/
theorem follows_number {x : Number} (ha : a.size = 1) (hb : b.size = 1)
    (hk : a.kind.arithmetic b.kind = .double) (hkind : x.kind = .double)
    (hc : x.isComplex = true ↔ op.RunsComplex a b)
    (hreal : ¬ op.RunsComplex a b → x.toCartesian = ⟨op.realElement a.toArray b.toArray 0, 0⟩)
    (hcomplex : op.RunsComplex a b → x.toCartesian = op.complexElement a.toArray b.toArray 0) :
    op.Follows a b (.number x) := by
  constructor
  case kind_eq => exact hkind.trans hk.symm
  case isComplex_iff => exact hc
  case isNumber_iff => exact ⟨fun _ => ⟨ha, hb, hk⟩, fun _ => rfl⟩
  case dims_eq => intro h; cases h
  case dims_same => exact same_resultDims ha hb
  case size_eq => exact (count_resultDims ha hb).symm
  case element_real =>
    intro hn i hi
    obtain rfl : i = 0 := Nat.lt_one_iff.mp hi
    rw [Value.element_number, hreal hn, realElement_eq]
  case element_complex =>
    intro hy i hi
    obtain rfl : i = 0 := Nat.lt_one_iff.mp hi
    rw [Value.element_number, hcomplex hy, complexElement_eq]

theorem follows_array {c : NDArray} (hdims : c.dims = resultDims a b)
    (hkind : c.kind = a.kind.arithmetic b.kind)
    (hn : ¬ (a.size = 1 ∧ b.size = 1 ∧ a.kind.arithmetic b.kind = .double))
    (hc : c.isComplex = true ↔ op.RunsComplex a b)
    (hreal : ¬ op.RunsComplex a b → ∀ i < (resultDims a b).count,
      c.cartesian i = ⟨op.realElement a.toArray b.toArray i, 0⟩)
    (hcomplex : op.RunsComplex a b → ∀ i < (resultDims a b).count,
      c.cartesian i = op.complexElement a.toArray b.toArray i) :
    op.Follows a b (.array c) := by
  have hsize : c.size = (resultDims a b).count := by rw [NDArray.size, hdims]
  constructor
  case kind_eq => exact hkind
  case isComplex_iff => exact hc
  case isNumber_iff => exact ⟨fun h => (by cases h), fun h => absurd h hn⟩
  case dims_eq => intro _; exact hdims
  case dims_same => exact Shape.same_iff.mpr fun axis => congrArg (·.extent axis) hdims
  case size_eq => exact hsize
  case element_real =>
    intro hr i hi
    rw [← realElement_eq]
    exact hreal hr i (hsize ▸ hi)
  case element_complex =>
    intro hr i hi
    rw [← complexElement_eq]
    exact hcomplex hr i (hsize ▸ hi)

theorem follows_complexAnswer (hruns : op.RunsComplex a b) :
    op.Follows a b (op.complexAnswer a.toArray b.toArray (resultDims a b)) := by
  unfold complexAnswer
  dsimp only
  split
  · rename_i hs
    obtain ⟨ha, hb, hk⟩ := isNumber_condition.mp hs
    exact follows_number ha hb hk rfl ⟨fun _ => hruns, fun _ => rfl⟩ (fun hn => absurd hruns hn)
      fun _ => rfl
  · rename_i hs
    exact follows_array rfl (kind_toArrays a b) (fun h => hs (isNumber_condition.mpr h))
      ⟨fun _ => hruns, fun _ => rfl⟩ (fun hn => absurd hruns hn)
      fun _ i hi => NDArray.cartesian_ofFn_complex _ hi

theorem follows_realAnswer (hruns : ¬ op.RunsComplex a b) :
    op.Follows a b (op.realAnswer a.toArray b.toArray (resultDims a b)) := by
  unfold realAnswer
  dsimp only
  split
  · rename_i hs
    obtain ⟨ha, hb, hk⟩ := isNumber_condition.mp hs
    exact follows_number ha hb hk rfl ⟨fun h => (by cases h), fun h => absurd h hruns⟩ (fun _ => rfl)
      fun h => absurd h hruns
  · rename_i hs
    exact follows_array rfl (kind_toArrays a b) (fun h => hs (isNumber_condition.mpr h))
      ⟨fun h => (by cases h), fun h => absurd h hruns⟩
      (fun _ i hi => NDArray.cartesian_ofFn_real _ hi) fun h => absurd h hruns

/-- Operands that conform have an answer in one of the two forms. -/
theorem onArrays_conforming (h : Conforming a b) :
    op.onArrays a.toArray b.toArray = .ok (
      if op.needsComplex a.toArray b.toArray (resultDims a b).count then
        op.complexAnswer a.toArray b.toArray (resultDims a b)
      else op.realAnswer a.toArray b.toArray (resultDims a b)) := by
  rw [onArrays_eq, broadcast_toArray, if_pos h]
  rfl

theorem follows_onArrays (h : Conforming a b) :
    ∃ r, op.onArrays a.toArray b.toArray = .ok r ∧ op.Follows a b r := by
  refine ⟨_, onArrays_conforming h, ?_⟩
  split
  · exact follows_complexAnswer ((needsComplex_iff op a b).mp ‹_›)
  · exact follows_realAnswer fun hruns => absurd ((needsComplex_iff op a b).mpr hruns) ‹_›

/-! ### Single numbers -/

/-- On single numbers arrays of one element answer what the numbers themselves do. -/
theorem onArrays_ofNumber (op : Arithmetic) (p q : Number) :
    op.onArrays (.ofNumber p) (.ofNumber q) = .ok (.number (op.onNumbers p q)) := by
  have hfit : Conforming (.number p) (.number q) := .inl rfl
  have hkind : (Value.number p).kind.arithmetic (Value.number q).kind = .double := by
    cases p <;> cases q <;> rfl
  have hp : (Value.number p).operand 0 = p.toCartesian := Value.element_number p
  have hq : (Value.number q).operand 0 = q.toCartesian := Value.element_number q
  have hruns : op.RunsComplex (.number p) (.number q) ↔ (p.isComplex || q.isComplex ||
      op.leavesReals p.toCartesian.re q.toCartesian.re) = true := by
    have hcount : (resultDims (.number p) (.number q)).count = 1 := rfl
    simp only [RunsComplex, hcount, Nat.lt_one_iff, exists_eq_left, hp, hq, Bool.or_eq_true, or_assoc]
    rfl
  have hneeds := needsComplex_iff op (.number p) (.number q)
  have hreal := realElement_eq op (.number p) (.number q) 0
  have hcomplex := complexElement_eq op (.number p) (.number q) 0
  rw [hkind, hp, hq] at hreal hcomplex
  rw [hruns] at hneeds
  refine (onArrays_conforming hfit).trans (congrArg Except.ok ?_)
  unfold complexAnswer realAnswer
  dsimp only
  rw [if_pos (isNumber_condition.mpr ⟨rfl, rfl, hkind⟩), if_pos (isNumber_condition.mpr ⟨rfl, rfl, hkind⟩),
    hreal, hcomplex]
  simp only [hneeds, onNumbers]
  split <;> rfl

/-- Going through arrays makes no difference to any operands. -/
theorem apply_eq_onArrays (op : Arithmetic) (a b : Value) :
    op.apply a b = op.onArrays a.toArray b.toArray := by
  cases a with
  | number p =>
    cases b with
    | number q => exact (onArrays_ofNumber op p q).symm
    | array b => rfl
  | array a => rfl

/-- Operands that conform have a result, and it follows the law. -/
theorem exists_follows (op : Arithmetic) (h : Conforming a b) : ∃ r, op.apply a b = .ok r ∧ op.Follows a b r := by
  rw [apply_eq_onArrays]
  exact follows_onArrays h

theorem apply_of_not_conforming (h : ¬ Conforming a b) :
    op.apply a b = .error (.shapeMismatch a.dims b.dims) := by
  rw [apply_eq_onArrays, onArrays_eq, broadcast_toArray, if_neg h]
  rfl

/-- Operands whose shapes do not fit are reported; all others have a result, and it follows the law.
    Single numbers may be turned into arrays, either of them or both, and the answer is the same. -/
theorem apply_elementwise (op : Arithmetic) :
    (∀ a b : Value, if Conforming a b then ∃ r, op.apply a b = .ok r ∧ op.Follows a b r
      else op.apply a b = .error (.shapeMismatch a.dims b.dims)) ∧
    ∀ p q : Number,
      op.apply (.array (.ofNumber p)) (.number q) = op.apply (.number p) (.number q) ∧
      op.apply (.number p) (.array (.ofNumber q)) = op.apply (.number p) (.number q) ∧
      op.apply (.array (.ofNumber p)) (.array (.ofNumber q)) = op.apply (.number p) (.number q) := by
  refine ⟨fun a b => ?_, fun p q => ?_⟩
  · split
    · exact exists_follows op ‹_›
    · exact apply_of_not_conforming ‹_›
  · have hdirect : op.apply (.number p) (.number q) = op.onArrays (.ofNumber p) (.ofNumber q) :=
      apply_eq_onArrays op (.number p) (.number q)
    exact ⟨hdirect.symm, hdirect.symm, hdirect.symm⟩

end Arithmetic
end NumericArrays
