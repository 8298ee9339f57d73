import NumericArrays.Proofs.Elementwise.Law
import NumericArrays.Proofs.Engine.Dense
import NumericArrays.Proofs.Engine.Operators

/-! When an operator refuses two shapes, and which shapes it names then. -/
namespace NumericArrays

/-! ### Faults on the way -/

section Faults

variable {α β : Type} {x : Except Fault α} {e : Fault}

theorem bind_eq_error_iff {f : α → Except Fault β} :
    x >>= f = .error e ↔ x = .error e ∨ ∃ a, x = .ok a ∧ f a = .error e := by
  cases x with
  | error e' => simp [bind, Except.bind]
  | ok a => simp [bind, Except.bind]

theorem map_eq_error_iff {f : α → β} : x.map f = .error e ↔ x = .error e := by
  cases x with
  | error e' => simp [Except.map]
  | ok a => simp [Except.map]

theorem Logged.result_bind_eq_error_iff {x : Logged α} {f : α → Logged β} :
    (x >>= f).result = .error e ↔
      x.result = .error e ∨ ∃ a, x.result = .ok a ∧ (f a).result = .error e := by
  cases h : x.result with
  | error e' => simp [Logged.bind_of_error h]
  | ok a => simp [Logged.bind_of_ok h]

end Faults

/-! ### Arrays with two axes -/

namespace NDArray

variable {a b : NDArray} {kind : Storage} {s t : Shape}

theorem WellFormed.size_of_isMatrix (ha : a.WellFormed) (hm : a.dims.isMatrix = true) :
    a.size = a.rows * a.dims.extent 1 := by
  rw [ha.size_eq_prod, Shape.prod_of_isMatrix hm, rows]

theorem WellFormed.cols_eq (ha : a.WellFormed) (hm : a.dims.isMatrix = true) :
    a.cols = a.dims.extent 1 := by
  unfold cols
  split
  · rfl
  · rename_i hrows
    rw [ha.size_of_isMatrix hm, Nat.mul_div_cancel_left _ (Nat.pos_of_ne_zero hrows)]

/-- Conversion between kinds never looks at shapes. -/
theorem convert_ne_shapeMismatch : a.convert kind ≠ .error (.shapeMismatch s t) := by
  unfold convert
  split
  · simp
  · split
    · split
      · simp
      · split <;> simp
    · simp

end NDArray

namespace Value

def rows (v : Value) : Nat := v.dims.extent 0

def cols (v : Value) : Nat := v.dims.extent 1

/-- Two matrices, neither of which has a single element. -/
structure Matrices (a b : Value) : Prop where
  left_size : a.size ≠ 1
  right_size : b.size ≠ 1
  left_isMatrix : a.dims.isMatrix = true
  right_isMatrix : b.dims.isMatrix = true

variable {a b : Value} {c : NDArray} {kind : Storage} {s t : Shape}

theorem rows_toArray (v : Value) : v.toArray.rows = v.rows := by
  rw [NDArray.rows, dims_toArray, rows]

theorem WellFormed.cols_toArray (ha : a.WellFormed) (hm : a.dims.isMatrix = true) :
    a.toArray.cols = a.cols := by
  rw [← dims_toArray] at hm
  rw [ha.toArray.cols_eq hm, dims_toArray, cols]

theorem ofKind_ne_shapeMismatch : ofKind kind c ≠ .error (.shapeMismatch s t) := by
  intro h
  exact NDArray.convert_ne_shapeMismatch (map_eq_error_iff.mp h)

theorem isScalar_or_iff : (a.isScalar || b.isScalar) = true ↔ a.size = 1 ∨ b.size = 1 := by
  rw [Bool.or_eq_true, isScalar, isScalar, beq_iff_eq, beq_iff_eq]

end Value

/-! ### Element by element -/

open Elementwise

section Elementwise

variable {a b : Value} {s t : Shape}

theorem broadcast_eq_shapeMismatch_iff :
    broadcast a.toArray b.toArray = .error (.shapeMismatch s t) ↔
      ¬ Conforming a b ∧ s = a.dims ∧ t = b.dims := by
  rw [broadcast_toArray]
  split
  · rename_i h
    simp [h]
  · rename_i h
    simp only [Except.error.injEq, Fault.shapeMismatch.injEq, h, not_false_eq_true, true_and]
    exact and_congr eq_comm eq_comm

theorem Arithmetic.apply_eq_shapeMismatch_iff (op : Arithmetic) :
    op.apply a b = .error (.shapeMismatch s t) ↔ ¬ Conforming a b ∧ s = a.dims ∧ t = b.dims := by
  rw [apply_eq_onArrays, onArrays_eq, map_eq_error_iff, broadcast_eq_shapeMismatch_iff]

theorem Comparison.apply_eq_shapeMismatch_iff (op : Comparison) :
    op.apply a b = .error (.shapeMismatch s t) ↔ ¬ Conforming a b ∧ s = a.dims ∧ t = b.dims := by
  unfold apply
  rw [bind_eq_error_iff, broadcast_eq_shapeMismatch_iff]
  simp [pure, Except.pure]

theorem checkTruth_ne_shapeMismatch (a : NDArray) : a.checkTruth ≠ .error (.shapeMismatch s t) := by
  unfold NDArray.checkTruth
  split
  · simp
  · split <;> simp

/-- Truth values are asked for before the shapes are compared. -/
theorem Connective.apply_eq_shapeMismatch_iff (op : Connective) :
    op.apply a b = .error (.shapeMismatch s t) ↔
      (a.toArray.checkTruth = .ok () ∧ b.toArray.checkTruth = .ok ()) ∧
        ¬ Conforming a b ∧ s = a.dims ∧ t = b.dims := by
  unfold apply
  simp only [bind_eq_error_iff, checkTruth_ne_shapeMismatch, broadcast_eq_shapeMismatch_iff, false_or,
    pure, Except.pure, reduceCtorEq, and_false, exists_false, or_false, and_assoc]
  constructor
  · rintro ⟨_, hfirst, _, hsecond, h⟩
    exact ⟨hfirst, hsecond, h⟩
  · rintro ⟨hfirst, hsecond, h⟩
    exact ⟨(), hfirst, (), hsecond, h⟩

end Elementwise

/-! ### Matrices -/

namespace Dense

variable (K : Type) [ArrayElement K] {a b c : NDArray} {s t : Shape}

theorem checkMatrix_of_isMatrix (h : a.dims.isMatrix = true) : checkMatrix a = .ok () := if_pos h

/-- A computation that starts with this check refuses shapes only after it. -/
theorem checkMatrix_bind_iff {α : Type} {f : Unit → Except Fault α} :
    checkMatrix a >>= f = .error (.shapeMismatch s t) ↔
      a.dims.isMatrix = true ∧ f () = .error (.shapeMismatch s t) := by
  by_cases h : a.dims.isMatrix = true
  · rw [checkMatrix_of_isMatrix h]
    simp [bind, Except.bind, h]
  · simp [checkMatrix, h, bind, Except.bind]

theorem result_checkMatrix_bind_iff {α : Type} {f : Unit → Logged α} :
    ((liftM (checkMatrix a) : Logged Unit) >>= f).result = .error (.shapeMismatch s t) ↔
      a.dims.isMatrix = true ∧ (f ()).result = .error (.shapeMismatch s t) := by
  by_cases h : a.dims.isMatrix = true
  · have hok : (liftM (checkMatrix a) : Logged Unit).result = .ok () := checkMatrix_of_isMatrix h
    simp [Logged.bind_of_ok hok, h]
  · have herror : (liftM (checkMatrix a) : Logged Unit).result = .error (.unsupported .notTwoDimensional) :=
      if_neg h
    simp [Logged.bind_of_error herror, h]

theorem result_ne_shapeMismatch {m n : Nat} (f : Unit → Mat K m n) :
    result K f ≠ .error (.shapeMismatch s t) := by
  unfold result
  split <;> simp

theorem product_eq_shapeMismatch_iff [Arith K] :
    product K a b = .error (.shapeMismatch s t) ↔
      a.dims.isMatrix = true ∧ b.dims.isMatrix = true ∧ a.cols ≠ b.rows ∧ s = a.dims ∧ t = b.dims := by
  unfold product
  rw [checkMatrix_bind_iff, checkMatrix_bind_iff]
  refine and_congr_right fun _ => and_congr_right fun _ => ?_
  split
  · rename_i h
    simp [h, result_ne_shapeMismatch]
  · rename_i h
    simp [h, throw, throwThe, MonadExceptOf.throw, eq_comm]

theorem solve_eq_shapeMismatch_iff [Arith K] [MatrixScalar K Float] :
    (solve K a b).result = .error (.shapeMismatch s t) ↔
      a.dims.isMatrix = true ∧ b.dims.isMatrix = true ∧ a.rows ≠ b.rows ∧ s = a.dims ∧ t = b.dims := by
  have hresult : ∀ f : Unit → Mat K a.cols b.cols,
      (Logged.ofExcept (result K f)).result ≠ .error (.shapeMismatch s t) :=
    fun f => result_ne_shapeMismatch K f
  unfold solve
  rw [result_checkMatrix_bind_iff, result_checkMatrix_bind_iff]
  refine and_congr_right fun _ => and_congr_right fun _ => ?_
  by_cases h : a.rows = b.rows
  · rw [if_neg (not_not.mpr h)]
    simp only [h, ne_eq, not_true_eq_false, false_and, iff_false]
    split
    · exact hresult _
    · split
      · simp [Logged.ofExcept]
      · rw [Logged.result_bind_eq_error_iff]
        rintro (hlog | ⟨_, -, hlast⟩)
        · cases hlog
        · exact hresult _ hlast
  · rw [if_pos h]
    simp [h, Logged.ofExcept, eq_comm]

/-- A transpose has its extents the other way round. -/
theorem transpose_of_isMatrix [LawfulArrayElement K] [Arith K] (f : K → K)
    (h : a.dims.isMatrix = true) : ∃ c, transpose K f a = .ok c ∧ c.dims = [a.cols, a.rows] := by
  unfold transpose
  rw [checkMatrix_of_isMatrix h]
  refine ⟨_, rfl, ?_⟩
  rw [Mat.collect_eq, Mat.toArray, LawfulArrayElement.pack_dims]

theorem transpose_ne_shapeMismatch [Arith K] (f : K → K) :
    transpose K f a ≠ .error (.shapeMismatch s t) := by
  unfold transpose
  rw [ne_eq, checkMatrix_bind_iff]
  simp [pure, Except.pure]

end Dense

namespace Engine

variable {a b : Value} {x y c : NDArray} {s t : Shape}

theorem product_eq_shapeMismatch_iff (k : Coefficients) :
    (dense.product k x y).result = .error (.shapeMismatch s t) ↔
      x.dims.isMatrix = true ∧ y.dims.isMatrix = true ∧ x.cols ≠ y.rows ∧ s = x.dims ∧ t = y.dims := by
  cases k with
  | real => exact Dense.product_eq_shapeMismatch_iff Float
  | complex => exact Dense.product_eq_shapeMismatch_iff (Cartesian Float)

theorem solve_eq_shapeMismatch_iff (k : Coefficients) :
    (dense.solve k x y).result = .error (.shapeMismatch s t) ↔
      x.dims.isMatrix = true ∧ y.dims.isMatrix = true ∧ x.rows ≠ y.rows ∧ s = x.dims ∧ t = y.dims := by
  cases k with
  | real => exact Dense.solve_eq_shapeMismatch_iff Float
  | complex => exact Dense.solve_eq_shapeMismatch_iff (Cartesian Float)

/-- Where neither operand has a single element only their axes are left to look at. -/
theorem matrices_iff (h : ¬ (a.isScalar || b.isScalar) = true) :
    Value.Matrices a b ↔ a.dims.isMatrix = true ∧ b.dims.isMatrix = true := by
  rw [Value.isScalar_or_iff, not_or] at h
  constructor
  · rintro ⟨-, -, ha, hb⟩
    exact ⟨ha, hb⟩
  · rintro ⟨ha, hb⟩
    exact ⟨h.1, h.2, ha, hb⟩

/-- Beside a single element every shape will do. -/
theorem apply_eq_shapeMismatch_iff_of_isScalar {op : Arithmetic} {p : Prop}
    (h : (a.isScalar || b.isScalar) = true) :
    op.apply a b = .error (.shapeMismatch s t) ↔ Value.Matrices a b ∧ p := by
  rw [Value.isScalar_or_iff] at h
  rw [op.apply_eq_shapeMismatch_iff]
  constructor
  · rintro ⟨hshapes, -⟩
    exact absurd (h.elim .inl fun hb => .inr (.inl hb)) hshapes
  · rintro ⟨⟨ha, hb, -, -⟩, -⟩
    exact (h.elim ha hb).elim

/-- Shapes are refused before the result is converted. -/
theorem ofKind_eq_shapeMismatch_iff {z : Logged NDArray} {kind : Storage} :
    (do
      let c ← z
      Value.ofKind kind c : Logged Value).result = .error (.shapeMismatch s t) ↔
    z.result = .error (.shapeMismatch s t) := by
  have hkind : ∀ c, (liftM (Value.ofKind kind c) : Logged Value).result ≠ .error (.shapeMismatch s t) :=
    fun c => Value.ofKind_ne_shapeMismatch
  rw [Logged.result_bind_eq_error_iff]
  simp only [hkind, and_false, exists_false, or_false]

theorem mul_eq_shapeMismatch_iff (ha : a.WellFormed) :
    (dense.mul a b).result = .error (.shapeMismatch s t) ↔
      Value.Matrices a b ∧ a.cols ≠ b.rows ∧ s = a.dims ∧ t = b.dims := by
  unfold mul
  split
  · rename_i hscalar
    exact apply_eq_shapeMismatch_iff_of_isScalar hscalar
  · rename_i hscalar
    rw [ofKind_eq_shapeMismatch_iff, product_eq_shapeMismatch_iff, matrices_iff hscalar]
    simp only [Value.dims_toArray, Value.rows_toArray, and_assoc]
    refine and_congr_right fun hm => ?_
    rw [ha.cols_toArray hm]

theorem leftDiv_eq_shapeMismatch_iff :
    (dense.leftDiv a b).result = .error (.shapeMismatch s t) ↔
      Value.Matrices a b ∧ a.rows ≠ b.rows ∧ s = a.dims ∧ t = b.dims := by
  unfold leftDiv
  split
  · rename_i hscalar
    exact apply_eq_shapeMismatch_iff_of_isScalar hscalar
  · rename_i hscalar
    rw [ofKind_eq_shapeMismatch_iff, solve_eq_shapeMismatch_iff, matrices_iff hscalar]
    simp only [Value.dims_toArray, Value.rows_toArray, and_assoc]

/-- What turning a matrix over does to its shape, whatever becomes of its entries. -/
structure Turns (flip : NDArray → Logged NDArray) : Prop where
  of_isMatrix : ∀ x, x.dims.isMatrix = true →
    ∃ c, (flip x).result = .ok c ∧ c.dims = [x.cols, x.rows]
  isMatrix : ∀ x c, (flip x).result = .ok c → x.dims.isMatrix = true
  ne_shapeMismatch : ∀ x s t, (flip x).result ≠ .error (.shapeMismatch s t)

theorem turns_transpose : Turns (dense.transpose .real) where
  of_isMatrix _ h := Dense.transpose_of_isMatrix Float id h
  isMatrix _ _ h := (Dense.exists_collect_of_transpose h).left
  ne_shapeMismatch _ _ _ := Dense.transpose_ne_shapeMismatch Float id

theorem turns_adjoint : Turns dense.adjoint where
  of_isMatrix _ h := Dense.transpose_of_isMatrix (Cartesian Float) Cartesian.conj h
  isMatrix _ _ h := (Dense.exists_collect_of_transpose h).left
  ne_shapeMismatch _ _ _ := Dense.transpose_ne_shapeMismatch (Cartesian Float) Cartesian.conj

/-- Of operands that are turned over the extents are compared and named the other way round, those of
    the divisor first. -/
theorem turned_eq_shapeMismatch_iff {flip : NDArray → Logged NDArray} (hflip : Turns flip)
    (k : Coefficients) (kind : Storage) :
    (dense.turned flip k kind x y).result = .error (.shapeMismatch s t) ↔
      (x.dims.isMatrix = true ∧ y.dims.isMatrix = true) ∧ x.cols ≠ y.cols ∧
        s = [y.cols, y.rows] ∧ t = [x.cols, x.rows] := by
  unfold turned
  simp only [Logged.result_bind_eq_error_iff, hflip.ne_shapeMismatch, false_or]
  constructor
  · rintro ⟨y', hy', x', hx', hsolve | ⟨c, -, d, -, hlast⟩⟩
    · have hx := hflip.isMatrix x x' hx'
      have hy := hflip.isMatrix y y' hy'
      obtain ⟨x'', hx'', hxdims⟩ := hflip.of_isMatrix x hx
      obtain ⟨y'', hy'', hydims⟩ := hflip.of_isMatrix y hy
      obtain rfl : x' = x'' := Except.ok.inj (hx'.symm.trans hx'')
      obtain rfl : y' = y'' := Except.ok.inj (hy'.symm.trans hy'')
      rw [solve_eq_shapeMismatch_iff, NDArray.rows, NDArray.rows, hxdims, hydims] at hsolve
      obtain ⟨-, -, hne, hs, ht⟩ := hsolve
      exact ⟨⟨hx, hy⟩, fun h => hne h.symm, hs, ht⟩
    · exact absurd hlast Value.ofKind_ne_shapeMismatch
  · rintro ⟨⟨hx, hy⟩, hne, hs, ht⟩
    obtain ⟨x', hx', hxdims⟩ := hflip.of_isMatrix x hx
    obtain ⟨y', hy', hydims⟩ := hflip.of_isMatrix y hy
    refine ⟨y', hy', x', hx', .inl ?_⟩
    rw [solve_eq_shapeMismatch_iff, NDArray.rows, NDArray.rows, hxdims, hydims]
    exact ⟨rfl, rfl, fun h => hne h.symm, hs, ht⟩

theorem rightDiv_eq_shapeMismatch_iff (ha : a.WellFormed) (hb : b.WellFormed) :
    (dense.rightDiv a b).result = .error (.shapeMismatch s t) ↔
      Value.Matrices a b ∧ a.cols ≠ b.cols ∧ s = [b.cols, b.rows] ∧ t = [a.cols, a.rows] := by
  have hturned : ∀ {flip : NDArray → Logged NDArray}, Turns flip → ∀ k kind,
      ((dense.turned flip k kind a.toArray b.toArray).result = .error (.shapeMismatch s t) ↔
        (a.dims.isMatrix = true ∧ b.dims.isMatrix = true) ∧ a.cols ≠ b.cols ∧
          s = [b.cols, b.rows] ∧ t = [a.cols, a.rows]) := by
    intro flip hflip k kind
    rw [turned_eq_shapeMismatch_iff hflip]
    simp only [Value.dims_toArray, Value.rows_toArray]
    refine and_congr_right fun hm => ?_
    rw [ha.cols_toArray hm.1, hb.cols_toArray hm.2]
  unfold rightDiv
  split
  · rename_i hscalar
    exact apply_eq_shapeMismatch_iff_of_isScalar hscalar
  · rename_i hscalar
    rw [matrices_iff hscalar]
    cases a.coefficients b with
    | real => exact hturned turns_transpose .real _
    | complex => exact hturned turns_adjoint .complex _

end Engine

/-! ### All operators -/

/-- Shapes are refused only where they do not fit, and the fault names them: shapes of operands taken
    element by element if they do not conform, those of a product or a left division if the sizes do
    not meet. A right division names its operands the other way round, each with its extents
    exchanged. -/
theorem shapeMismatch_iff (a b : Value) (s t : Shape) :
    (∀ op : Arithmetic, op.apply a b = .error (.shapeMismatch s t) ↔
      ¬ Conforming a b ∧ s = a.dims ∧ t = b.dims) ∧
    (∀ op : Comparison, op.apply a b = .error (.shapeMismatch s t) ↔
      ¬ Conforming a b ∧ s = a.dims ∧ t = b.dims) ∧
    (∀ op : Connective, op.apply a b = .error (.shapeMismatch s t) ↔
      (a.toArray.checkTruth = .ok () ∧ b.toArray.checkTruth = .ok ()) ∧
        ¬ Conforming a b ∧ s = a.dims ∧ t = b.dims) ∧
    (a.WellFormed → b.WellFormed →
      ((Engine.dense.mul a b).result = .error (.shapeMismatch s t) ↔
        Value.Matrices a b ∧ a.cols ≠ b.rows ∧ s = a.dims ∧ t = b.dims) ∧
      ((Engine.dense.leftDiv a b).result = .error (.shapeMismatch s t) ↔
        Value.Matrices a b ∧ a.rows ≠ b.rows ∧ s = a.dims ∧ t = b.dims) ∧
      ((Engine.dense.rightDiv a b).result = .error (.shapeMismatch s t) ↔
        Value.Matrices a b ∧ a.cols ≠ b.cols ∧ s = [b.cols, b.rows] ∧ t = [a.cols, a.rows])) := by
  refine ⟨fun op => op.apply_eq_shapeMismatch_iff, fun op => op.apply_eq_shapeMismatch_iff,
    fun op => op.apply_eq_shapeMismatch_iff, fun ha hb => ⟨?_, ?_, ?_⟩⟩
  · exact Engine.mul_eq_shapeMismatch_iff ha
  · exact Engine.leftDiv_eq_shapeMismatch_iff
  · exact Engine.rightDiv_eq_shapeMismatch_iff ha hb

def rowOfTwo : NDArray := ⟨[1, 2], #[1, 2], none, .double⟩

def rowOfThree : NDArray := ⟨[1, 3], #[1, 2, 3], none, .double⟩

theorem rowOfTwo_wellFormed : (Value.array rowOfTwo).WellFormed :=
  NDArray.wellFormed_exact (by decide) (by decide) (by decide) (fun _ h => by cases h) fun h => by cases h

theorem rowOfThree_wellFormed : (Value.array rowOfThree).WellFormed :=
  NDArray.wellFormed_exact (by decide) (by decide) (by decide) (fun _ h => by cases h) fun h => by cases h

theorem rows_matrices : Value.Matrices (.array rowOfTwo) (.array rowOfThree) where
  left_size := by decide
  right_size := by decide
  left_isMatrix := by decide
  right_isMatrix := by decide

/-- The product of two rows is refused, and both rows are named as they are. -/
theorem shapeMismatch_iff_rows :
    (Engine.dense.mul (.array rowOfTwo) (.array rowOfThree)).result =
      .error (.shapeMismatch [1, 2] [1, 3]) := by
  obtain ⟨-, -, -, hmatrix⟩ := shapeMismatch_iff (.array rowOfTwo) (.array rowOfThree) [1, 2] [1, 3]
  obtain ⟨hmul, -, -⟩ := hmatrix rowOfTwo_wellFormed rowOfThree_wellFormed
  exact hmul.mpr ⟨rows_matrices, by decide, rfl, rfl⟩

/-- The quotient of two rows of unequal length is refused, and two columns are named, those of the
    divisor first. -/
theorem rightDiv_names_columns :
    (Engine.dense.rightDiv (.array rowOfTwo) (.array rowOfThree)).result =
        .error (.shapeMismatch [3, 1] [2, 1]) ∧
      (Engine.dense.rightDiv (.array rowOfTwo) (.array rowOfThree)).result ≠
        .error (.shapeMismatch rowOfTwo.dims rowOfThree.dims) := by
  have hiff := fun s t => Engine.rightDiv_eq_shapeMismatch_iff (s := s) (t := t) rowOfTwo_wellFormed
    rowOfThree_wellFormed
  constructor
  · exact (hiff _ _).mpr ⟨rows_matrices, by decide, rfl, rfl⟩
  · intro h
    obtain ⟨-, -, hs, -⟩ := (hiff _ _).mp h
    exact absurd hs (by decide)

end NumericArrays
