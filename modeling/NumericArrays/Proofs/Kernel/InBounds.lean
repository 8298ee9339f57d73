import NumericArrays.Proofs.Engine.Product
import NumericArrays.Proofs.Kernel.Solve
import NumericArrays.Proofs.Scalar.Product

/-! What is computed in memory is what the engine computes: no access is out of bounds, no position passes a
    word, and nothing but a fault of the engine stops a computation. -/
namespace NumericArrays

/-! ### Arrays in memory -/

class LawfulLoadable (K : Type) [ArrayElement K] [Loadable K] : Prop where
  load_eq : ∀ {a : NDArray} {p : Nat}, a.WellFormed → p < a.size →
    (Loadable.load a p : Except InPlace.Stop K) = .ok (ArrayElement.read a p)

instance : LawfulLoadable Float where
  load_eq {a p} ha hp := by
    have hreal : a.reals[p]? = some (a.re p) := by
      have hlt : p < a.real.size := hp.trans_le ha.size_le
      rw [NDArray.reals, Array.getElem?_extract, if_pos (by simpa using ⟨hp, hlt⟩), Nat.zero_add, NDArray.re]
      simp [hlt]
    change (do
      let reals ← Kernel.slice a.real 0 a.size
      Kernel.fetch reals p) = _
    rw [Kernel.slice_of_le (Nat.zero_le _) ha.size_le, InPlace.ok_bind]
    exact Kernel.fetch_of_getElem? hreal

instance : LawfulLoadable (Cartesian Float) where
  load_eq {a p} ha hp := by
    have hlt : p < a.real.size := hp.trans_le ha.size_le
    have hre : Kernel.fetch a.real p = .ok (a.re p) := Kernel.fetch_of_getElem? (by simp [NDArray.re, hlt])
    obtain ⟨dims, real, imag, kind⟩ := a
    cases imag with
    | none =>
      change (do
        let re ← Kernel.fetch real p
        return (⟨re, 0⟩ : Cartesian Float)) = _
      rw [hre]
      rfl
    | some im =>
      have hroom : p < im.size := hlt.trans_eq (ha.imag_size im rfl).symm
      have him : Kernel.fetch im p = .ok (im.getD p 0) := Kernel.fetch_of_getElem? (by simp [hroom])
      change (do
        let im ← Kernel.fetch im p
        let re ← Kernel.fetch real p
        return (⟨re, im⟩ : Cartesian Float)) = _
      rw [him, InPlace.ok_bind, hre]
      rfl

namespace Buffer

open InPlace (ok_bind)

variable {K : Type} [ArrayElement K] {m n : Nat} {a : NDArray}

theorem ofArray_eq [Loadable K] [LawfulLoadable K] (ha : a.WellFormed) (hm : a.dims.isMatrix = true) :
    ofArray a = .ok (ofMat (Mat.ofArray a a.rows a.cols : Mat K a.rows a.cols)) := by
  have hsize : a.size = a.rows * a.cols := by rw [ha.size_of_isMatrix hm, ha.cols_eq hm]
  have hload : (List.range a.size).mapM (Loadable.load a) =
      .ok ((List.range a.size).map (ArrayElement.read a : Nat → K)) :=
    Kernel.mapM_eq_map fun p hp => LawfulLoadable.load_eq ha (List.mem_range.1 hp)
  rw [ofArray, if_pos hm, hload, ok_bind]
  refine congrArg (fun data => Except.ok (⟨data, a.rows, a.cols⟩ : Buffer K)) (eq_ofMat (by simp [hsize]) ?_)
  intro i j
  have hplace : i.val + a.rows * j < a.size := by
    rw [hsize, Nat.mul_comm a.rows j]
    exact Mat.place_lt i j
  rw [Mat.ofArray, Mat.entry_ofFn, Nat.mul_comm j.val]
  simp [hplace]

theorem toArray_ofMat (hm : m ≤ maxCount) (h : m * n ≤ maxCount) (x : Mat K m n) :
    (ofMat x).toArray = .ok x.toArray := by
  rw [toArray, nrows_ofMat, ncols_ofMat, size_ofMat, if_pos (Shape.count?_pair hm h)]
  rfl

end Buffer

/-! ### Outcomes -/

/-- What is answered to a request in memory: the result with the warnings, or a fault. -/
def Logged.outcome {α : Type} (x : Logged α) : Except InPlace.Stop (α × List (Warning Float)) :=
  (x.result.mapError .fault).map fun c => (c, x.warnings)

namespace Kernel

open Buffer (ofMat)
open InPlace (Stop ok_bind)
open MatrixScalar (conj)

/-! ### The order of rows and columns -/

section Orders

variable {K R : Type} [Arith K] [Arith R] [LT R] [DecidableLT R] [RealScalar R] [MatrixScalar K R]

/-- After any number of steps of a factorization, the rows or the columns that were exchanged are still those of
    the matrix in some order. Elimination is for square matrices, and ends early if there is no pivot. -/
structure KeepsOrder (x : Buffer K) : Prop where
  rows : x.nrows = x.ncols → ∀ k ≤ x.nrows, (∃ s, Elimination.upTo x k = .ok s ∧ s.Orderly x.nrows k) ∨
    Elimination.upTo x k = .error (.fault .singularMatrix)
  columns : ∀ k ≤ min x.nrows x.ncols, ∃ s, Reflections.upTo x k = .ok s ∧ s.Orderly x.nrows x.ncols k

theorem keepsOrder_ofMat {m n : Nat} (h : m * n ≤ maxCount) (a : Mat K m n) : KeepsOrder (ofMat a) where
  rows hsquare k hk := by
    obtain rfl : m = n := hsquare
    exact Elimination.upTo_orderly h a hk
  columns k hk := Reflections.upTo_orderly h a hk

end Orders

/-! ### Operations on arrays -/

section Operations

variable {K : Type} [Loadable K] [ArrayElement K] [LawfulLoadable K] [Arith K] {a b : NDArray}

theorem multiply_eq (ha : a.WellFormed) (hb : b.WellFormed) (hma : a.dims.isMatrix = true)
    (hmb : b.dims.isMatrix = true) (hfits : a.rows * b.cols ≤ maxCount) :
    multiply K a b = (Dense.product K a b).mapError .fault := by
  have hmn : a.rows * a.cols ≤ maxCount := Nat.mul_comm a.rows a.cols ▸ ha.cols_mul_rows_le
  have hnp : b.rows * b.cols ≤ maxCount := Nat.mul_comm b.rows b.cols ▸ hb.cols_mul_rows_le
  rw [multiply, Buffer.ofArray_eq ha hma, ok_bind, Buffer.ofArray_eq hb hmb, ok_bind, Buffer.ncols_ofMat,
    Buffer.nrows_ofMat]
  by_cases hcols : a.cols = b.rows
  · have hright : ofMat (Mat.ofArray b b.rows b.cols : Mat K b.rows b.cols) =
        ofMat (Mat.ofArray b a.cols b.cols : Mat K a.cols b.cols) :=
      congrArg (fun n => ofMat (Mat.ofArray b n b.cols : Mat K n b.cols)) hcols.symm
    rw [← hcols] at hnp
    rw [if_neg (not_not.2 hcols), hright, product_ofMat hmn hnp hfits, ok_bind,
      Buffer.toArray_ofMat ha.rows_le hfits,
      Dense.product_eq K ⟨ha, hb, hma, hmb, hcols, hfits⟩]
    rfl
  · rw [if_pos hcols, Dense.product, Dense.checkMatrix_of_isMatrix hma, Dense.checkMatrix_of_isMatrix hmb]
    change _ = (if a.cols = b.rows then _ else Except.error (Fault.shapeMismatch a.dims b.dims)).mapError Stop.fault
    rw [if_neg hcols]
    rfl

theorem transpose_eq (ha : a.WellFormed) (hm : a.dims.isMatrix = true) (f : K → K) :
    transpose K f a = (Dense.transpose K f a).mapError .fault := by
  have hfits : a.cols * a.rows ≤ maxCount := ha.cols_mul_rows_le
  rw [transpose, Buffer.ofArray_eq ha hm, ok_bind, transposeWith_ofMat (Nat.mul_comm a.cols a.rows ▸ hfits), ok_bind,
    Buffer.toArray_ofMat ha.cols_le hfits, Dense.transpose_eq f hm]
  rfl

variable [MatrixScalar K Float]

omit [Loadable K] [LawfulLoadable K] [Arith K] [MatrixScalar K Float] in
/-- What a solver answers, in memory and by the engine. -/
theorem outcome_answer {m n k : Nat} (hn : n ≤ maxCount) (hfits : n * k ≤ maxCount)
    (s : Option (Mat.ColumnSolver K Float m n)) (b : Mat K m k) : (do
      let s ← Solved.answer (s.map (·.apply b))
      let c ← s.solution.toArray
      return (c, s.warnings)) = (Dense.answer K s b).outcome := by
  cases s with
  | none => rfl
  | some s =>
    have hwarnings : (Dense.answer K (some s) b).warnings = s.warnings := by
      rw [Logged.warnings, Dense.events_answer, List.filterMap_map]
      exact List.filterMap_some
    rw [Logged.outcome, hwarnings, Dense.result_answer, if_pos hfits]
    change (do
      let c ← (ofMat (b.mapColumns s.column)).toArray
      return (c, s.warnings)) = _
    rw [Buffer.toArray_ofMat hn hfits]
    rfl

theorem solve_eq [Std.Commutative fun x y : K => x + y] (ha : a.WellFormed) (hb : b.WellFormed)
    (hma : a.dims.isMatrix = true) (hmb : b.dims.isMatrix = true) (hfits : a.cols * b.cols ≤ maxCount) :
    solve K a b = (Dense.solve K a b).outcome := by
  have hmn : a.rows * a.cols ≤ maxCount := Nat.mul_comm a.rows a.cols ▸ ha.cols_mul_rows_le
  have hmk : b.rows * b.cols ≤ maxCount := Nat.mul_comm b.rows b.cols ▸ hb.cols_mul_rows_le
  rw [solve, Buffer.ofArray_eq ha hma, ok_bind, Buffer.ofArray_eq hb hmb, ok_bind, Buffer.nrows_ofMat,
    Buffer.nrows_ofMat]
  by_cases hrows : a.rows = b.rows
  · have hright : ofMat (Mat.ofArray b b.rows b.cols : Mat K b.rows b.cols) =
        ofMat (Mat.ofArray b a.rows b.cols : Mat K a.rows b.cols) :=
      congrArg (fun m => ofMat (Mat.ofArray b m b.cols : Mat K m b.cols)) hrows.symm
    rw [← hrows] at hmk
    rw [if_neg (not_not.2 hrows), hright, Dense.solve_of_matrices K hma hmb hrows]
    by_cases hzero : a.rows = 0 ∨ a.cols = 0
    · rw [if_pos hzero, solveSystem, Buffer.nrows_ofMat, Buffer.ncols_ofMat, if_pos hzero, Buffer.ncols_ofMat,
        Buffer.zeros_eq hfits, Dense.result_eq, if_pos hfits]
      change (do
        let c ← (ofMat (Mat.zero : Mat K a.cols b.cols)).toArray
        return (c, [])) = _
      rw [Buffer.toArray_ofMat ha.cols_le hfits]
      rfl
    · rw [if_neg hzero, solveSystem_ofMat hmn hmk hfits _ _ (not_or.1 hzero).1 (not_or.1 hzero).2, Mat.solve_eq_apply]
      exact outcome_answer ha.cols_le hfits _ _
  · have hok : ∀ {c : NDArray}, c.dims.isMatrix = true →
        (liftM (Dense.checkMatrix c) : Logged Unit).result = .ok () := fun h => Dense.checkMatrix_of_isMatrix h
    rw [if_pos hrows, Dense.solve_eq, Logged.bind_of_ok (hok hma), Logged.bind_of_ok (hok hmb), if_pos hrows]
    rfl

variable [LawfulArrayElement K]

omit [Loadable K] [LawfulLoadable K] in
theorem ensures_solution (ha : a.WellFormed) (hb : b.WellFormed) :
    (Dense.solve K a b).Ensures fun c => c.WellFormed ∧ c.dims = [a.cols, b.cols] := by
  apply Dense.solve_ensures
  intro f c h
  refine ⟨Dense.result_wellFormed ha.cols_le hb.cols_le h, ?_⟩
  have hresult : Dense.result K f = .ok c := h
  rw [Dense.result_eq] at hresult
  split at hresult
  · cases hresult
    exact LawfulArrayElement.pack_dims _ _
  · cases hresult

/-- What is computed in memory with the entries of two arrays is what the engine computes. The only stops are its
    faults: no access to an entry, a column or a place of an order is out of bounds. -/
structure InBounds (K : Type) [Loadable K] [ArrayElement K] [Arith K] [MatrixScalar K Float]
    (scalars : Coefficients) (a b : NDArray) : Prop where
  product : a.rows * b.cols ≤ maxCount →
    multiply K a b = (Engine.dense.product scalars a b).result.mapError .fault
  transpose : Kernel.transpose K id a = (Engine.dense.transpose scalars a).result.mapError .fault
  adjoint : Kernel.transpose K conj a = (Dense.transpose K conj a).mapError .fault
  solve : a.cols * b.cols ≤ maxCount → Kernel.solve K a b = (Engine.dense.solve scalars a b).outcome
  solution : a.cols * b.cols ≤ maxCount → ∀ c warnings, Kernel.solve K a b = .ok (c, warnings) →
    c.WellFormed ∧ c.dims = [a.cols, b.cols]
  orders : ∃ x y : Buffer K, Buffer.ofArray a = .ok x ∧ transposeWith conj x = .ok y ∧ KeepsOrder x ∧ KeepsOrder y

theorem inBounds [Std.Commutative fun x y : K => x + y] {scalars : Coefficients} (ha : a.WellFormed)
    (hb : b.WellFormed) (hma : a.dims.isMatrix = true) (hmb : b.dims.isMatrix = true)
    (hproduct : (Engine.dense.product scalars a b).result = Dense.product K a b)
    (htranspose : (Engine.dense.transpose scalars a).result = Dense.transpose K id a)
    (hsolve : Engine.dense.solve scalars a b = Dense.solve K a b) : InBounds K scalars a b where
  product hfits := hproduct ▸ multiply_eq ha hb hma hmb hfits
  transpose := htranspose ▸ transpose_eq ha hma id
  adjoint := transpose_eq ha hma conj
  solve hfits := hsolve ▸ solve_eq ha hb hma hmb hfits
  solution hfits c warnings h := by
    rw [solve_eq ha hb hma hmb hfits, Logged.outcome] at h
    cases hresult : (Dense.solve K a b).result with
    | error e =>
      rw [hresult] at h
      cases h
    | ok d =>
      rw [hresult] at h
      cases h
      exact ensures_solution ha hb c hresult
  orders := by
    have hfits : a.rows * a.cols ≤ maxCount := Nat.mul_comm a.rows a.cols ▸ ha.cols_mul_rows_le
    exact ⟨_, _, Buffer.ofArray_eq ha hma, transposeWith_ofMat hfits conj _, keepsOrder_ofMat hfits _,
      keepsOrder_ofMat ha.cols_mul_rows_le _⟩

end Operations

end Kernel

namespace Engine

open Kernel (InBounds)

variable {a b : NDArray}

/-- Products, transposes and solutions are computed in memory as the engine computes them, whatever the elements
    are: no access is out of bounds as long as the entries of the result can be counted. A solution has a row for
    every column of the matrix and a column for every right-hand side, and after every step of the factorizations
    rows and columns are a permutation of those of the matrix. -/
theorem dense_in_bounds (ha : a.WellFormed) (hb : b.WellFormed) (hma : a.dims.isMatrix = true)
    (hmb : b.dims.isMatrix = true) : InBounds Float .real a b ∧ InBounds (Cartesian Float) .complex a b :=
  ⟨Kernel.inBounds ha hb hma hmb rfl rfl rfl, Kernel.inBounds ha hb hma hmb rfl rfl rfl⟩

/-- One equation with two unknowns, one of whose coefficients is no number. -/
def doubtfulRow : NDArray := ⟨[1, 2], #[Binary64.nan, 3], none, .double⟩

def doubtfulSide : NDArray := ⟨[1, 1], #[6], none, .double⟩

theorem dense_in_bounds_doubtful : doubtfulRow.WellFormed ∧ doubtfulSide.WellFormed ∧
    doubtfulRow.dims.isMatrix = true ∧ doubtfulSide.dims.isMatrix = true ∧
    InBounds Float .real doubtfulRow doubtfulSide ∧
    InBounds (Cartesian Float) .complex doubtfulRow doubtfulSide ∧
    (Kernel.solve Float doubtfulRow doubtfulSide).toBool = true := by
  have hrow : doubtfulRow.WellFormed :=
    NDArray.wellFormed_exact (by decide) (by decide) (by decide) (fun _ h => by cases h) fun h => by cases h
  have hside : doubtfulSide.WellFormed :=
    NDArray.wellFormed_exact (by decide) (by decide) (by decide) (fun _ h => by cases h) fun h => by cases h
  obtain ⟨hreal, hcomplex⟩ := dense_in_bounds hrow hside (by decide) (by decide)
  exact ⟨hrow, hside, by decide, by decide, hreal, hcomplex, by decide +kernel⟩

end Engine
end NumericArrays
