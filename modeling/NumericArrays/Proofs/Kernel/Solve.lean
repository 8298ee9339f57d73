import NumericArrays.Kernel.Solve
import NumericArrays.Proofs.Kernel.Product
import NumericArrays.Proofs.Kernel.QR
import NumericArrays.Proofs.Mat.Columns

/-! Systems in memory: by elimination if they are square, and by reflections if they are not. Wide systems are
    solved with the factors of the adjoint, so rows and columns change places. -/
namespace NumericArrays

/-! ### Changes of columns -/

namespace Mat

variable {K : Type} {m n p k : Nat}

theorem mapColumns_mapColumns (f : Vector K m → Vector K n) (g : Vector K n → Vector K p) (a : Mat K m k) :
    (a.mapColumns f).mapColumns g = a.mapColumns fun x => g (f x) := by
  apply ext_columns
  intro j
  rw [columns_get_mapColumns, columns_get_mapColumns, columns_get_mapColumns]

end Mat

namespace Kernel

open Buffer (ofMat)
open InPlace (Stop ok_bind)
open MatrixScalar (conj)

variable {K R : Type} [Arith K] [Arith R] [LT R] [DecidableLT R] [RealScalar R] [MatrixScalar K R]
variable {m n k : Nat}

def Solved.ofSolved (s : Mat.Solved K R n k) : Solved K R := ⟨ofMat s.solution, s.warnings⟩

def Solved.answer (s : Option (Mat.Solved K R n k)) : Except Stop (Solved K R) :=
  match s with
  | some s => .ok (ofSolved s)
  | none => .error (.fault .singularMatrix)

/-! ### Rows in another order -/

omit [Arith K] in
theorem copyRow_ofMat (h : n * k ≤ maxCount) (y x : Mat K n k) (p i : Fin n) :
    copyRow (ofMat y) (ofMat x) p i = .ok (ofMat ((List.finRange k).foldl
      (fun x j => x.changeColumn j (Mat.placeAt · p (y.entry i j))) x)) := by
  rw [copyRow, Buffer.ncols_ofMat, ← List.map_coe_finRange_eq_range]
  refine foldlM_eq_foldl ofMat _ (fun x j _ => ?_) x
  rw [Buffer.read_ofMat h, ok_bind, Buffer.write_ofMat h]
  rfl

/-- Every row is written to its place. -/
theorem scatter_ofMat (h : n * k ≤ maxCount) (perm : Vector (Fin n) n) (y : Mat K n k) :
    scatter (indices perm) (ofMat y) n = .ok (ofMat (y.mapColumns (Mat.scatter perm))) := by
  let place (x : Mat K n k) (i : Fin n) : Mat K n k :=
    (List.finRange k).foldl (fun x j => x.changeColumn j (Mat.placeAt · (perm.get i) (y.entry i j))) x
  have hindices : (indices perm).toList.zipIdx = (List.finRange n).map fun i => ((perm.get i).val, i.val) := by
    rw [indices, zipIdx_toArray]
    simp only [Mat.get_map]
  have hloop : (indices perm).toList.zipIdx.foldlM (fun x t => copyRow (ofMat y) x t.1 t.2)
      (ofMat (Mat.zero : Mat K n k)) = .ok (ofMat ((List.finRange n).foldl place Mat.zero)) := by
    rw [hindices]
    exact foldlM_eq_foldl ofMat place (fun x i _ => copyRow_ofMat h y x (perm.get i) i) Mat.zero
  rw [scatter, Buffer.ncols_ofMat, Buffer.zeros_eq h, ok_bind]
  refine hloop.trans (congrArg (fun b => Except.ok (ofMat b)) (Mat.ext_columns fun j => ?_))
  have hplace (x : Mat K n k) (i : Fin n) :
      (place x i).columns.get j = Mat.placeAt (x.columns.get j) (perm.get i) (y.entry i j) :=
    Mat.columns_get_foldl_finRange (fun j => (Mat.placeAt · (perm.get i) (y.entry i j))) x j
  rw [Mat.columns_get_mapColumns, Mat.scatter, ← Mat.columns_get_zero j]
  exact (List.foldl_hom (fun x : Mat K n k => x.columns.get j) fun x i => (hplace x i).symm).symm

omit [Arith K] in
theorem gather_ofMat (h : m * k ≤ maxCount) (perm : Vector (Fin m) m) (b : Mat K m k) :
    gather (indices perm) (ofMat b) m = .ok (ofMat (b.mapColumns fun x => .ofFn fun i => x.get (perm.get i))) := by
  have hrow (i : Fin m) (j : Fin k) : (do
      let row ← fetch (indices perm) i
      (ofMat b).read row j) = .ok (b.entry (perm.get i) j) := by
    rw [fetch_indices, ok_bind, Buffer.read_ofMat h]
  rw [gather, Buffer.ncols_ofMat, Buffer.fromFn_eq h hrow]
  refine congrArg (fun b => Except.ok (ofMat b)) (Mat.ext_columns fun j => ?_)
  rw [Mat.columns_get_mapColumns]
  exact Mat.get_ofFn _ j

/-! ### Systems by shape -/

theorem solveSquare_ofMat (h : n * n ≤ maxCount) (hb : n * k ≤ maxCount) (a : Mat K n n) (b : Mat K n k) :
    solveSquare (ofMat a) (ofMat b) = Solved.answer (a.solveSquare (R := R) b) := by
  have hfactor : Elimination.upTo (ofMat a) n = Elimination.answer (LU.factor? a) :=
    Elimination.upTo_ofMat h a n le_rfl
  rw [solveSquare, Mat.solveSquare, Buffer.nrows_ofMat, hfactor]
  cases LU.factor? a with
  | none => rfl
  | some f =>
    change (do
      let ratio ← Elimination.pivotRatio (ofMat f.packed)
      let solution ← (Elimination.ofLU f).solve (ofMat b)
      return (⟨solution, if ratio < RealScalar.epsilon then [.nearlySingular ratio] else []⟩ : Solved K R)) = _
    rw [Elimination.pivotRatio_ofMat h, ok_bind, Elimination.solve_ofLU h hb, ok_bind]
    rfl

section

variable [Std.Commutative fun x y : K => x + y]

theorem solveTall_ofMat (h : m * n ≤ maxCount) (hb : m * k ≤ maxCount) (hx : n * k ≤ maxCount) (a : Mat K m n)
    (b : Mat K m k) : solveTall (ofMat a) (ofMat b) = .ok (Solved.ofSolved (a.solveTall (R := R) b)) := by
  let f : PivotedQR K m n (min m n) := PivotedQR.factor a
  rw [solveTall, Reflections.factor_ofMat h, ok_bind]
  change (do
    let rank ← Reflections.rank (ofMat f.packed)
    let c ← (Reflections.ofQR f).applyAdjoint (ofMat b)
    let y ← solveUpper (ofMat f.packed) rank c n
    let solution ← scatter (indices f.perm) y n
    return (⟨solution, Mat.rankWarnings rank n⟩ : Solved K R)) = _
  rw [Reflections.rank_ofMat h, ok_bind, Reflections.applyAdjoint_ofQR hb h, ok_bind,
    solveUpper_ofMat h hb hx f.packed f.rank_le_rows f.rank_le_columns f.rank_le_rows f.rank_le_columns, ok_bind,
    scatter_ofMat hx, ok_bind, Mat.mapColumns_mapColumns, Mat.mapColumns_mapColumns]
  rfl

theorem solveWide_ofMat (h : m * n ≤ maxCount) (hb : m * k ≤ maxCount) (hx : n * k ≤ maxCount) (a : Mat K m n)
    (b : Mat K m k) : solveWide (ofMat a) (ofMat b) = .ok (Solved.ofSolved (a.solveWide (R := R) b)) := by
  have hadjoint : n * m ≤ maxCount := by rwa [Nat.mul_comm]
  let f : PivotedQR K n m (min n m) := PivotedQR.factor (a.transposeWith conj)
  rw [solveWide, transposeWith_ofMat h, ok_bind, Reflections.factor_ofMat hadjoint, ok_bind]
  change (do
    let rank ← Reflections.rank (ofMat f.packed)
    let c ← gather (indices f.perm) (ofMat b) m
    let z ← solveUpperAdjoint (ofMat f.packed) rank c n
    let solution ← (Reflections.ofQR f).applyOrthogonal z
    return (⟨solution, Mat.rankWarnings rank m⟩ : Solved K R)) = _
  rw [Reflections.rank_ofMat hadjoint, ok_bind, gather_ofMat hb, ok_bind,
    solveUpperAdjoint_ofMat f.packed f.rank_le_rows f.rank_le_columns hadjoint hb hx f.rank_le_columns f.rank_le_rows,
    ok_bind, Reflections.applyOrthogonal_ofQR hx hadjoint, ok_bind, Mat.mapColumns_mapColumns,
    Mat.mapColumns_mapColumns]
  simp only [Mat.get_ofFn]
  rfl

/-- Every system is solved as the system of matrices is. -/
theorem solveSystem_ofMat (h : m * n ≤ maxCount) (hb : m * k ≤ maxCount) (hx : n * k ≤ maxCount) (a : Mat K m n)
    (b : Mat K m k) (hm : m ≠ 0) (hn : n ≠ 0) :
    solveSystem (ofMat a) (ofMat b) = Solved.answer (a.solve (R := R) b) := by
  rw [solveSystem, Buffer.nrows_ofMat, Buffer.ncols_ofMat, if_neg (by omega)]
  rcases lt_trichotomy m n with hmn | rfl | hnm
  · rw [if_neg (by omega), if_neg (by omega), solveWide_ofMat h hb hx, Mat.solve_wide hmn]
    rfl
  · rw [if_pos rfl, solveSquare_ofMat h hb, Mat.solve_square]
  · rw [if_neg (by omega), if_pos hnm, solveTall_ofMat h hb hx, Mat.solve_tall hnm]
    rfl

end

end Kernel
end NumericArrays
