import NumericArrays.Mat.LU
import NumericArrays.Mat.QR

/-! Linear systems: exactly for square matrices, by least squares for tall ones, and with the shortest
    solution for wide ones. -/
namespace NumericArrays

inductive Warning (R : Type) where
  /-- A square matrix close to a singular one; the ratio of its pivots is given. -/
  | nearlySingular (ratio : R)
  | rankDeficient (rank : Nat)
deriving DecidableEq

namespace Mat

open MatrixScalar (conj)

variable {K R : Type} [Arith K] [Arith R] [LT R] [DecidableLT R] [RealScalar R] [MatrixScalar K R]
variable {m n k : Nat}

structure Solved (K R : Type) (n k : Nat) where
  solution : Mat K n k
  warnings : List (Warning R)

def padZero {r : Nat} (x : Vector K r) (n : Nat) : Vector K n :=
  .ofFn fun i => x[i.val]?.getD 0

def placeAt (x : Vector K n) (i : Fin n) (y : K) : Vector K n := x.set i y i.isLt

/-- Puts entry `i` in place `perm[i]`. -/
def scatter (perm : Vector (Fin n) n) (y : Vector K n) : Vector K n :=
  (List.finRange n).foldl (fun x i => placeAt x (perm.get i) (y.get i)) (.replicate n 0)

/-- Square systems. There is no solution for a singular matrix. -/
def solveSquare (a : Mat K n n) (b : Mat K n k) : Option (Solved K R n k) :=
  (LU.factor? a).map fun f =>
    let ratio : R := f.pivotRatio
    { solution := b.mapColumns f.solveColumn
      warnings := if ratio < RealScalar.epsilon then [.nearlySingular ratio] else [] }

def rankWarnings (rank full : Nat) : List (Warning R) :=
  if rank < full then [.rankDeficient rank] else []

/-- The least-squares solution for one right-hand side. Unknowns past the rank are zero. -/
def leastSquaresColumn (f : PivotedQR K m n (min m n)) (b : Vector K m) : Vector K n :=
  let rotated := f.applyAdjoint b
  let y := Mat.backward (r := f.rank)
    (fun i j => f.upper (i.castLE f.rank_le) (j.castLE f.rank_le))
    (fun i => rotated.get (i.castLE f.rank_le_rows))
  scatter f.perm (padZero y n)

def solveTall (a : Mat K m n) (b : Mat K m k) : Solved K R n k :=
  let f := PivotedQR.factor a
  { solution := b.mapColumns (leastSquaresColumn f)
    warnings := rankWarnings f.rank n }

/-- The shortest solution for one right-hand side, from the factors of the conjugate transpose. -/
def shortestColumn (f : PivotedQR K n m (min n m)) (b : Vector K m) : Vector K n :=
  let z := Mat.forward (r := f.rank)
    (fun i j => conj (f.upper (j.castLE f.rank_le) (i.castLE f.rank_le)))
    (fun i x => x / conj (f.upper (i.castLE f.rank_le) (i.castLE f.rank_le)))
    (fun i => b.get (f.perm.get (i.castLE f.rank_le_columns)))
  f.applyOrthogonal (padZero z n)

def solveWide (a : Mat K m n) (b : Mat K m k) : Solved K R n k :=
  let f := PivotedQR.factor (transposeWith conj a)
  { solution := b.mapColumns (shortestColumn f)
    warnings := rankWarnings f.rank m }

/-- Solves `a * x = b`. There is no solution for a square matrix that is singular. -/
def solve (a : Mat K m n) (b : Mat K m k) : Option (Solved K R n k) :=
  if h : n = m then
    match n, h, a with
    | _, rfl, a => solveSquare a b
  else if n < m then some (solveTall a b)
  else some (solveWide a b)

end Mat
end NumericArrays
