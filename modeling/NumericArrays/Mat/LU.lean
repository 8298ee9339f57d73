import NumericArrays.Mat.Basic

/-! Triangular factors of a square matrix, with rows exchanged for the sake of large pivots. -/
namespace NumericArrays

/-- Both factors in one matrix: the upper one on and above the diagonal, the lower one, whose diagonal
    is 1, below it. Row `i` of their product is row `perm[i]` of the factored matrix. -/
structure LU (K : Type) (n : Nat) where
  packed : Mat K n n
  perm : Vector (Fin n) n

namespace LU

open Mat (after)

variable {K R : Type} [Arith K] [Arith R] [LT R] [DecidableLT R] [RealScalar R] [MatrixScalar K R]
variable {n : Nat}

/-- The first row, from the diagonal on, whose entry in column `c` has the largest modulus, and that
    modulus. -/
def pivot (a : Mat K n n) (c : Fin n) : Fin n × R :=
  (after c).foldl
    (fun best i =>
      let size := MatrixScalar.modulus (a.entry i c)
      if best.2 < size then (i, size) else best)
    (c, MatrixScalar.modulus (a.entry c c))

/-- Clears column `c` below the diagonal: the entries there become the multipliers, and the rows below
    lose their multiples of row `c`. -/
def clearColumn (a : Mat K n n) (c : Fin n) : Mat K n n :=
  let inverse := 1 / a.entry c c
  let multiplier := Vector.ofFn fun i : Fin n => a.entry i c * inverse
  .ofFn fun i j =>
    if i ≤ c ∨ j < c then a.entry i j
    else if j = c then multiplier.get i
    else a.entry i j - a.entry c j * multiplier.get i

/-- One step of elimination, on column `c`. There is none if the pivot is zero. -/
def step (f : LU K n) (c : Fin n) : Option (LU K n) :=
  let (i, size) := pivot f.packed c
  if size == 0 then none
  else some ⟨clearColumn (f.packed.swapRows c i) c, f.perm.swap c i c.isLt i.isLt⟩

def factorUpTo (a : Mat K n n) : (k : Nat) → k ≤ n → Option (LU K n)
  | 0, _ => some ⟨a, .ofFn id⟩
  | k + 1, h => (factorUpTo a k (Nat.le_of_succ_le h)).bind (step · ⟨k, h⟩)

def factor? (a : Mat K n n) : Option (LU K n) := factorUpTo a n (Nat.le_refl n)

def pivotSizes (f : LU K n) : List R :=
  (List.finRange n).map fun i => MatrixScalar.modulus (f.packed.entry i i)

/-- Least of some numbers that equal themselves. -/
def least? (xs : List R) : Option R :=
  xs.foldl
    (fun low x =>
      match low with
      | none => if x == x then some x else none
      | some y => some (if x < y then x else y))
    none

def largest (xs : List R) : R := xs.foldl (fun high x => if high < x then x else high) 0

/-- Ratio of the smallest pivot to the largest one, an estimate of how far the matrix is from being
    singular. Pivots that are no numbers are left out; without any other the ratio is infinite. -/
def pivotRatio (f : LU K n) : R :=
  if n = 0 then 1
  else
    let sizes := f.pivotSizes
    (least? sizes).getD (1 / 0) / largest sizes

def solveColumn (f : LU K n) (b : Vector K n) : Vector K n :=
  let y := Mat.forward f.packed.entry (fun _ x => x) fun i => b.get (f.perm.get i)
  Mat.backward f.packed.entry fun i => y.get i

end LU
end NumericArrays
