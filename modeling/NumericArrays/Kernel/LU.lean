import NumericArrays.Kernel.Triangular
import NumericArrays.Mat.LU

/-! Triangular factors in memory. The factors take the place of the matrix. -/
namespace NumericArrays.Kernel

open InPlace (Stop)

variable {K R : Type} [Arith K] [Arith R] [LT R] [DecidableLT R] [RealScalar R] [MatrixScalar K R]

structure Elimination (K : Type) where
  packed : Buffer K
  perm : Array Nat

namespace Elimination

def start (a : Buffer K) : Elimination K := ⟨a, .range a.nrows⟩

/-- The first row, from the diagonal on, with the largest modulus in a column, and that modulus. -/
def pivot (a : Buffer K) (c : Nat) : Except Stop (Nat × R) := do
  let first ← a.read c c
  (between (c + 1) a.nrows).foldlM
    (fun best i => do
      let x ← a.read i c
      let size := MatrixScalar.modulus x
      return if best.2 < size then (i, size) else best)
    (c, MatrixScalar.modulus first)

/-- Takes a multiple of column `c` off a later one, below the diagonal. -/
def reduceLater (c : Nat) (a : Buffer K) (j : Nat) : Except Stop (Buffer K) := do
  let factor ← a.read c j
  a.alterBeside c j (c + 1) fun x y => x - factor * y

def clearColumn (a : Buffer K) (c : Nat) : Except Stop (Buffer K) := do
  let x ← a.read c c
  let inverse := 1 / x
  let a ← a.alterColumn c (c + 1) fun _ x => x * inverse
  (between (c + 1) a.nrows).foldlM (reduceLater c) a

def bring (s : Elimination K) (c i : Nat) : Except Stop (Elimination K) :=
  if i = c then .ok s
  else do
    let perm ← exchange s.perm c i
    let packed ← s.packed.swapRows c i
    return ⟨packed, perm⟩

def step (s : Elimination K) (c : Nat) : Except Stop (Elimination K) := do
  let (i, size) ← pivot s.packed c
  if size == 0 then throw (.fault .singularMatrix)
  else
    let s ← s.bring c i
    let packed ← clearColumn s.packed c
    return { s with packed }

def upTo (a : Buffer K) (k : Nat) : Except Stop (Elimination K) :=
  (List.range k).foldlM step (start a)

def pivotRatio (a : Buffer K) : Except Stop R := do
  let sizes ← (List.range a.nrows).mapM fun i => MatrixScalar.modulus <$> a.read i i
  return if a.nrows = 0 then 1 else (LU.least? sizes).getD (1 / 0) / LU.largest sizes

/-- Solves forward for one right-hand side, into a vector that is there already. -/
def forward (s : Elimination K) (b : Buffer K) (k : Nat) (y : Array K) : Except Stop (Array K) :=
  (List.range s.packed.nrows).foldlM
    (fun y i => do
      let row ← fetch s.perm i
      let start ← b.read row k
      let rest ← takeOff (s.packed.read i) (fetch y) (List.range i) start
      put y i rest)
    y

/-- Solves for one right-hand side: forward, and from there backward. -/
def solveColumn (s : Elimination K) (b : Buffer K) (t : Buffer K × Array K) (k : Nat) :
    Except Stop (Buffer K × Array K) := do
  let y ← s.forward b k t.2
  let x ← backward s.packed s.packed.nrows (fetch y) k t.1
  return (x, y)

def solve (s : Elimination K) (b : Buffer K) : Except Stop (Buffer K) := do
  let x ← Buffer.zeros s.packed.nrows b.ncols
  let (x, _) ← (List.range b.ncols).foldlM (s.solveColumn b) (x, .replicate s.packed.nrows 0)
  return x

end Elimination
end NumericArrays.Kernel
