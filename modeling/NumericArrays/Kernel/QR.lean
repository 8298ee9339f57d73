import NumericArrays.Kernel.Triangular
import NumericArrays.Mat.QR

/-! Orthogonal-triangular factors in memory. The factors take the place of the matrix. -/
namespace NumericArrays.Kernel

open InPlace (Stop)
open MatrixScalar (conj modulus normSq)

variable {K R : Type} [Arith K] [Arith R] [LT R] [DecidableLT R] [RealScalar R] [MatrixScalar K R]

/-- The product of two slices, with the first one conjugated. -/
def dot (v x : Array K) : K := (v.zip x).foldl (fun sum (y, z) => sum + conj y * z) 0

structure Reflections (K : Type) where
  packed : Buffer K
  factors : Array K
  perm : Array Nat

namespace Reflections

def start (a : Buffer K) : Reflections K :=
  ⟨a, .replicate (min a.nrows a.ncols) 0, .range a.ncols⟩

/-- The first column, from `c` on, that is longest from row `c` on, and the square of its length. -/
def pivot (a : Buffer K) (c : Nat) : Except Stop (Nat × R) :=
  (between c a.ncols).foldlM
    (fun best j => do
      let xs ← a.column j c
      let length := xs.foldl (fun sum x => sum + normSq x) 0
      return if best.2 < length then (j, length) else best)
    (c, -1)

def bring (s : Reflections K) (c j : Nat) : Except Stop (Reflections K) :=
  if j = c then .ok s
  else do
    let packed ← s.packed.swapColumns c j
    let perm ← exchange s.perm c j
    return { s with packed, perm }

/-- Reflects column `j` along the vector below the diagonal of an earlier column `c`. -/
def reflectLater (t : K) (c : Nat) (a : Buffer K) (j : Nat) : Except Stop (Buffer K) := do
  let (v, x) ← a.twoColumns c j (c + 1)
  let lead ← a.read c j
  let component := (dot v x + lead) * t
  let lead ← a.read c j
  let a ← a.write c j (lead - component)
  a.alterBeside c j (c + 1) fun x y => x - component * y

/-- Reflects column `c` onto the axis, and the columns after it with it. -/
def clearColumn (s : Reflections K) (c : Nat) (length : R) : Except Stop (Reflections K) := do
  let x ← s.packed.read c c
  let sigma := PivotedQR.directed length x
  let lead := x + sigma
  let t := lead / sigma
  let factors ← put s.factors c t
  let inverse := 1 / lead
  let a ← s.packed.alterColumn c (c + 1) fun _ x => x * inverse
  let a ← (between (c + 1) a.ncols).foldlM (reflectLater t c) a
  let packed ← a.write c c (-sigma)
  return { s with packed, factors }

def step (s : Reflections K) (c : Nat) : Except Stop (Reflections K) := do
  let (j, best) ← pivot s.packed c
  let s ← s.bring c j
  let lengthSq := if best < 0 then 0 else best
  if lengthSq == 0 then
    let factors ← put s.factors c 0
    return { s with factors }
  else s.clearColumn c (RealScalar.sqrt lengthSq)

def upTo (a : Buffer K) (k : Nat) : Except Stop (Reflections K) :=
  (List.range k).foldlM step (start a)

def factor (a : Buffer K) : Except Stop (Reflections K) := upTo a (min a.nrows a.ncols)

/-! ### What the factors are used for -/

/-- Reflects column `k` of `x` along the vector with a 1 in row `c` and the entries of `v` below it. -/
def reflectColumn (v : Array K) (t : K) (c : Nat) (x : Buffer K) (k : Nat) : Except Stop (Buffer K) := do
  let lead ← x.read c k
  let below ← x.column k (c + 1)
  let component := (lead + dot v below) * t
  let lead ← x.read c k
  let x ← x.write c k (lead - component)
  x.alterColumn k (c + 1) (along v fun x y => x - component * y)

def reflectAt (s : Reflections K) (x : Buffer K) (t : K) (c : Nat) : Except Stop (Buffer K) :=
  if t == 0 then .ok x
  else do
    let v ← s.packed.column c (c + 1)
    (List.range x.ncols).foldlM (reflectColumn v t c) x

def applyAdjoint (s : Reflections K) (x : Buffer K) : Except Stop (Buffer K) :=
  s.factors.toList.zipIdx.foldlM (fun x (t, c) => s.reflectAt x t c) x

def applyOrthogonal (s : Reflections K) (x : Buffer K) : Except Stop (Buffer K) :=
  s.factors.toList.zipIdx.reverse.foldlM (fun x (t, c) => s.reflectAt x t c) x

/-- How many of the `k` numbers from `i` on pass a test before the first that does not. Later ones are not
    looked at. -/
def countWhile (test : Nat → Except Stop Bool) (i : Nat) : Nat → Except Stop Nat
  | 0 => .ok 0
  | k + 1 => do
    if ← test i then return (← countWhile test (i + 1) k) + 1
    else return 0

def rank (a : Buffer K) : Except Stop Nat := do
  let k := min a.nrows a.ncols
  if k = 0 then return 0
  else
    let first ← a.read 0 0
    let tolerance := RealScalar.ofNat (max a.nrows a.ncols) * RealScalar.epsilon * modulus first
    countWhile (fun i => do return tolerance < modulus (← a.read i i)) 0 k

end Reflections
end NumericArrays.Kernel
