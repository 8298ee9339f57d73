import NumericArrays.Engine.Basic
import NumericArrays.Kernel.LU
import NumericArrays.Kernel.QR

/-! The operations of the engine in memory: arrays are read into matrices, and results are made into arrays
    again. -/
namespace NumericArrays

/-- Numbers that are read out of an array at a position that must be there. -/
class Loadable (K : Type) where
  load : NDArray → Nat → Except InPlace.Stop K

/-- Real parts are read without the room at the end. -/
instance : Loadable Float where
  load a p := do
    let reals ← Kernel.slice a.real 0 a.size
    Kernel.fetch reals p

/-- A missing imaginary part is zero. -/
instance : Loadable (Cartesian Float) where
  load a p := do
    let im ← match a.imag with
      | some im => Kernel.fetch im p
      | none => .ok 0
    let re ← Kernel.fetch a.real p
    return ⟨re, im⟩

namespace Buffer

open InPlace (Stop)

variable {K : Type}

def ofArray [Loadable K] (a : NDArray) : Except Stop (Buffer K) :=
  if a.dims.isMatrix then do
    let data ← (List.range a.size).mapM (Loadable.load a)
    return ⟨data.toArray, a.rows, a.cols⟩
  else .error (.fault (.unsupported .notTwoDimensional))

/-- The matrix as an array. There must be an element for every place. -/
def toArray [ArrayElement K] (b : Buffer K) : Except Stop NDArray :=
  if Shape.count? [b.nrows, b.ncols] = some b.data.size then
    .ok (ArrayElement.pack [b.nrows, b.ncols] b.data)
  else .error .outOfBounds

end Buffer

namespace Kernel

open InPlace (Stop)
open Mat (rankWarnings)

section Systems

variable {K R : Type} [Arith K] [Arith R] [LT R] [DecidableLT R] [RealScalar R] [MatrixScalar K R]

structure Solved (K R : Type) where
  solution : Buffer K
  warnings : List (Warning R)

def solveSquare (a b : Buffer K) : Except Stop (Solved K R) := do
  let f ← Elimination.upTo a a.nrows
  let ratio ← Elimination.pivotRatio f.packed
  let solution ← f.solve b
  return ⟨solution, if ratio < RealScalar.epsilon then [.nearlySingular ratio] else []⟩

def copyRow (y x : Buffer K) (p i : Nat) : Except Stop (Buffer K) :=
  (List.range y.ncols).foldlM
    (fun x j => do
      let z ← y.read i j
      x.write p j z)
    x

def scatter (perm : Array Nat) (y : Buffer K) (n : Nat) : Except Stop (Buffer K) := do
  let x ← Buffer.zeros n y.ncols
  perm.toList.zipIdx.foldlM (fun x (p, i) => copyRow y x p i) x

def solveTall (a b : Buffer K) : Except Stop (Solved K R) := do
  let f ← Reflections.factor a
  let rank ← Reflections.rank f.packed
  let c ← f.applyAdjoint b
  let y ← solveUpper f.packed rank c a.ncols
  let solution ← scatter f.perm y a.ncols
  return ⟨solution, rankWarnings rank a.ncols⟩

def gather (perm : Array Nat) (b : Buffer K) (m : Nat) : Except Stop (Buffer K) :=
  Buffer.fromFn m b.ncols fun i j => do
    let row ← fetch perm i
    b.read row j

def solveWide (a b : Buffer K) : Except Stop (Solved K R) := do
  let adjoint ← transposeWith MatrixScalar.conj a
  let f ← Reflections.factor adjoint
  let rank ← Reflections.rank f.packed
  let c ← gather f.perm b a.nrows
  let z ← solveUpperAdjoint f.packed rank c a.ncols
  let solution ← f.applyOrthogonal z
  return ⟨solution, rankWarnings rank a.nrows⟩

/-- Solves `a * x = b`. Without equations or without unknowns the solution is zero. -/
def solveSystem (a b : Buffer K) : Except Stop (Solved K R) :=
  if a.nrows = 0 ∨ a.ncols = 0 then do
    let solution ← Buffer.zeros a.ncols b.ncols
    return ⟨solution, []⟩
  else if a.nrows = a.ncols then solveSquare a b
  else if a.ncols < a.nrows then solveTall a b
  else solveWide a b

end Systems

/-! ### Arrays -/

section Arrays

variable (K : Type) [Loadable K] [ArrayElement K] [Arith K]

def multiply (a b : NDArray) : Except Stop NDArray := do
  let x : Buffer K ← Buffer.ofArray a
  let y : Buffer K ← Buffer.ofArray b
  if x.ncols ≠ y.nrows then throw (.fault (.shapeMismatch a.dims b.dims))
  else
    let z ← product x y
    z.toArray

def transpose (f : K → K) (a : NDArray) : Except Stop NDArray := do
  let x : Buffer K ← Buffer.ofArray a
  let z ← transposeWith f x
  z.toArray

def solve [MatrixScalar K Float] (a b : NDArray) : Except Stop (NDArray × List (Warning Float)) := do
  let x : Buffer K ← Buffer.ofArray a
  let y : Buffer K ← Buffer.ofArray b
  if x.nrows ≠ y.nrows then throw (.fault (.shapeMismatch a.dims b.dims))
  else
    let s ← solveSystem x y
    let c ← s.solution.toArray
    return (c, s.warnings)

end Arrays

end Kernel
end NumericArrays
