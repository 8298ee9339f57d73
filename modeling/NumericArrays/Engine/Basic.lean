import NumericArrays.Engine.Logged
import NumericArrays.Mat.OfArray

/-! Matrix engines: what the matrix operators rely on. -/
namespace NumericArrays

/-- Operations on arrays with two axes. Over the real numbers imaginary parts are not read; over the
    complex numbers those that are missing are zero, and the result is complex. -/
structure Engine where
  product : Coefficients → NDArray → NDArray → Logged NDArray
  transpose : Coefficients → NDArray → Logged NDArray
  /-- The conjugate transpose, over the complex numbers. -/
  adjoint : NDArray → Logged NDArray
  /-- The solution `x` of `a * x = b`. -/
  solve : Coefficients → NDArray → NDArray → Logged NDArray

namespace Engine

/-- Writes each request into the log before it is passed on. -/
def recording (e : Engine) : Engine where
  product scalars a b := do
    Logged.emit [.request (.product scalars a.dims b.dims)]
    e.product scalars a b
  transpose scalars a := do
    Logged.emit [.request (.transpose scalars a.dims)]
    e.transpose scalars a
  adjoint a := do
    Logged.emit [.request (.adjoint a.dims)]
    e.adjoint a
  solve scalars a b := do
    Logged.emit [.request (.solve scalars a.dims b.dims)]
    e.solve scalars a b

end Engine

namespace Dense

def checkMatrix (a : NDArray) : Except Fault Unit :=
  if a.dims.isMatrix then .ok () else .error (.unsupported .notTwoDimensional)

section

variable (K : Type) {R : Type} [ArrayElement K]

/-- A matrix as an array, unless it has more entries than an array can count. -/
def result {m n : Nat} (a : Unit → Mat K m n) : Except Fault NDArray :=
  if m * n ≤ maxCount then .ok (Mat.collect a) else .error (.uncountable [m, n])

def product [Arith K] (a b : NDArray) : Except Fault NDArray := do
  checkMatrix a
  checkMatrix b
  if a.cols = b.rows then
    result K fun _ =>
      let x : Mat K a.rows a.cols := .ofArray a a.rows a.cols
      let y : Mat K a.cols b.cols := .ofArray b a.cols b.cols
      x.product y
  else throw (.shapeMismatch a.dims b.dims)

/-- The transpose of an array with entries in `K`, with `f` applied to every entry. -/
def transpose [Arith K] (f : K → K) (a : NDArray) : Except Fault NDArray := do
  checkMatrix a
  return Mat.collect fun _ =>
    let x : Mat K a.rows a.cols := .ofArray a a.rows a.cols
    x.transposeWith f

/-- The solution of a system with entries in `K`, with its warnings. Without equations or without unknowns
    it is zero. -/
def solve [Arith K] [MatrixScalar K Float] (a b : NDArray) : Logged NDArray := do
  checkMatrix a
  checkMatrix b
  if a.rows ≠ b.rows then Logged.ofExcept (.error (.shapeMismatch a.dims b.dims))
  else if a.rows = 0 ∨ a.cols = 0 then result K fun _ => (Mat.zero : Mat K a.cols b.cols)
  else
    let x : Mat K a.rows a.cols := .ofArray a a.rows a.cols
    let y : Mat K a.rows b.cols := .ofArray b a.rows b.cols
    match x.solve (R := Float) y with
    | none => Logged.ofExcept (.error .singularMatrix)
    | some s =>
      Logged.emit (s.warnings.map .warning)
      result K fun _ => s.solution

end

end Dense

/-- The engine of this library. Results are double. -/
def Engine.dense : Engine where
  product
    | .real, a, b => Logged.ofExcept (Dense.product Float a b)
    | .complex, a, b => Logged.ofExcept (Dense.product (Cartesian Float) a b)
  transpose
    | .real, a => Logged.ofExcept (Dense.transpose Float id a)
    | .complex, a => Logged.ofExcept (Dense.transpose (Cartesian Float) id a)
  adjoint a := Logged.ofExcept (Dense.transpose (Cartesian Float) Cartesian.conj a)
  solve
    | .real, a, b => Dense.solve Float a b
    | .complex, a, b => Dense.solve (Cartesian Float) a b

end NumericArrays
