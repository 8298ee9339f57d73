import NumericArrays.Elementwise.Arithmetic
import NumericArrays.Elementwise.Sign
import NumericArrays.Engine.Basic

/-! The matrix operators on values, on any engine. A single element makes them work element by element. -/
namespace NumericArrays

namespace Value

def coefficients (a b : Value) : Coefficients :=
  if a.isComplex || b.isComplex then .complex else .real

def ofKind (kind : Storage) (a : NDArray) : Except Fault Value := (a.convert kind).map array

end Value

namespace Engine

variable (e : Engine)

def mul (a b : Value) : Logged Value := do
  if a.isScalar || b.isScalar then Arithmetic.mul.apply a b
  else
    let c ← e.product (a.coefficients b) a.toArray b.toArray
    Value.ofKind (a.kind.arithmetic b.kind) c

/-- Transpose. The kind of the elements stays. -/
def transposed (a : Value) : Logged Value := do
  if a.dims.isUnit then return a
  else
    let x := a.toArray
    let t ← e.transpose (if x.isComplex then .complex else .real) x
    Value.ofKind x.kind t

/-- Conjugate transpose; for real values the transpose. -/
def adjointed (a : Value) : Logged Value := do
  if !a.isComplex then e.transposed a
  else if a.dims.isUnit then return a.conj
  else
    let x := a.toArray
    let h ← e.adjoint x
    Value.ofKind x.kind h

/-- The solution `x` of `a * x = b`. -/
def leftDiv (a b : Value) : Logged Value := do
  if a.isScalar || b.isScalar then Arithmetic.leftDiv.apply a b
  else
    let c ← e.solve (a.coefficients b) a.toArray b.toArray
    Value.ofKind (a.kind.arithmetic b.kind) c

/-- The solution `x` of `x * b = a`, found from the transposed system, or from the conjugate transposed one
    over the complex numbers. -/
def rightDiv (a b : Value) : Logged Value := do
  if a.isScalar || b.isScalar then Arithmetic.rightDiv.apply a b
  else
    let scalars := a.coefficients b
    let flip : NDArray → Logged NDArray :=
      match scalars with
      | .complex => e.adjoint
      | .real => e.transpose .real
    let y ← flip b.toArray
    let x ← flip a.toArray
    let c ← e.solve scalars y x
    let c ← flip c
    Value.ofKind (a.kind.arithmetic b.kind) c

end Engine
end NumericArrays
