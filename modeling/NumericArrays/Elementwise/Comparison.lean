import NumericArrays.Elementwise.Arithmetic

/-! Comparing values, element by element. -/
namespace NumericArrays

inductive Comparison where
  | lt
  | le
  | gt
  | ge
  | eq
  | ne
deriving DecidableEq, Repr

namespace Comparison

/-- On real numbers. NaN is unequal to all numbers and in no order with any. -/
def real : Comparison → Float → Float → Bool
  | lt, x, y => x < y
  | le, x, y => x ≤ y
  | gt, x, y => y < x
  | ge, x, y => y ≤ x
  | eq, x, y => x == y
  | ne, x, y => x != y

/-- On complex numbers. The order is that of the real parts; equality is that of both parts. -/
def complex : Comparison → Cartesian Float → Cartesian Float → Bool
  | eq, a, b => a.re == b.re && a.im == b.im
  | ne, a, b => a.re != b.re || a.im != b.im
  | order, a, b => order.real a.re b.re

def element (op : Comparison) (a b : NDArray) (i : Nat) : Bool :=
  let p := Elementwise.source a i
  let q := Elementwise.source b i
  if a.isComplex || b.isComplex then op.complex (a.cartesian p) (b.cartesian q)
  else op.real (a.re p) (b.re q)

def apply (op : Comparison) (a b : Value) : Except Fault Value := do
  let a := a.toArray
  let b := b.toArray
  let dims ← Elementwise.broadcast a b
  return Elementwise.logicalResult a b dims (op.element a b)

end Comparison
end NumericArrays
