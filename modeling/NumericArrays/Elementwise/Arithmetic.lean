import NumericArrays.Scalar.Power
import NumericArrays.Value

/-! Elements of two operands in pairs, and arithmetic on values, element by element. -/
namespace NumericArrays

namespace Elementwise

/-- Position in an operand that belongs to position `i` of the result. The element of an operand that
    has only one is used for all. -/
def source (a : NDArray) (i : Nat) : Nat := if a.isScalar then 0 else i

/-- Shape of the result. Unless an operand has only one element the shapes must agree. -/
def broadcast (a b : NDArray) : Except Fault Shape :=
  if a.isScalar then .ok b.dims
  else if b.isScalar || a.dims.same b.dims then .ok a.dims
  else .error (.shapeMismatch a.dims b.dims)

def bothScalar (a b : NDArray) : Bool := a.isScalar && b.isScalar

/-- A result of truth values; it is a number if both operands are single elements. -/
def logicalResult (a b : NDArray) (dims : Shape) (f : Nat → Bool) : Value :=
  if bothScalar a b then .number (.logical (f 0))
  else .array ⟨dims, .ofFn fun i : Fin dims.count => ofBool (f i), none, .logical⟩

end Elementwise

/-- The arithmetic operators. `leftDiv` divides its second operand by its first. -/
inductive Arithmetic where
  | add
  | sub
  | mul
  | rightDiv
  | leftDiv
  | power
deriving DecidableEq, Repr

namespace Arithmetic

def real : Arithmetic → Float → Float → Float
  | add, x, y => x + y
  | sub, x, y => x - y
  | mul, x, y => x * y
  | rightDiv, x, y => x / y
  | leftDiv, x, y => y / x
  | power, x, y => Power.real x y

def complex : Arithmetic → Cartesian Float → Cartesian Float → Cartesian Float
  | add, a, b => a + b
  | sub, a, b => a - b
  | mul, a, b => a.product b
  | rightDiv, a, b => a.quotient b
  | leftDiv, a, b => b.quotient a
  | power, a, b => Power.complex a b

/-- The result of two real numbers is not real. -/
def leavesReals : Arithmetic → Float → Float → Bool
  | power, x, y => Power.leavesReals x y
  | _, _, _ => false

/-- On single numbers. The result is complex if an operand is, or if it leaves the reals. -/
def onNumbers (op : Arithmetic) (x y : Number) : Number :=
  let a := x.toCartesian
  let b := y.toCartesian
  if x.isComplex || y.isComplex || op.leavesReals a.re b.re then .complex (op.complex a b)
  else .real (op.real a.re b.re)

/-- The whole operation has to run on complex numbers: an operand is complex, or some pair of its
    elements leaves the reals. -/
def needsComplex (op : Arithmetic) (a b : NDArray) (n : Nat) : Bool :=
  a.isComplex || b.isComplex || (List.range n).any fun i =>
    op.leavesReals (a.re (Elementwise.source a i)) (b.re (Elementwise.source b i))

def realElement (op : Arithmetic) (a b : NDArray) (i : Nat) : Float :=
  (a.kind.arithmetic b.kind).store
    (op.real (a.re (Elementwise.source a i)) (b.re (Elementwise.source b i)))

def complexElement (op : Arithmetic) (a b : NDArray) (i : Nat) : Cartesian Float :=
  let kind := a.kind.arithmetic b.kind
  let z := op.complex (a.cartesian (Elementwise.source a i)) (b.cartesian (Elementwise.source b i))
  ⟨kind.store z.re, kind.store z.im⟩

/-- On arrays. Two single elements give a number, unless the result is single. Complex results stay
    complex even if no element has an imaginary part. -/
def onArrays (op : Arithmetic) (a b : NDArray) : Except Fault Value := do
  let dims ← Elementwise.broadcast a b
  let kind := a.kind.arithmetic b.kind
  let isNumber := kind == .double && Elementwise.bothScalar a b
  if op.needsComplex a b dims.count then
    if isNumber then return .number (.complex (op.complexElement a b 0))
    let zs := Array.ofFn fun i : Fin dims.count => op.complexElement a b i
    return .array ⟨dims, zs.map (·.re), some (zs.map (·.im)), kind⟩
  else
    if isNumber then return .number (.real (op.realElement a b 0))
    return .array ⟨dims, .ofFn fun i : Fin dims.count => op.realElement a b i, none, kind⟩

def apply (op : Arithmetic) (a b : Value) : Except Fault Value :=
  match a, b with
  | .number x, .number y => .ok (.number (op.onNumbers x y))
  | _, _ => op.onArrays a.toArray b.toArray

end Arithmetic
end NumericArrays
