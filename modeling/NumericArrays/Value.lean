import NumericArrays.NDArray.Write

/-! Values: single numbers and arrays. A number has the shape `1 x 1`. -/
namespace NumericArrays

inductive Value where
  | number (x : Number)
  | array (a : NDArray)
deriving DecidableEq

namespace Value

def dims : Value → Shape
  | number _ => [1, 1]
  | array a => a.dims

def size : Value → Nat
  | number _ => 1
  | array a => a.size

def isEmpty (v : Value) : Bool := v.size == 0

/-- The value has one element; it may still be an array. -/
def isScalar (v : Value) : Bool := v.size == 1

def isComplex : Value → Bool
  | number x => x.isComplex
  | array a => a.isComplex

def kind : Value → Storage
  | number x => x.kind
  | array a => a.kind

def isLogical (v : Value) : Bool := v.kind == .logical

def toArray : Value → NDArray
  | number x => .ofNumber x
  | array a => a

def scalar? : Value → Option (Cartesian Float)
  | number x => some x.toCartesian
  | array a => if a.isScalar then some (a.cartesian 0) else none

def asEntry (v : Value) : Option Entry := v.scalar?.map (⟨v.kind, v.isComplex, ·⟩)

/-- Drops imaginary parts that are all zero and takes the number out of a `1 x 1` array. Single arrays
    stay arrays, because numbers are double. -/
def demote : Value → Value
  | number x => number x.demote
  | array a =>
    let a := a.demote
    if a.isScalar && a.dims.isMatrix && a.kind != .single then number (a.number 0) else array a

def equal : Value → Value → Bool
  | number x, number y => x.equal y
  | array a, array b => a.equal b
  | _, _ => false

def text : Value → String
  | number x => x.text
  | array a => a.text

def get (v : Value) (coords : List Nat) : Except Fault Value :=
  match v with
  | array a => (a.get coords).map number
  | number x => (Shape.find [1, 1] coords).map fun _ => number x

/-- The value as a coordinate: a real whole number. Those below 1 become 0, for the fault to be raised
    where the axis is known, and those past the last count become that count. -/
def toIndex (v : Value) : Except Fault Nat :=
  match v.scalar? with
  | none => .error (.unsupported .nonScalarIndex)
  | some z =>
    if z.im != 0 then .error (.complexValue .index)
    else if Binary64.isIntegral z.re then .ok (if z.re < 1 then 0 else z.re.toUInt64.toNat)
    else .error (.invalidIndex z.re)

end Value

namespace NDArray

def set (a : NDArray) (coords : List Nat) (v : Value) : Except Fault NDArray :=
  match v.asEntry with
  | none => .error (.unsupported .nonScalarAssignment)
  | some e => a.write coords e

def getAt (a : NDArray) (index : List Value) : Except Fault Number := do
  a.get (← index.mapM Value.toIndex)

def setAt (a : NDArray) (index : List Value) (v : Value) : Except Fault NDArray := do
  a.set (← index.mapM Value.toIndex) v

end NDArray

/-- Writes an element at coordinates. A number that is written to becomes an array. -/
def Value.set (v : Value) (coords : List Nat) (x : Value) : Except Fault Value :=
  (v.toArray.set coords x).map .array

end NumericArrays
