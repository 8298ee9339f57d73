import NumericArrays.Number
import NumericArrays.Shape.Basic

/-! Arrays with any number of axes, of real, complex or logical elements, and their written form. -/
namespace NumericArrays

/-- Elements lie in buffers, the first axis fastest. Buffers may be longer than the shape asks for; the
    room at their end is zero. An array without imaginary buffer is real. -/
structure NDArray where
  dims : Shape
  real : Array Float
  imag : Option (Array Float)
  kind : Storage
deriving DecidableEq

namespace NDArray

def size (a : NDArray) : Nat := a.dims.count

def capacity (a : NDArray) : Nat := a.real.size

def isEmpty (a : NDArray) : Bool := a.size == 0

def isScalar (a : NDArray) : Bool := a.size == 1

def isComplex (a : NDArray) : Bool := a.imag.isSome

def isLogical (a : NDArray) : Bool := a.kind == .logical

structure WellFormed (a : NDArray) : Prop where
  two_axes : 2 ≤ a.dims.length
  extent_le : ∀ d ∈ a.dims, d ≤ maxCount
  counted : a.dims.count? = some a.size
  size_le : a.size ≤ a.capacity
  imag_size : ∀ im, a.imag = some im → im.size = a.capacity
  real_zero : ∀ p, a.size ≤ p → (h : p < a.real.size) → a.real[p] = 0
  imag_zero : ∀ im, a.imag = some im → ∀ p, a.size ≤ p → (h : p < im.size) → im[p] = 0
  logical_real : a.kind = .logical → a.imag = none

/-! ### Elements by position -/

def re (a : NDArray) (p : Nat) : Float := a.real.getD p 0

/-- Imaginary part at a position, zero in a real array. -/
def im (a : NDArray) (p : Nat) : Float :=
  match a.imag with
  | some im => im.getD p 0
  | none => 0

def cartesian (a : NDArray) (p : Nat) : Cartesian Float := ⟨a.re p, a.im p⟩

/-- Element at a position in the form that suits the array. -/
def number (a : NDArray) (p : Nat) : Number :=
  match a.kind, a.imag with
  | .logical, _ => .logical (a.re p != 0)
  | _, some _ => .complex (a.cartesian p)
  | _, none => .real (a.re p)

/-- Real parts of the elements, without the room at the end. -/
def reals (a : NDArray) : Array Float := a.real.extract 0 a.size

def imags (a : NDArray) : Option (Array Float) := a.imag.map (·.extract 0 a.size)

/-- Element at coordinates. Reading never grows an array. -/
def get (a : NDArray) (coords : List Nat) : Except Fault Number :=
  (a.dims.find coords).map a.number

/-! ### Making arrays -/

def empty : NDArray := ⟨[0, 0], #[], none, .double⟩

/-- All elements zero; a buffer must have room for them. -/
def zeros? (dims : Shape) (kind : Storage) : Option NDArray := do
  let dims := dims.normalize
  let count ← dims.count?
  if isAllocatable count then some ⟨dims, .replicate count 0, none, kind⟩ else none

/-- Real elements in storage order; their number must fit the shape. -/
def ofReals? (dims : Shape) (real : Array Float) (kind : Storage) : Option NDArray :=
  let dims := dims.normalize
  if dims.count? = some real.size then some ⟨dims, real, none, kind⟩ else none

def ofParts? (dims : Shape) (real imag : Array Float) : Option NDArray := do
  let a ← ofReals? dims real .double
  if imag.size = a.size then some { a with imag := some imag } else none

def ofCartesian? (dims : Shape) (zs : Array (Cartesian Float)) : Option NDArray :=
  ofParts? dims (zs.map (·.re)) (zs.map (·.im))

def ofBools? (dims : Shape) (bs : Array Bool) : Option NDArray :=
  ofReals? dims (bs.map ofBool) .logical

/-- Real elements by position; a buffer must have room for them. -/
def ofFn? (dims : Shape) (f : Nat → Float) : Option NDArray := do
  let dims := dims.normalize
  let count ← dims.count?
  if isAllocatable count then some ⟨dims, .ofFn fun p : Fin count => f p, none, .double⟩ else none

def ofNumber : Number → NDArray
  | .real x => ⟨[1, 1], #[x], none, .double⟩
  | .logical b => ⟨[1, 1], #[ofBool b], none, .logical⟩
  | .complex z => ⟨[1, 1], #[z.re], some #[z.im], .double⟩

/-! ### Real and complex, wide and narrow -/

/-- The same numbers with an imaginary part. Truth values become double. -/
def promote (a : NDArray) : NDArray :=
  match a.imag with
  | some _ => a
  | none =>
    { a with
      imag := some (.replicate a.capacity 0)
      kind := if a.kind = .logical then .double else a.kind }

def hasZeroImag (a : NDArray) : Bool :=
  match a.imags with
  | some im => im.all (· == 0)
  | none => true

def demote (a : NDArray) : NDArray := if a.hasZeroImag then { a with imag := none } else a

/-- The elements in another kind, without a check. Both buffers are converted to their ends. -/
def retag (a : NDArray) (kind : Storage) : NDArray :=
  { a with
    real := a.real.map kind.store
    imag := a.imag.map (·.map kind.store)
    kind }

/-- Conversion to another kind. Complex elements and NaN have no truth value. -/
def convert (a : NDArray) (kind : Storage) : Except Fault NDArray :=
  if kind = a.kind then .ok a
  else if kind = .logical then
    if !a.hasZeroImag then .error (.complexValue .logicalConversion)
    else if a.reals.any (·.isNaN) then .error (.unsupported .logicalOfNaN)
    else .ok { a.retag .logical with imag := none }
  else .ok (a.retag kind)

/-- Equal shape up to ones at the end, equal kind, equal elements. An array without imaginary part
    equals one whose imaginary part is zero. -/
def equal (a b : NDArray) : Bool :=
  a.dims.same b.dims && a.kind == b.kind && a.reals == b.reals &&
    match a.imags, b.imags with
    | none, none => true
    | some x, some y => x == y
    | some x, none | none, some x => x.all (· == 0)

/-! ### Written form, page by page -/

def elementText (a : NDArray) (p : Nat) : String :=
  match a.imag with
  | some _ => Number.complexText (a.cartesian p)
  | none => Decimal.Style.plain.write (a.re p)

def rowText (a : NDArray) (page row : Nat) : String :=
  let rows := a.dims.extent 0
  let cols := a.dims.extent 1
  " ".intercalate ((List.range cols).map fun col =>
    a.elementText (page * (rows * cols) + row + col * rows))

def pageText (a : NDArray) (page : Nat) : String :=
  .join ((List.range (a.dims.extent 0)).map fun row => a.rowText page row ++ "\n")

/-- The pages in storage order, each under its number if there are several. Pages without elements show
    the shape instead. -/
def text (a : NDArray) : String :=
  let page := a.dims.extent 0 * a.dims.extent 1
  if page = 0 then "[](" ++ dimsText a.dims ++ ")"
  else
    let pages := a.size / page
    .join ((List.range pages).map fun i =>
      (if 1 < pages then "page " ++ toString (i + 1) ++ ":\n" else "") ++ a.pageText i)

end NDArray
end NumericArrays
