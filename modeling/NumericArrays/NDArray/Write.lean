import NumericArrays.NDArray.Basic

/-! Writing single elements, and growing an array to a larger shape for them. -/
namespace NumericArrays

/-- Room kept for each element when buffers are laid out anew. -/
def growthFactor : Nat := 2

namespace NDArray

/-- A buffer of the given length for the shape `new`, holding the elements of `buffer`, which has the
    shape `old`, at their coordinates and zero elsewhere. -/
def relocate (old new : Shape) (length : Nat) (buffer : Array Float) : Array Float :=
  let count := new.count
  .ofFn fun p : Fin length =>
    let coords := new.coordsOf p
    if p < count && old.covers coords then buffer.getD (old.offset coords) 0 else 0

/-- Grows to `dims`. Elements keep their coordinates and new ones are zero. Empty arrays get buffers of
    exactly the new size. Vectors with enough room only change their shape. All other arrays move to
    buffers with room to spare. -/
def resize (a : NDArray) (dims : Shape) : Except Fault NDArray :=
  let dims := dims.normalize
  match dims.count? with
  | none => .error (.outOfMemory dims)
  | some count =>
    if a.isEmpty then
      if isAllocatable count then
        .ok { a with
          dims
          real := .replicate count 0
          imag := a.imag.map fun _ => .replicate count 0 }
      else .error (.outOfMemory dims)
    else if a.dims.exceeds dims then .error (.unsupported .shrinking)
    else if a.dims.isVector && dims.isVector && count ≤ a.capacity then .ok { a with dims }
    else
      let length := min (growthFactor * count) maxCount
      if isAllocatable length then
        let move := relocate a.dims dims length
        .ok { a with dims, real := move a.real, imag := a.imag.map move }
      else .error (.outOfMemory dims)

end NDArray

/-- An element to write, with the kind and form of the value it comes from. -/
structure Entry where
  kind : Storage
  isComplex : Bool
  value : Cartesian Float

namespace NDArray

/-- Makes room for coordinates that lie past the end. A single coordinate past the end of an array that
    is no vector turns it into a column first. -/
def growFor (a : NDArray) (coords : List Nat) : Except Fault NDArray :=
  match coords with
  | [n] =>
    if a.dims.isVector then a.resize (a.dims.grownToCount n)
    else
      let column : Shape := [a.size, 1]
      { a with dims := column }.resize (column.grownToCount n)
  | _ => a.resize (a.dims.grownTo coords)

/-- Gives a logical array the kind of the element to come, and a real array an imaginary part if the
    element has one. -/
def accommodate (a : NDArray) (e : Entry) : NDArray :=
  let a := if a.kind = .logical ∧ e.kind ≠ .logical then a.retag e.kind else a
  if e.isComplex then a.promote else a

def store (a : NDArray) (p : Nat) (z : Cartesian Float) : NDArray :=
  { a with
    real := a.real.setIfInBounds p (a.kind.store z.re)
    imag := a.imag.map (·.setIfInBounds p (a.kind.store z.im)) }

/-- Writes an element at coordinates. The array grows to hold it and takes on what the element needs;
    on a fault nothing is written. -/
def write (a : NDArray) (coords : List Nat) (e : Entry) : Except Fault NDArray := do
  match ← a.dims.locate coords with
  | some p => .ok ((a.accommodate e).store p e.value)
  | none =>
    let grown ← a.growFor coords
    let p ← grown.dims.find coords
    .ok ((grown.accommodate e).store p e.value)

end NDArray
end NumericArrays
