import NumericArrays.InPlace.Copy
import NumericArrays.Value

/-! Growing and writing in place. -/
namespace NumericArrays

namespace InPlace

/-- A buffer of zeros, if the allocator grants it. -/
def allocate (dims : Shape) (n : Nat) : Except Stop (Array Float) :=
  if isAllocatable n then .ok (.replicate n 0) else .error (.fault (.outOfMemory dims))

def setShape (dims : Shape) (len : Nat) : Steps Unit := do
  modify fun m => { m with dims := dims }
  modify fun m => { m with len := len }

def setBuffers (real : Array Float) (imag : Option (Array Float)) : Steps Unit := do
  modify fun m => { m with real := real }
  modify fun m => { m with imag := imag }

/-- Buffers of zeros for an array without elements. The imaginary one is asked for last. -/
def freshBuffers (m : Memory) (dims : Shape) (n : Nat) :
    Except Stop (Array Float × Option (Array Float)) := do
  let real ← allocate dims n
  match m.imag with
  | some _ => do
    let imag ← allocate dims n
    return (real, some imag)
  | none => return (real, none)

/-- Longer buffers with the elements at their coordinates in `dims`. Both are allocated before the real
    one is filled. -/
def movedBuffers (m : Memory) (dims : Shape) (n : Nat) :
    Except Stop (Array Float × Option (Array Float)) := do
  let real ← allocate dims n
  match m.imag with
  | some im => do
    let imag ← allocate dims n
    let imag ← copyInto im m.dims dims imag
    let real ← copyInto m.real m.dims dims real
    return (real, some imag)
  | none => do
    let real ← copyInto m.real m.dims dims real
    return (real, none)

def resize (dims : Shape) : Steps Unit := do
  let dims := dims.normalize
  match dims.count? with
  | none => throw (.fault (.outOfMemory dims))
  | some count =>
    let m ← get
    if m.len = 0 then
      let (real, imag) ← check (freshBuffers m dims count)
      setBuffers real imag
      setShape dims count
    else if m.dims.exceeds dims then throw (.fault (.unsupported .shrinking))
    else if m.dims.isVector && dims.isVector && count ≤ m.real.size then setShape dims count
    else
      let length := min (growthFactor * count) maxCount
      let (real, imag) ← check (movedBuffers m dims length)
      setBuffers real imag
      setShape dims count

/-- Makes room for coordinates past the end. The shape of an array that is no vector is exchanged for a
    column, and put back on a fault. -/
def growFor (coords : List Nat) : Steps Unit := do
  let m ← get
  match coords with
  | [n] =>
    if m.dims.isVector then resize (m.dims.grownToCount n)
    else
      let column : Shape := [m.len, 1]
      modify fun m => { m with dims := column }
      tryCatch (resize (column.grownToCount n)) fun
        | .fault f => do
          modify fun now => { now with dims := m.dims }
          throw (.fault f)
        | e => throw e
  | _ => resize (m.dims.grownTo coords)

/-- Position of coordinates after making room for them if need be. -/
def placeFor (coords : List Nat) : Steps Nat := do
  match ← check (locate (← get).dims coords) with
  | some p => return p
  | none =>
    growFor coords
    let m ← get
    match ← check (locate m.dims coords) with
    | some p => return p
    | none => throw (.fault (m.dims.outOfRange coords))

/-- Converts both buffers to their ends. -/
def retag (kind : Storage) : Steps Unit := do
  modify fun m => { m with real := m.real.map kind.store }
  modify fun m => { m with imag := m.imag.map (·.map kind.store) }
  modify fun m => { m with kind := kind }

def promote : Steps Unit := do
  if (← get).imag.isNone then
    modify fun m => { m with kind := if m.kind = .logical then .double else m.kind }
    modify fun m => { m with imag := some (.replicate m.real.size 0) }

/-- Drops the imaginary buffer if all imaginary parts are zero; whether the array is real now. -/
def demote : Steps Bool := do
  let m ← get
  match m.imag with
  | none => return true
  | some im =>
    let zero := (im.extract 0 m.len).all (· == 0)
    if zero then modify fun m => { m with imag := none }
    return zero

/-- A buffer with another element at a position that it must have. -/
def storeIn (p : Nat) (x : Float) (buffer : Array Float) : Except Stop (Array Float) :=
  if p < buffer.size then .ok (buffer.setIfInBounds p x) else .error .outOfBounds

def store (p : Nat) (z : Cartesian Float) : Steps Unit := do
  let m ← get
  let real ← check (storeIn p (m.kind.store z.re) m.real)
  modify fun m => { m with real := real }
  match m.imag with
  | some im =>
    let imag ← check (storeIn p (m.kind.store z.im) im)
    modify fun m => { m with imag := some imag }
  | none => pure ()

def accommodate (v : Value) : Steps Unit := do
  if (← get).kind = .logical ∧ v.kind ≠ .logical then retag v.kind
  if v.isComplex && (← get).imag.isNone then promote

def set (coords : List Nat) (v : Value) : Steps Unit := do
  match v.scalar? with
  | none => throw (.fault (.unsupported .nonScalarAssignment))
  | some z =>
    let p ← placeFor coords
    accommodate v
    store p z

def setAt (index : List Value) (v : Value) : Steps Unit := do
  match index.mapM Value.toIndex with
  | .error f => throw (.fault f)
  | .ok coords => set coords v

def Memory.toArray (m : Memory) : NDArray := ⟨m.dims, m.real, m.imag, m.kind⟩

def ofArray (a : NDArray) : Memory := ⟨a.dims, a.size, a.real, a.imag, a.kind⟩

/-! ### Values that can be changed -/

inductive Cell where
  | number (x : Number)
  | array (m : Memory)
deriving DecidableEq

namespace Cell

def value : Cell → Value
  | number x => .number x
  | array m => .array m.toArray

def ofValue : Value → Cell
  | .number x => number x
  | .array a => array (ofArray a)

end Cell

/-- Takes steps on the array of a cell. They are taken on a copy of a number, which becomes an array if
    they succeed and stays as it is if they fail. -/
def onCell {α : Type} (s : Steps α) : EStateM Stop Cell α := do
  match ← get with
  | .array m =>
    match s.run m with
    | .ok x m => do
      modify fun _ => .array m
      return x
    | .error e m => do
      modify fun _ => .array m
      throw e
  | .number y =>
    match s.run (ofArray (.ofNumber y)) with
    | .ok x m => do
      modify fun _ => .array m
      return x
    | .error e _ => throw e

def setValue (coords : List Nat) (x : Value) : EStateM Stop Cell Unit := onCell (set coords x)

end InPlace
end NumericArrays
