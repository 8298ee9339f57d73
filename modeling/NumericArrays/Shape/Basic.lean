import NumericArrays.Fault

/-! Array shapes: lists of extents, read as if they went on with ones for ever. Coordinates count from one,
    positions in storage from zero. -/
namespace NumericArrays

/-- Extents by axis. The first axis varies fastest in storage. -/
abbrev Shape := List Nat

/-- Largest number of elements that can be counted, `2 ^ 64 - 1`. -/
def maxCount : Nat := 0xFFFFFFFFFFFFFFFF

/-- A buffer of `n` elements of eight bytes has at most `2 ^ 63 - 1` bytes. -/
def isAllocatable (n : Nat) : Bool := 8 * n ≤ 0x7FFFFFFFFFFFFFFF

namespace Shape

/-- Extent along an axis; axes past the end of the list have extent 1. -/
def extent (s : Shape) (axis : Nat) : Nat := s.getD axis 1

/-- Number of axes on which one of two lists says something. -/
def commonRank (s t : List Nat) : Nat := max s.length t.length

/-- The product of the extents. It is `none` as soon as the extents so far pass `maxCount`, whatever
    follows. -/
def count? (s : Shape) : Option Nat :=
  s.foldlM (fun n d => if n * d ≤ maxCount then some (n * d) else none) 1

def count (s : Shape) : Nat := s.count?.getD maxCount

def same (s t : Shape) : Bool :=
  (List.range (commonRank s t)).all fun axis => s.extent axis == t.extent axis

/-- Shapes have two axes at least: no extents mean `1 x 1`, a single one means a row. -/
def normalize : Shape → Shape
  | [] => [1, 1]
  | [n] => [1, n]
  | s => s

def pad (s : Shape) (rank : Nat) : Shape := s ++ List.replicate (rank - s.length) 1

/-- At most one extent differs from 1. Single elements are vectors, and so are shapes like `1 x 0`. -/
def isVector (s : Shape) : Bool := s.countP (· != 1) ≤ 1

def isMatrix (s : Shape) : Bool := (s.drop 2).all (· == 1)

def isUnit (s : Shape) : Bool := s.all (· == 1)

/-- Distance in storage between neighbours along each axis, from the first axis on, when those along
    the first are `unit` apart. -/
def stridesFrom (unit : Nat) : Shape → List Nat
  | [] => []
  | d :: s => unit :: stridesFrom (unit * d) s

/-- Distances in storage, as 64-bit words. -/
def strides (s : Shape) : List Nat := (stridesFrom 1 s).map (· % (maxCount + 1))

/-! ### Positions -/

/-- Offset of zero-based coordinates; coordinates that are missing are zero, and those past the last
    axis count as if the array ended there. -/
def offset : Shape → List Nat → Nat
  | _, [] => 0
  | [], c :: cs => c + offset [] cs
  | d :: s, c :: cs => c + d * offset s cs

/-- Zero-based coordinates of a position, one for each axis. -/
def coordsOf : Shape → Nat → List Nat
  | [], _ => []
  | d :: s, p => p % d :: coordsOf s (p / d)

/-- Zero-based coordinates lie within the extents; missing ones are zero. -/
def covers (s : Shape) (coords : List Nat) : Bool :=
  (List.range (commonRank s coords)).all fun axis => coords.getD axis 0 < s.extent axis

/-- The first axis on which a coordinate lies past the extent. Missing coordinates are 1. -/
def exceededAxis? (s : Shape) (coords : List Nat) : Option Nat :=
  (List.range (commonRank s coords)).find? fun axis => s.extent axis < coords.getD axis 1

/-- Position of coordinates, `none` if one of them lies past its extent. A single coordinate counts
    through the whole array. A coordinate zero is a fault, whatever the others are. -/
def locate (s : Shape) (coords : List Nat) : Except Fault (Option Nat) :=
  match coords.findIdx? (· == 0) with
  | some axis => .error (.indexBelowOne axis)
  | none =>
    match coords with
    | [k] => .ok (if k ≤ s.count then some (k - 1) else none)
    | _ =>
      match s.exceededAxis? coords with
      | some _ => .ok none
      | none => .ok (some (s.offset (coords.map (· - 1)) % (maxCount + 1)))

def outOfRange (s : Shape) (coords : List Nat) : Fault :=
  match coords with
  | [k] => .indexOutOfRange k 0 s.count
  | _ =>
    match s.exceededAxis? coords with
    | some axis => .indexOutOfRange (coords.getD axis 1) axis (s.extent axis)
    | none => .indexOutOfRange 0 0 0

def find (s : Shape) (coords : List Nat) : Except Fault Nat := do
  match ← s.locate coords with
  | some p => .ok p
  | none => .error (s.outOfRange coords)

/-! ### Shapes after a write past the end -/

def exceeds (s t : Shape) : Bool :=
  (List.range (commonRank s t)).any fun axis => t.extent axis < s.extent axis

def grownTo (s : Shape) (coords : List Nat) : Shape :=
  (List.range (commonRank s coords)).map fun axis => max (s.extent axis) (coords.getD axis 1)

/-- Shape with room for `n` elements counted through the whole array. A vector grows along its own
    axis, a single element and an empty shape become a row, all else a column. -/
def grownToCount (s : Shape) (n : Nat) : Shape :=
  if s.count = 0 then [1, n]
  else match s.findIdx? (· != 1) with
    | none => (s.pad 2).set 1 n
    | some axis => if s.isVector then s.set axis n else [n, 1]

end Shape
end NumericArrays
