import NumericArrays.Value

/-! Joining arrays along an axis. -/
namespace NumericArrays

namespace Concat

def agreeOff (axis rank : Nat) (s t : Shape) : Bool :=
  (List.range rank).all fun i => i == axis || s.extent i == t.extent i

/-- Elements that a part of this shape contributes at a time: those of all axes up to the joined one,
    which lie together in storage. -/
def pageSize (axis : Nat) (s : Shape) : Nat :=
  (List.range (axis + 1)).foldl (fun n i => n * s.extent i) 1

def page (axis : Nat) (f : NDArray → Nat → Float) (part : NDArray) (k : Nat) : List Float :=
  let n := pageSize axis part.dims
  (List.range n).map fun i => f part (k * n + i)

def interleave (axis : Nat) (f : NDArray → Nat → Float) (parts : List NDArray) (pages : Nat) :
    Array Float :=
  ((List.range pages).flatMap fun k => parts.flatMap fun part => page axis f part k).toArray

/-- Joins parts that are not empty. More elements than can be counted are a fault. -/
def join (axis : Nat) (first : NDArray) (others : List NDArray) : Except Fault NDArray :=
  let parts := first :: others
  let rank := parts.foldl (fun n part => max n part.dims.length) 0
  match others.find? fun part => !agreeOff axis rank first.dims part.dims with
  | some part => .error (.shapeMismatch first.dims part.dims)
  | none =>
    let length := parts.foldl (fun n part => n + part.dims.extent axis) 0
    let kind := parts.foldl (fun k part => k.promote part.kind) .logical
    let pages := first.size / pageSize axis first.dims
    let collect (f : NDArray → Nat → Float) :=
      interleave axis (fun part p => kind.store (f part p)) parts pages
    let dims : Shape := (first.dims.pad (max rank (axis + 1))).set axis length
    if dims.count?.isNone then .error (.uncountable dims)
    else .ok {
      dims
      real := collect NDArray.re
      imag := if parts.any (·.isComplex) then some (collect NDArray.im) else none
      kind }

end Concat

/-- Joins values along a zero-based axis. Empty ones are left out; a single one that is left is the
    result as it is, and if none is left the first value is. -/
def Value.concat (axis : Nat) (values : List Value) : Except Fault NDArray :=
  match (values.filter (!·.isEmpty)).map Value.toArray with
  | [] =>
    match values with
    | [] => .ok .empty
    | v :: _ => .ok v.toArray
  | [a] => .ok a
  | first :: others => Concat.join axis first others

def Value.beside (values : List Value) : Except Fault NDArray := concat 1 values

def Value.stack (values : List Value) : Except Fault NDArray := concat 0 values

end NumericArrays
