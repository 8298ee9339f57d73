import NumericArrays.NDArray.Write

/-! Arrays changed in place: field by field, in 64-bit words, with every access checked. -/
namespace NumericArrays.InPlace

/-- Why a computation stops. Only a fault is an answer to the user. -/
inductive Stop where
  | fault (f : Fault)
  | overflow
  | outOfBounds
  | endless
deriving DecidableEq

structure Memory where
  dims : Shape
  len : Nat
  real : Array Float
  imag : Option (Array Float)
  kind : Storage
deriving DecidableEq

/-- Steps that change memory. What was changed before a stop stays changed. -/
abbrev Steps := EStateM Stop Memory

/-- A computation that touches no memory, as a step. -/
def check {α : Type} : Except Stop α → Steps α
  | .ok x => pure x
  | .error e => throw e

/-! ### Words -/

def addWord (m n : Nat) : Except Stop Nat :=
  if m + n ≤ maxCount then .ok (m + n) else .error .overflow

def mulWord (m n : Nat) : Except Stop Nat :=
  if m * n ≤ maxCount then .ok (m * n) else .error .overflow

def subWord (m n : Nat) : Except Stop Nat :=
  if n ≤ m then .ok (m - n) else .error .overflow

/-! ### Positions -/

/-- Offset of the axes gone through so far, and the stride of the next one. -/
structure Walk where
  offset : Nat
  stride : Nat

def Walk.step (dims : Shape) (coords : List Nat) (w : Walk) (axis : Nat) : Except Stop Walk := do
  let c ← subWord (coords.getD axis 1) 1
  let offset ← addWord w.offset (← mulWord c w.stride)
  let stride ← mulWord w.stride (dims.extent axis)
  return ⟨offset, stride⟩

def locate (dims : Shape) (coords : List Nat) : Except Stop (Option Nat) :=
  match coords.findIdx? (· == 0) with
  | some axis => .error (.fault (.indexBelowOne axis))
  | none =>
    match coords with
    | [k] => if k ≤ dims.count then some <$> subWord k 1 else .ok none
    | _ =>
      match dims.exceededAxis? coords with
      | some _ => .ok none
      | none => do
        let axes := List.range (Shape.commonRank dims coords)
        let w ← axes.foldlM (Walk.step dims coords) ⟨0, 1⟩
        return some w.offset

/-- Distances in storage along the axes, from the first one on. -/
def strides (unit : Nat) : Shape → Except Stop (List Nat)
  | [] => .ok []
  | d :: s => do
    let next ← mulWord unit d
    let rest ← strides next s
    return unit :: rest

end NumericArrays.InPlace
