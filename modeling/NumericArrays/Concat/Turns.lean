import NumericArrays.Concat

/-! Joining by turns: the parts are visited round and round, each time for one page. -/
namespace NumericArrays.Concat

/-- The elements from `start` on, `n` of them; `none` if there are not as many. -/
def slice (buffer : Array Float) (start n : Nat) : Option (List Float) :=
  if start + n ≤ buffer.size then some ((buffer.toList.drop start).take n) else none

/-- The buffer with `xs` written from `start` on; `none` if they reach past its end. -/
def overwrite (buffer : Array Float) (start : Nat) (xs : List Float) : Option (Array Float) :=
  if start + xs.length ≤ buffer.size then
    some (buffer.toList.take start ++ xs ++ buffer.toList.drop (start + xs.length)).toArray
  else none

/-- A joining under way: how much of the result is written, whose turn it is, and how much has been taken
    of each part. -/
@[ext]
structure Turns where
  written : Nat
  turn : Nat
  taken : List Nat
  real : Array Float
  imag : Option (Array Float)

namespace Turns

def start (parts : List NDArray) (total : Nat) : Turns where
  written := 0
  turn := 0
  taken := parts.map fun _ => 0
  real := .replicate total 0
  imag := if parts.any (·.isComplex) then some (.replicate total 0) else none

def copy (kind : Storage) (source target : Array Float) (src dst n : Nat) : Option (Array Float) :=
  (slice source src n).bind fun page => overwrite target dst (page.map kind.store)

/-- Imaginary parts are copied from complex parts only. -/
def copyImag (kind : Storage) (part : NDArray) (target : Option (Array Float)) (src dst n : Nat) :
    Option (Option (Array Float)) :=
  match target, part.imags with
  | some im, some xs => (copy kind xs im src dst n).map some
  | _, _ => some target

/-- One turn. `none` if a page is out of bounds. -/
def next (axis : Nat) (kind : Storage) (parts : List NDArray) (s : Turns) : Option Turns := do
  let part ← parts[s.turn]?
  let src ← s.taken[s.turn]?
  let n := pageSize axis part.dims
  let real ← copy kind part.reals s.real src s.written n
  let imag ← copyImag kind part s.imag src s.written n
  return {
    written := s.written + n
    turn := (s.turn + 1) % parts.length
    taken := s.taken.set s.turn (src + n)
    real, imag }

def after (axis : Nat) (kind : Storage) (parts : List NDArray) (total : Nat) : Nat → Option Turns
  | 0 => some (start parts total)
  | n + 1 => (after axis kind parts total n).bind (next axis kind parts)

/-- Turns are taken as long as less than `total` is written; none is out of bounds, and they end in `s`. -/
def EndIn (axis : Nat) (kind : Storage) (parts : List NDArray) (total : Nat) (s : Turns) : Prop :=
  ∃ n, after axis kind parts total n = some s ∧ total ≤ s.written ∧
    ∀ k < n, ∃ t, after axis kind parts total k = some t ∧ t.written < total

end Turns
end NumericArrays.Concat
