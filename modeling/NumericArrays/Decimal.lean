import NumericArrays.Binary64.Basic

/-! The shortest decimal that reads back as a given 64-bit floating-point number, and its written forms. -/
namespace NumericArrays

/-- The number `significand * 10 ^ exponent`. -/
structure Decimal where
  significand : Nat
  exponent : Int
deriving DecidableEq, Repr

namespace Decimal

def digitCount (n : Nat) : Nat := (Nat.toDigits 10 n).length

/-- The reals that round to a floating-point number `value`, on a common denominator. -/
structure Interval where
  low : Nat
  value : Nat
  high : Nat
  denominator : Nat
  /-- The end points belong to it. -/
  closed : Bool

/-- The reals that round to `m * 2 ^ q`. They reach half way to the neighbours; below a power of two
    the neighbour is half as far. End points round to the even significand. -/
def Interval.around (m : Nat) (q : Int) : Interval :=
  let below := if m = Binary64.exponentStep ∧ -1074 < q then 1 else 2
  let scale := Nat.pow 2 (q - 2).toNat
  { low := (4 * m - below) * scale
    value := 4 * m * scale
    high := (4 * m + 2) * scale
    denominator := Nat.pow 2 (2 - q).toNat
    closed := m % 2 = 0 }

/-- The same interval in units of `10 ^ p`. -/
def Interval.inUnits (i : Interval) (p : Int) : Interval :=
  let up := Nat.pow 10 (-p).toNat
  { i with
    low := i.low * up
    value := i.value * up
    high := i.high * up
    denominator := i.denominator * Nat.pow 10 p.toNat }

def Interval.has (i : Interval) (c : Nat) : Bool :=
  let x := c * i.denominator
  if i.closed then i.low ≤ x && x ≤ i.high else i.low < x && x < i.high

/-- The least `k` with `value < 10 ^ k`, for a positive value. -/
def Interval.leadingPlace (i : Interval) : Int :=
  if i.denominator ≤ i.value then digitCount (i.value / i.denominator)
  else 1 - (digitCount ((i.denominator - 1) / i.value) : Int)

/-- The neighbour of the value among the whole numbers that the interval holds, the nearer one if it
    holds both. Half way the larger one is taken. -/
def Interval.wholeNumber? (i : Interval) : Option Nat :=
  let c := i.value / i.denominator
  let isAboveHalf := i.denominator ≤ 2 * (i.value % i.denominator)
  match i.has c, i.has (c + 1) with
  | true, true => some (if isAboveHalf then c + 1 else c)
  | true, false => some c
  | false, true => some (c + 1)
  | false, false => none

def Interval.ofDigits? (i : Interval) (n : Nat) : Option Decimal :=
  let p := i.leadingPlace - n
  (i.inUnits p).wholeNumber?.map fun c => if c = Nat.pow 10 n then ⟨1, p + n⟩ else ⟨c, p⟩

/-- Fewest digits first; seventeen always suffice. -/
def shortestOf (m : Nat) (q : Int) : Decimal :=
  if m = 0 then ⟨0, 0⟩
  else
    let i := Interval.around m q
    ((List.range' 1 17).findSome? i.ofDigits?).getD ⟨0, 0⟩

/-- Shortest decimal that reads back as `|x|`, for finite `x`. -/
def shortest (x : Float) : Decimal :=
  shortestOf (Binary64.decode x).1 (Binary64.decode x).2

/-! ### Written forms -/

/-- The decimal written out in full, never with an exponent. -/
def positional (d : Decimal) : String :=
  let digits := Nat.toDigits 10 d.significand
  let places := (-d.exponent).toNat
  if places = 0 then .ofList (digits ++ .replicate d.exponent.toNat '0')
  else
    let padded := List.replicate (places + 1 - digits.length) '0' ++ digits
    let whole := padded.length - places
    .ofList (padded.take whole ++ '.' :: padded.drop whole)

def scientific (d : Decimal) : String :=
  match Nat.toDigits 10 d.significand with
  | [] => "0e0"
  | lead :: rest =>
    let exponent := if d.significand = 0 then 0 else d.exponent + rest.length
    let mantissa := if rest.isEmpty then [lead] else lead :: '.' :: rest
    .ofList mantissa ++ "e" ++ toString exponent

/-- Which decimal form is written, and whether a number without a minus sign gets a plus sign. -/
structure Style where
  render : Decimal → String
  plus : Bool

def Style.plain : Style := ⟨positional, false⟩

def Style.signed : Style := ⟨positional, true⟩

def Style.exponential : Style := ⟨scientific, false⟩

/-- NaN has no sign; negative zero keeps its own. -/
def Style.write (s : Style) (x : Float) : String :=
  if x.isNaN then "NaN"
  else
    let sign := if Binary64.isNegative x then "-" else if s.plus then "+" else ""
    sign ++ if x.isFinite then s.render (shortest x) else "inf"

end Decimal
end NumericArrays
