/-! 64-bit floating-point numbers: the fields read off their bits, integral parts, neighbours, and rounding to
    32-bit precision. -/
namespace NumericArrays.Binary64

/-! ### Fields -/

/-- The pattern with the sign bit only, `2 ^ 63`. -/
def signPattern : Nat := 0x8000000000000000

/-- One step of the exponent in a pattern, `2 ^ 52`. -/
def exponentStep : Nat := 0x10000000000000

/-- Pattern without the sign bit. Over the finite numbers and infinity it grows with the absolute value. -/
def magnitude (x : Float) : Nat := x.toBits.toNat % signPattern

def isNegative (x : Float) : Bool := signPattern ≤ x.toBits.toNat

/-- Biased exponent: 0 for zeros and subnormals, 2047 for infinities and NaN. -/
def exponentField (x : Float) : Nat := magnitude x / exponentStep

def fractionField (x : Float) : Nat := magnitude x % exponentStep

def withMagnitude (x : Float) (m : Nat) : Float :=
  .ofBits (.ofNat ((if isNegative x then signPattern else 0) + m))

def infinityMagnitude : Nat := 2047 * exponentStep

/-- Significand and exponent with `|x| = significand * 2 ^ exponent`, for finite `x`. -/
def decode (x : Float) : Nat × Int :=
  if exponentField x = 0 then (fractionField x, -1074)
  else (exponentStep + fractionField x, (exponentField x : Int) - 1075)

/-- Distance from 1 to the next number. -/
def epsilon : Float := .ofBits 0x3CB0000000000000

def nan : Float := 0 / 0

def infinity : Float := 1 / 0

/-! ### Integral parts -/

/-- Drops the fraction. Everything from `2 ^ 52` on is integral, as are infinities; NaN stays NaN. -/
def trunc (x : Float) : Float :=
  let e := exponentField x
  if e < 1023 then withMagnitude x 0
  else if e < 1075 then
    let unit := Nat.pow 2 (1075 - e)
    withMagnitude x (magnitude x / unit * unit)
  else x

def floor (x : Float) : Float :=
  let t := trunc x
  if x < t then t - 1 else t

/-- Nearest integral number; a half goes away from zero. -/
def round (x : Float) : Float :=
  let t := trunc x
  if x - t ≥ 0.5 then t + 1
  else if x - t ≤ -0.5 then t - 1
  else t

def fract (x : Float) : Float := x - trunc x

def isIntegral (x : Float) : Bool := x.isFinite && x == trunc x

/-! ### Neighbours -/

/-- First number after `x` on the way to `y`. It is `y` when the two are equal, NaN when either is NaN.
    Away from zero the pattern of a nonzero number counts up, towards zero it counts down. -/
def adjacent (x y : Float) : Float :=
  if x.isNaN || y.isNaN then nan
  else if x == y then y
  else if x == 0 then
    let least := Float.ofBits 1
    if 0 < y then least else -least
  else if decide (x < y) == decide (0 < x) then .ofBits (x.toBits + 1)
  else .ofBits (x.toBits - 1)

/-! ### Rounding to 32-bit precision -/

/-- Quotient rounded to nearest; a tie goes to the even one. -/
def divNearest (n d : Nat) : Nat :=
  let q := n / d
  let r := 2 * (n % d)
  if r < d ∨ (r = d ∧ q % 2 = 0) then q else q + 1

/-- Magnitude pattern of `k * 2 ^ (-149)`, for `k ≤ 2 ^ 23`. -/
def multipleOfLeastSingle (k : Nat) : Nat :=
  if k = 0 then 0
  else (k.log2 + 874) * exponentStep + (k - Nat.pow 2 k.log2) * Nat.pow 2 (52 - k.log2)

/-- Nearest magnitude of 32-bit precision, ties to even. From `2 ^ (-126)` on 29 fraction bits are
    rounded away and the carry runs into the exponent; `2 ^ 128` and more is infinity. Below it the
    multiples of `2 ^ (-149)` remain. -/
def narrowMagnitude (m : Nat) : Nat :=
  let e := m / exponentStep
  if 2047 ≤ e then m
  else if 897 ≤ e then
    let r := divNearest m 0x20000000 * 0x20000000
    if 1151 * exponentStep ≤ r then infinityMagnitude else r
  else
    let significand := if e = 0 then m else exponentStep + m % exponentStep
    multipleOfLeastSingle (divNearest significand (Nat.pow 2 (926 - max e 1)))

def narrow (x : Float) : Float := withMagnitude x (narrowMagnitude (magnitude x))

end NumericArrays.Binary64
