import NumericArrays.Scalar.Basic

/-! Powers of 64-bit floating-point numbers, real and complex. -/
namespace NumericArrays.Power

open Binary64 (trunc round fract isIntegral isNegative infinity)

def pi : Float := .ofBits 0x400921FB54442D18

def halfPi : Float := .ofBits 0x3FF921FB54442D18

def isOdd (x : Float) : Bool := isIntegral x && fract (x / 2) != 0

/-- A zero to a nonzero power. Odd powers keep the sign; negative ones are infinite. -/
def ofZero (x y : Float) : Float :=
  if y.isNaN then y
  else
    let size := if y < 0 then infinity else 0
    if isNegative x && isOdd y then -size else size

/-- Real power. Any number to the power zero is 1. -/
def real (x y : Float) : Float :=
  if y == 0 then 1
  else if x == 0 then ofZero x y
  else Float.pow x y

/-- A negative base with a fractional exponent has no real power. -/
def leavesReals (x y : Float) : Bool := x < 0 && y.isFinite && y != trunc y

def polar (r angle : Float) : Cartesian Float := ⟨r * angle.cos, r * angle.sin⟩

/-- The same, if the angle is a whole number `quarters` of quarter turns: then it lies on an axis, and
    the other part is zero. -/
def polarOnAxis (r angle quarters : Float) : Cartesian Float :=
  if fract (quarters / 2) != 0 then ⟨0, r * angle.sin⟩ else ⟨r * angle.cos, 0⟩

/-- Power of a real base with a real exponent, on the principal branch. -/
def ofReal (x y : Float) : Cartesian Float :=
  let size := x.abs
  if size == 0 then ⟨0, 0⟩
  else
    let r := (size.log * y).exp
    if 0 < x then ⟨r, 0⟩
    else
      let angle := pi * y
      let quarters := round (y * 2)
      if y * 2 == quarters then polarOnAxis r angle quarters else polar r angle

/-- Power of the imaginary base `x * i` with a real exponent. -/
def ofImaginary (x y : Float) : Cartesian Float :=
  let size := x.abs
  if size == 0 then ⟨0, 0⟩
  else
    let r := (size.log * y).exp
    let angle := (if 0 < x then halfPi else -halfPi) * y
    let quarters := round y
    if y == quarters then polarOnAxis r angle quarters else polar r angle

/-- Complex power on the principal branch. Any base to the power zero is 1, and zero to any other power
    is zero. -/
def complex (a b : Cartesian Float) : Cartesian Float :=
  if b.re == 0 && b.im == 0 then ⟨1, 0⟩
  else if a.im == 0 && b.im == 0 then ofReal a.re b.re
  else if a.re == 0 && b.im == 0 then ofImaginary a.im b.re
  else
    let size := a.modulus
    if size == 0 then ⟨0, 0⟩
    else
      let logSize := size.log
      let turn := Float.atan2 a.im a.re
      polar (logSize * b.re - turn * b.im).exp (logSize * b.im + turn * b.re)

end NumericArrays.Power
