import NumericArrays.Binary64.Basic

/-! The operations that algorithms ask of numbers, without their laws, and complex numbers by real and imaginary
    part. -/
namespace NumericArrays

/-- Field operations and a test for equality. Division is total, and a number need not equal itself. -/
class abbrev Arith (K : Type) :=
  Zero K, One K, Add K, Sub K, Mul K, Div K, Neg K, BEq K

class Magnitude (R : Type) where
  magnitude : R → R

class RealScalar (R : Type) extends Magnitude R where
  sqrt : R → R
  ofNat : Nat → R
  /-- Distance from 1 to the next number. -/
  epsilon : R

/-- Entries of a matrix: a type `K` of numbers over a type `R` of real ones. -/
class MatrixScalar (K : Type) (R : outParam Type) where
  conj : K → K
  modulus : K → R
  re : K → R
  ofReal : R → K
  /-- Square of the modulus, without a root. -/
  normSq : K → R

instance : RealScalar Float where
  magnitude := Float.abs
  sqrt := Float.sqrt
  ofNat := Float.ofNat
  epsilon := Binary64.epsilon

/-- Real numbers are their own conjugates. -/
instance : MatrixScalar Float Float where
  conj x := x
  modulus := Float.abs
  re x := x
  ofReal x := x
  normSq x := x * x

/-- The number `re + im * i`. -/
@[ext]
structure Cartesian (R : Type) where
  re : R
  im : R
deriving DecidableEq, Repr

namespace Cartesian

variable {R : Type} [Arith R]

def ofReal (x : R) : Cartesian R := ⟨x, 0⟩

def conj (z : Cartesian R) : Cartesian R := ⟨z.re, -z.im⟩

/-! ### The formulas of the textbook -/

instance : Zero (Cartesian R) := ⟨⟨0, 0⟩⟩

instance : One (Cartesian R) := ⟨⟨1, 0⟩⟩

instance : Add (Cartesian R) := ⟨fun a b => ⟨a.re + b.re, a.im + b.im⟩⟩

instance : Sub (Cartesian R) := ⟨fun a b => ⟨a.re - b.re, a.im - b.im⟩⟩

instance : Neg (Cartesian R) := ⟨fun a => ⟨-a.re, -a.im⟩⟩

instance : Mul (Cartesian R) :=
  ⟨fun a b => ⟨a.re * b.re - a.im * b.im, a.re * b.im + a.im * b.re⟩⟩

instance : Div (Cartesian R) :=
  ⟨fun a b =>
    let n := b.re * b.re + b.im * b.im
    ⟨(a.re * b.re + a.im * b.im) / n, (a.im * b.re - a.re * b.im) / n⟩⟩

instance : BEq (Cartesian R) := ⟨fun a b => a.re == b.re && a.im == b.im⟩

/-! ### Products and quotients that keep zeros and infinities apart -/

/-- Product. A part that is zero is left out of it, so an infinity never meets a zero that only says
    that the number is real or imaginary. -/
def product (a b : Cartesian R) : Cartesian R :=
  if a.im == 0 && b.im == 0 then ⟨a.re * b.re, 0⟩
  else if a.im == 0 && b.re == 0 then ⟨0, a.re * b.im⟩
  else if a.re == 0 && b.im == 0 then ⟨0, a.im * b.re⟩
  else if a.im == 0 then ⟨a.re * b.re, a.re * b.im⟩
  else if b.im == 0 then ⟨b.re * a.re, b.re * a.im⟩
  else ⟨a.re * b.re - a.im * b.im, a.re * b.im + a.im * b.re⟩

/-- Quotient. Real and imaginary numbers are divided part by part; otherwise numerator and denominator
    are scaled by the larger part of the denominator, so that no square is formed. -/
def quotient [Magnitude R] [LE R] [DecidableLE R] (a b : Cartesian R) : Cartesian R :=
  if a.im == 0 && b.im == 0 then ⟨a.re / b.re, 0⟩
  else if b.im == 0 then ⟨a.re / b.re, a.im / b.re⟩
  else if a.im == 0 && b.re == 0 then ⟨0, -a.re / b.im⟩
  else if a.re == 0 && b.re == 0 then ⟨a.im / b.im, 0⟩
  else if a.re == b.re && a.im == b.im then ⟨1, 0⟩
  else if Magnitude.magnitude b.re ≤ Magnitude.magnitude b.im then
    let ratio := b.re / b.im
    let den := b.im * (1 + ratio * ratio)
    ⟨(a.re * ratio + a.im) / den, (a.im * ratio - a.re) / den⟩
  else
    let ratio := b.im / b.re
    let den := b.re * (1 + ratio * ratio)
    ⟨(a.re + a.im * ratio) / den, (a.im - a.re * ratio) / den⟩

/-- Length of the hypotenuse over two sides. The larger side is taken out of the root; a side that is
    negligible beside the other is left out. -/
def hypotenuse [RealScalar R] [LT R] [DecidableLT R] (x y : R) : R :=
  let x := Magnitude.magnitude x
  let y := Magnitude.magnitude y
  let (big, small) := if x < y then (y, x) else (x, y)
  if big + small == big then big
  else
    let t := small / big
    big * RealScalar.sqrt (1 + t * t)

def modulus [RealScalar R] [LT R] [DecidableLT R] (z : Cartesian R) : R := hypotenuse z.re z.im

instance [RealScalar R] [LT R] [DecidableLT R] : MatrixScalar (Cartesian R) R where
  conj := conj
  modulus := modulus
  re z := z.re
  ofReal := ofReal
  normSq z := z.re * z.re + z.im * z.im

end Cartesian
end NumericArrays
