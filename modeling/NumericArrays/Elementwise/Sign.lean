import NumericArrays.Value

/-! Changing the sign of elements and of their imaginary parts. -/
namespace NumericArrays

namespace Number

/-- Opposite number. A truth value becomes real, and the opposite of false is zero without a sign. -/
def neg : Number → Number
  | real x => real (-x)
  | logical b => real (if b then -1 else 0)
  | complex z => complex (-z)

def conj : Number → Number
  | complex z => complex z.conj
  | x => x

end Number

namespace NDArray

/-- Opposite elements. Truth values become double. -/
def neg (a : NDArray) : NDArray :=
  { dims := a.dims
    real := a.reals.map (-·)
    imag := a.imags.map (·.map (-·))
    kind := a.kind.arithmetic a.kind }

/-- Conjugate elements. A real array is its own conjugate. -/
def conj (a : NDArray) : NDArray :=
  if a.isComplex then { a with real := a.reals, imag := a.imags.map (·.map (-·)) } else a

end NDArray

namespace Value

def neg : Value → Value
  | number x => number x.neg
  | array a => array a.neg

def conj : Value → Value
  | number x => number x.conj
  | array a => array a.conj

end Value
end NumericArrays
