import NumericArrays.Elementwise.Arithmetic

/-! Logic on values, element by element. Every number but zero is true. -/
namespace NumericArrays

inductive Connective where
  | and
  | or
  | xor
deriving DecidableEq, Repr

/-- The elements have truth values: no NaN, and no imaginary parts but zero. -/
def NDArray.checkTruth (a : NDArray) : Except Fault Unit :=
  if !a.hasZeroImag then .error (.complexValue .logicalOperator)
  else if a.reals.any (·.isNaN) then .error (.unsupported .logicalOfNaN)
  else .ok ()

def NDArray.truth (a : NDArray) (p : Nat) : Bool := a.re p != 0

namespace Connective

def holds : Connective → Bool → Bool → Bool
  | and, p, q => p && q
  | or, p, q => p || q
  | xor, p, q => p != q

/-- On values. The operands are checked before their shapes. -/
def apply (op : Connective) (a b : Value) : Except Fault Value := do
  let a := a.toArray
  let b := b.toArray
  a.checkTruth
  b.checkTruth
  let dims ← Elementwise.broadcast a b
  return Elementwise.logicalResult a b dims fun i =>
    op.holds (a.truth (Elementwise.source a i)) (b.truth (Elementwise.source b i))

end Connective

/-- Negated truth values. An array stays an array, even one of a single element. -/
def Value.not (v : Value) : Except Fault Value := do
  let a := v.toArray
  a.checkTruth
  match v with
  | .number _ => return .number (.logical !(a.truth 0))
  | .array _ =>
    return .array ⟨a.dims, .ofFn fun i : Fin a.size => ofBool !(a.truth i), none, .logical⟩

end NumericArrays
