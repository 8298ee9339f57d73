import NumericArrays.Decimal

/-! What can go wrong with arrays, and how it is said. -/
namespace NumericArrays

inductive Unsupported where
  | nonScalarAssignment
  | shrinking
  | nonScalarIndex
  | logicalOfNaN
  | notTwoDimensional
deriving DecidableEq, Repr

inductive RealOnly where
  | logicalConversion
  | index
  | logicalOperator
deriving DecidableEq, Repr

/-- Why an operation failed. Axes count from zero, coordinates from one. -/
inductive Fault where
  | indexBelowOne (axis : Nat)
  | invalidIndex (value : Float)
  | indexOutOfRange (coord axis extent : Nat)
  | shapeMismatch (lhs rhs : List Nat)
  | zeroStep
  | unsupported (what : Unsupported)
  | outOfMemory (dims : List Nat)
  | uncountable (dims : List Nat)
  | complexValue (place : RealOnly)
  | singularMatrix
deriving DecidableEq

/-- Extents in brackets, separated by a comma and a blank. -/
def dimsText (dims : List Nat) : String :=
  "[" ++ ", ".intercalate (dims.map toString) ++ "]"

def Unsupported.message : Unsupported → String
  | nonScalarAssignment => "assignment of a non-scalar value to an indexed element"
  | shrinking => "arrays cannot shrink by resizing"
  | nonScalarIndex => "non-scalar index values"
  | logicalOfNaN => "NaN values cannot be converted to logicals"
  | notTwoDimensional => "matrix operations require 2-D arguments"

def RealOnly.message : RealOnly → String
  | logicalConversion => "complex values cannot be converted to logicals"
  | index => "indices must be real"
  | logicalOperator => "cannot use complex values in logical operations"

def Fault.message : Fault → String
  | indexBelowOne axis =>
    "index along dimension " ++ toString axis ++ " is below 1; indices must be positive integers"
  | invalidIndex value =>
    "invalid index value " ++ Decimal.Style.plain.write value ++
      "; indices must be positive integers"
  | indexOutOfRange coord axis extent =>
    "index exceeds array bounds: position " ++ toString coord ++ " along dimension " ++
      toString axis ++ " exceeds extent " ++ toString extent
  | shapeMismatch lhs rhs =>
    "cannot apply an operator to variables of size " ++ dimsText lhs ++ " and " ++ dimsText rhs
  | zeroStep => "step size must be nonzero in colon expression"
  | unsupported what => "unsupported operation: " ++ what.message
  | outOfMemory dims =>
    "out of memory: an array of size " ++ dimsText dims ++ " cannot be allocated"
  | uncountable dims =>
    "the elements of an array of size " ++ dimsText dims ++ " cannot be counted"
  | complexValue place => "complex values are not allowed: " ++ place.message
  | singularMatrix => "matrix is singular"

end NumericArrays
