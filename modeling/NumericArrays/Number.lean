import NumericArrays.Decimal
import NumericArrays.Scalar.Basic

/-! Single numbers: real ones, truth values and complex ones. Elements are truth values, 32-bit or 64-bit
    numbers, all held in 64-bit buffers. -/
namespace NumericArrays

/-- What an array may hold. Logical arrays hold 0 and 1, single ones what 32 bits can represent. -/
inductive Storage where
  | logical
  | single
  | double
deriving DecidableEq, Repr, Inhabited

namespace Storage

/-- Every value of a kind is one of the wider kinds. -/
def width : Storage → Nat
  | logical => 0
  | single => 1
  | double => 2

instance : LT Storage := ⟨fun a b => a.width < b.width⟩

instance (a b : Storage) : Decidable (a < b) := inferInstanceAs (Decidable (a.width < b.width))

def standard : Storage := double

def promote (a b : Storage) : Storage := if a < b then b else a

/-- Kind of an arithmetic result: the wider kind, and never logical. -/
def arithmetic (a b : Storage) : Storage :=
  match promote a b with
  | logical => double
  | k => k

/-- The number of this kind that stands for `x`. -/
def store : Storage → Float → Float
  | double, x => x
  | single, x => Binary64.narrow x
  | logical, x => if x != 0 then 1 else 0

end Storage

inductive Number where
  | real (x : Float)
  | logical (b : Bool)
  | complex (z : Cartesian Float)
deriving DecidableEq

def ofBool (b : Bool) : Float := if b then 1 else 0

namespace Number

def toCartesian : Number → Cartesian Float
  | real x => ⟨x, 0⟩
  | logical b => ⟨ofBool b, 0⟩
  | complex z => z

def kind : Number → Storage
  | logical _ => .logical
  | _ => .double

def isComplex : Number → Bool
  | complex _ => true
  | _ => false

/-- Equality of numbers of the same form, part by part. -/
def equal : Number → Number → Bool
  | real x, real y => x == y
  | logical a, logical b => a == b
  | complex z, complex w => z == w
  | _, _ => false

def demote : Number → Number
  | complex z => if z.im == 0 then real z.re else complex z
  | x => x

def complexText (z : Cartesian Float) : String :=
  Decimal.Style.plain.write z.re ++ Decimal.Style.signed.write z.im ++ "i"

def text : Number → String
  | real x => Decimal.Style.plain.write x
  | logical b => if b then "1" else "0"
  | complex z => complexText z

end Number
end NumericArrays
