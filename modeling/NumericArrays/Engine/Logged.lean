import NumericArrays.Mat.Solve
import NumericArrays.NDArray.Basic

/-! Computations that leave a log, which is kept when they fail. -/
namespace NumericArrays

inductive Coefficients where
  | real
  | complex
deriving DecidableEq, Repr

inductive Request where
  | product (scalars : Coefficients) (a b : Shape)
  | transpose (scalars : Coefficients) (a : Shape)
  | adjoint (a : Shape)
  | solve (scalars : Coefficients) (a b : Shape)
deriving DecidableEq, Repr

inductive Event where
  | warning (w : Warning Float)
  | request (r : Request)
deriving DecidableEq

def Warning.message : Warning Float → String
  | nearlySingular ratio =>
    "Matrix is singular to working precision.  RCOND = " ++ Decimal.Style.exponential.write ratio
  | rankDeficient rank =>
    "Matrix is rank deficient to machine precision.  RANK = " ++ toString rank

structure Logged (α : Type) where
  events : List Event
  result : Except Fault α

namespace Logged

instance : Monad Logged where
  pure a := ⟨[], .ok a⟩
  bind x f :=
    match x.result with
    | .error e => ⟨x.events, .error e⟩
    | .ok a => ⟨x.events ++ (f a).events, (f a).result⟩

theorem bind_of_ok {α β : Type} {x : Logged α} {a : α} (h : x.result = .ok a)
    (f : α → Logged β) : x >>= f = ⟨x.events ++ (f a).events, (f a).result⟩ := by
  simp only [bind, h]

theorem bind_of_error {α β : Type} {x : Logged α} {e : Fault} (h : x.result = .error e)
    (f : α → Logged β) : x >>= f = ⟨x.events, .error e⟩ := by
  simp only [bind, h]

def ofExcept {α : Type} (x : Except Fault α) : Logged α := ⟨[], x⟩

instance : MonadLift (Except Fault) Logged := ⟨ofExcept⟩

def emit (events : List Event) : Logged Unit := ⟨events, .ok ()⟩

def warnings {α : Type} (x : Logged α) : List (Warning Float) :=
  x.events.filterMap fun
    | .warning w => some w
    | .request _ => none

def requests {α : Type} (x : Logged α) : List Request :=
  x.events.filterMap fun
    | .warning _ => none
    | .request r => some r

end Logged
end NumericArrays
