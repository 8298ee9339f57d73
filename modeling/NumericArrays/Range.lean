import NumericArrays.NDArray.Basic

/-! Evenly spaced numbers from a start to a stop. -/
namespace NumericArrays

structure Range where
  start : Float
  step : Float
  stop : Float
  /-- How many there are. -/
  count : Nat
  /-- The second half is counted back from `stop`. -/
  twoSided : Bool
deriving DecidableEq

namespace Range

/-- Steps from start to stop, rounded down by one neighbour of the span and of the step. -/
def fewestSteps (span step : Float) : Float :=
  Binary64.adjacent span 0 / Binary64.adjacent step (step + step)

/-- Steps from start to stop, rounded up by one neighbour of the span and of the step. -/
def mostSteps (span step : Float) : Float :=
  Binary64.adjacent span (span + step) / Binary64.adjacent step 0

/-- The range has one number more than it has whole steps, and a step that is missed by rounding alone
    counts. If both estimates leave room for that number of steps the last number is `stop` itself.
    There is nothing in a range without finite bounds. -/
def ofStep (start step stop : Float) : Except Fault Range :=
  if step == 0 then .error .zeroStep
  else if !(start.isFinite && step.isFinite && stop.isFinite) then
    .ok ⟨start, step, stop, 0, false⟩
  else
    let span := stop - start
    let most := mostSteps span step
    let steps := Binary64.floor most
    let count := steps + 1
    .ok {
      start, step, stop
      count := if 0 < count then count.toUInt64.toNat else 0
      twoSided := fewestSteps span step ≤ steps && steps ≤ most }

def value (r : Range) (i : Nat) : Float :=
  if r.twoSided && r.count ≤ 2 * i then r.stop - Float.ofNat (r.count - 1 - i) * r.step
  else r.start + Float.ofNat i * r.step

/-- A range of which the first numbers have been taken. -/
structure Cursor where
  range : Range
  taken : Nat

def cursor (r : Range) : Cursor := ⟨r, 0⟩

namespace Cursor

def remaining (c : Cursor) : Nat := c.range.count - c.taken

def isDone (c : Cursor) : Bool := c.range.count ≤ c.taken

def next? (c : Cursor) : Option (Float × Cursor) :=
  if c.isDone then none else some (c.range.value c.taken, ⟨c.range, c.taken + 1⟩)

/-- The numbers left, as a row; a buffer must have room for them. -/
def toArray? (c : Cursor) : Option NDArray :=
  NDArray.ofFn? [1, c.remaining] fun i => c.range.value (c.taken + i)

end Cursor
end Range
end NumericArrays
