import NumericArrays.Engine.Operators
import NumericArrays.Proofs.Elementwise.Boolean

/-! Operators with one operand: a single number and the array that has it as its only element. -/
namespace NumericArrays

namespace NDArray

variable {x : Number}

theorem reals_ofNumber (x : Number) : (ofNumber x).reals = #[x.toCartesian.re] := by
  cases x <;> rfl

theorem imags_ofNumber (x : Number) :
    (ofNumber x).imags = if x.isComplex then some #[x.toCartesian.im] else none := by
  cases x <;> rfl

theorem neg_ofNumber_eq (x : Number) : (ofNumber x).neg =
    ⟨[1, 1], #[-x.toCartesian.re], if x.isComplex then some #[-x.toCartesian.im] else none, .double⟩ := by
  unfold neg
  rw [reals_ofNumber, imags_ofNumber]
  cases x <;> simp [Number.isComplex] <;> exact ⟨rfl, rfl⟩

/-- The opposite of a number, unless that is false: as an element it has a sign. -/
theorem neg_ofNumber (hx : x ≠ .logical false) : (ofNumber x).neg = ofNumber x.neg := by
  rw [neg_ofNumber_eq]
  match x, hx with
  | .real _, _ | .complex _, _ | .logical true, _ => rfl

theorem neg_ofNumber_false : (ofNumber (.logical false)).neg = ⟨[1, 1], #[-0], none, .double⟩ :=
  neg_ofNumber_eq _

theorem conj_ofNumber (x : Number) : (ofNumber x).conj = ofNumber x.conj := by
  unfold conj
  rw [reals_ofNumber, imags_ofNumber]
  cases x <;> simp <;> rfl

end NDArray

theorem Logged.map_ofExcept {α β : Type} (f : α → β) (r : Except Fault α) :
    f <$> ofExcept r = ofExcept (r.map f) := by
  cases r <;> rfl

namespace Value

variable {v : Value}

theorem conj_of_real (h : v.isComplex = false) : v.conj = v := by
  cases v with
  | number x =>
    match x, h with
    | .real _, _ | .logical _, _ => rfl
  | array a => exact congrArg array (if_neg (Bool.not_eq_true _ ▸ h))

theorem isUnit_ofNumber (x : Number) : (array (.ofNumber x)).dims.isUnit = true := by
  cases x <;> rfl

end Value

namespace Engine

variable {e : Engine} {v : Value}

/-- Without a second element there is nothing to exchange, and no engine is asked. -/
theorem transposed_of_isUnit (h : v.dims.isUnit = true) : e.transposed v = pure v := by
  unfold transposed
  rw [if_pos h]

theorem adjointed_of_isUnit (h : v.dims.isUnit = true) : e.adjointed v = pure v.conj := by
  unfold adjointed
  cases hv : v.isComplex with
  | false => rw [if_pos (by decide), transposed_of_isUnit h, Value.conj_of_real hv]
  | true => rw [if_neg (by decide), if_pos h]

end Engine

inductive Unary where
  | neg
  | not
  | conj
  | transposed
  | adjointed
deriving DecidableEq, Repr

namespace Unary

open Value

/-- On values; it takes an engine to transpose an array. -/
def apply (e : Engine) : Unary → Value → Logged Value
  | neg, v => pure v.neg
  | not, v => Logged.ofExcept v.not
  | conj, v => pure v.conj
  | transposed, v => e.transposed v
  | adjointed, v => e.adjointed v

theorem map_apply_ofNumber (e : Engine) {op : Unary} {x : Number}
    (h : ¬ (op = .neg ∧ x = .logical false)) :
    toArray <$> op.apply e (.array (.ofNumber x)) = toArray <$> op.apply e (.number x) := by
  cases op with
  | neg =>
    have hx : x ≠ .logical false := fun hx => h ⟨rfl, hx⟩
    exact congrArg pure (NDArray.neg_ofNumber hx)
  | not =>
    simp only [apply, Logged.map_ofExcept, map_not]
    rfl
  | conj => exact congrArg pure (NDArray.conj_ofNumber x)
  | transposed =>
    simp only [apply]
    rw [Engine.transposed_of_isUnit (isUnit_ofNumber x), Engine.transposed_of_isUnit (v := .number x) rfl]
    rfl
  | adjointed =>
    simp only [apply]
    rw [Engine.adjointed_of_isUnit (isUnit_ofNumber x), Engine.adjointed_of_isUnit (v := .number x) rfl]
    exact congrArg pure (NDArray.conj_ofNumber x)

/-- A number and the array of this one element have the same answer from every operator, with the same
    log, in all cases but one: the opposite of false is zero, and only in the array it has a sign. -/
theorem apply_ofNumber (e : Engine) (op : Unary) (x : Number) :
    (toArray <$> op.apply e (.array (.ofNumber x)) = toArray <$> op.apply e (.number x) ↔
      ¬ (op = .neg ∧ x = .logical false)) ∧
    (op = .neg ∧ x = .logical false →
      op.apply e (.number x) = pure (.number (.real 0)) ∧
        op.apply e (.array (.ofNumber x)) = pure (.array ⟨[1, 1], #[-0], none, .double⟩)) := by
  by_cases h : op = .neg ∧ x = .logical false
  · obtain ⟨rfl, rfl⟩ := h
    have hnumber : neg.apply e (.number (.logical false)) = pure (.number (.real 0)) := rfl
    have harray : neg.apply e (.array (.ofNumber (.logical false))) =
        pure (.array ⟨[1, 1], #[-0], none, .double⟩) :=
      congrArg (fun a => pure (array a)) NDArray.neg_ofNumber_false
    refine ⟨iff_of_false ?_ (not_not_intro ⟨rfl, rfl⟩), fun _ => ⟨hnumber, harray⟩⟩
    rw [hnumber, harray]
    intro heq
    have hreal : some (#[-0] : Array Float) = some #[0] := congrArg (·.result.toOption.map (·.real)) heq
    exact absurd hreal (by decide)
  · exact ⟨iff_of_true (map_apply_ofNumber e h) h, fun h' => absurd h' h⟩

/-- A zero without a sign in the one form, and with a sign in the other. -/
theorem neg_false_sign :
    let x : Number := .logical false
    (number x).neg.toArray = ⟨[1, 1], #[0], none, .double⟩ ∧
      (array (.ofNumber x)).neg.toArray = ⟨[1, 1], #[-0], none, .double⟩ ∧
        (number x).neg.toArray ≠ (array (.ofNumber x)).neg.toArray := by
  intro x
  have harray : (array (.ofNumber x)).neg.toArray = ⟨[1, 1], #[-0], none, .double⟩ :=
    NDArray.neg_ofNumber_false
  refine ⟨rfl, harray, ?_⟩
  rw [harray]
  decide

end Unary
end NumericArrays
