import NumericArrays.Proofs.Elementwise.Operators

/-! Comparison and logic obey the laws of truth values, whatever the operands: forms, shapes and faults
    included. -/
namespace NumericArrays

/-- Faults of the same sort, about whatever shapes or places. -/
def Fault.SameSort (e f : Fault) : Prop := e.ctorIdx = f.ctorIdx

/-! ### Arrays of truth values -/

namespace NDArray

variable {a : NDArray} {dims : Shape} {f g : Nat → Bool} {i : Nat}

def ofTruth (dims : Shape) (f : Nat → Bool) : NDArray :=
  ⟨dims, .ofFn fun i : Fin dims.count => ofBool (f i), none, .logical⟩

def negated (a : NDArray) : NDArray := ofTruth a.dims fun i => !a.truth i

theorem re_ofTruth (hi : i < dims.count) : (ofTruth dims f).re i = ofBool (f i) :=
  (getD_ofFn (g := fun i => ofBool (f i))).trans (if_pos hi)

theorem truth_ofTruth (hi : i < dims.count) : (ofTruth dims f).truth i = f i := by
  have hone : ∀ b, (ofBool b != 0) = b := by decide
  rw [truth, re_ofTruth hi, hone]

theorem re_negated (hi : i < a.size) : a.negated.re i = ofBool !a.truth i := re_ofTruth hi

theorem truth_negated (hi : i < a.size) : a.negated.truth i = !a.truth i := truth_ofTruth hi

theorem checkTruth_ofTruth (dims : Shape) (f : Nat → Bool) : (ofTruth dims f).checkTruth = .ok () := by
  have hbool : ∀ b, (ofBool b).isNaN = false := by decide
  have hnan : (ofTruth dims f).reals.any (·.isNaN) = false := by
    rw [Bool.eq_false_iff, ne_eq, any_isNaN_reals_iff]
    rintro ⟨p, hp, h⟩
    have hre : (ofTruth dims f).re p = ofBool (f p) := re_ofTruth hp
    rw [hre, hbool] at h
    cases h
  unfold checkTruth
  rw [hnan]
  rfl

theorem ofTruth_congr (h : ∀ i < dims.count, f i = g i) : ofTruth dims f = ofTruth dims g := by
  have hreal : (Array.ofFn fun i : Fin dims.count => ofBool (f i)) = .ofFn fun i => ofBool (g i) :=
    congrArg Array.ofFn (funext fun i => congrArg ofBool (h i i.isLt))
  rw [ofTruth, hreal]
  rfl

end NDArray

namespace Elementwise

open NDArray

variable {a b : NDArray} {dims : Shape} {f g : Nat → Bool}

/-- Every position of the result has an element in either operand. -/
theorem source_lt (h : broadcast a b = .ok dims) {i : Nat} (hi : i < dims.count) :
    source a i < a.size ∧ source b i < b.size := by
  unfold broadcast at h
  unfold source
  by_cases ha : a.isScalar = true
  · rw [if_pos ha] at h ⊢
    cases h
    have ha1 : a.size = 1 := by simpa [isScalar] using ha
    refine ⟨by omega, ?_⟩
    split
    · exact Nat.lt_of_le_of_lt (Nat.zero_le i) hi
    · exact hi
  · rw [if_neg ha] at h ⊢
    split at h
    · cases h
      refine ⟨hi, ?_⟩
      rename_i hb
      split
      · rename_i hscalar
        have hb1 : b.size = 1 := by simpa [isScalar] using hscalar
        omega
      · -- neither operand has a single element, so their shapes agree, and with them the counts
        rename_i hscalar
        have hsame : a.dims.same b.dims = true := by simpa [hscalar] using hb
        rwa [size, ← Shape.count_congr (Shape.same_iff.mp hsame)]
    · cases h

/-- An answer made of truth values, element by element. -/
def pairwise (a b : NDArray) (f : Nat → Bool) : Except Fault Value :=
  (broadcast a b).map fun dims => logicalResult a b dims f

theorem logicalResult_ext (h : broadcast a b = .ok dims) (hfg : ∀ i < dims.count, f i = g i) :
    logicalResult a b dims f = logicalResult a b dims g := by
  unfold logicalResult
  split
  · rename_i hboth
    have hone : dims.count = 1 := by
      simp only [bothScalar, Bool.and_eq_true, isScalar, beq_iff_eq] at hboth
      rcases broadcast_cases h with rfl | rfl
      · exact hboth.1
      · exact hboth.2
    rw [hfg 0 (by omega)]
  · exact congrArg Value.array (ofTruth_congr hfg)

theorem pairwise_congr (h : ∀ i, source a i < a.size → source b i < b.size → f i = g i) :
    pairwise a b f = pairwise a b g := by
  unfold pairwise
  cases hdims : broadcast a b with
  | error e => rfl
  | ok dims =>
    refine congrArg Except.ok (logicalResult_ext hdims fun i hi => ?_)
    obtain ⟨ha, hb⟩ := source_lt hdims hi
    exact h i ha hb

/-- Turned round or not, the operands have the same shapes. -/
theorem pairwise_negated (a b : NDArray) (f : Nat → Bool) :
    pairwise a.negated b.negated f = pairwise a b f := rfl

end Elementwise

/-! ### Operators -/

open Elementwise

namespace Value

def negated : Value → Value
  | number x => number (.logical !(NDArray.ofNumber x).truth 0)
  | array a => array a.negated

theorem toArray_negated (v : Value) : v.negated.toArray = v.toArray.negated := by
  cases v with
  | number x => cases x <;> rfl
  | array a => rfl

theorem not_eq (v : Value) : v.not = v.toArray.checkTruth.map fun _ => v.negated := by
  unfold not
  dsimp only
  cases v.toArray.checkTruth with
  | error e => rfl
  | ok _ => cases v <;> rfl

/-- What follows gets the opposite truth values if the check lets them pass. -/
theorem bind_not {β : Type} (v : Value) (f : Value → Except Fault β) :
    v.not >>= f = (do v.toArray.checkTruth; f v.negated) := by
  rw [not_eq]
  cases v.toArray.checkTruth <;> rfl

theorem map_not (v : Value) :
    v.not.map toArray = v.toArray.checkTruth.map fun _ => v.toArray.negated := by
  rw [not_eq, ← toArray_negated]
  cases v.toArray.checkTruth <;> rfl

theorem not_logical (p : Bool) : (number (.logical p)).not = .ok (number (.logical !p)) := by
  have harray : NDArray.ofNumber (.logical p) = .ofTruth [1, 1] fun _ => p := rfl
  rw [not_eq, toArray, negated, harray, NDArray.checkTruth_ofTruth, NDArray.truth_ofTruth (by decide)]
  rfl

theorem not_ofTruth (dims : Shape) (f : Nat → Bool) :
    (array (.ofTruth dims f)).not = .ok (array (.ofTruth dims fun i => !f i)) := by
  have hneg : (NDArray.ofTruth dims f).negated = .ofTruth dims fun i => !f i :=
    NDArray.ofTruth_congr fun i hi => congrArg (!·) (NDArray.truth_ofTruth hi)
  rw [not_eq, toArray, negated, NDArray.checkTruth_ofTruth, hneg]
  rfl

end Value

namespace Elementwise

/-- Turning the answer round turns every truth value round. -/
theorem pairwise_not (a b : NDArray) (f : Nat → Bool) :
    pairwise a b f >>= Value.not = pairwise a b fun i => !f i := by
  unfold pairwise
  cases broadcast a b with
  | error e => rfl
  | ok dims =>
    show Value.not (logicalResult a b dims f) = .ok (logicalResult a b dims fun i => !f i)
    unfold logicalResult
    split
    · exact Value.not_logical (f 0)
    · exact Value.not_ofTruth dims f

/-- Two answers say the same: the same sort of fault, the same truth value, or the same truth values in
    shapes that agree up to ones at the end. -/
inductive SameTruth : Except Fault Value → Except Fault Value → Prop
  | fault {e f : Fault} (h : e.SameSort f) : SameTruth (.error e) (.error f)
  | number (p : Bool) : SameTruth (.ok (.number (.logical p))) (.ok (.number (.logical p)))
  | array {s t : Shape} (h : s.same t = true) (f : Nat → Bool) :
    SameTruth (.ok (.array (.ofTruth s f))) (.ok (.array (.ofTruth t f)))

/-- The order of the operands decides about the order of the shapes in a fault, and about ones at the end of
    the shape of the answer. -/
theorem pairwise_comm (a b : NDArray) (f : Nat → Bool) : SameTruth (pairwise a b f) (pairwise b a f) := by
  unfold pairwise broadcast logicalResult bothScalar
  cases ha : a.isScalar <;> cases hb : b.isScalar
  case true.true => exact .number (f 0)
  case true.false => exact .array (Shape.same_iff.mpr fun _ => rfl) f
  case false.true => exact .array (Shape.same_iff.mpr fun _ => rfl) f
  case false.false =>
    have hswap : b.dims.same a.dims = a.dims.same b.dims := by
      rw [Bool.eq_iff_iff, Shape.same_iff, Shape.same_iff]
      simp only [eq_comm]
    rw [hswap]
    cases hsame : a.dims.same b.dims with
    | false => exact .fault rfl
    | true => exact .array hsame f

end Elementwise

namespace Comparison

theorem apply_eq (op : Comparison) (a b : Value) :
    op.apply a b = pairwise a.toArray b.toArray (op.element a.toArray b.toArray) := by
  unfold apply pairwise
  dsimp only
  cases broadcast a.toArray b.toArray <;> rfl

theorem ne_element (a b : NDArray) (i : Nat) : ne.element a b i = !eq.element a b i := by
  unfold element
  dsimp only
  split
  · simp only [complex, bne, Bool.not_and]
  · rfl

/-- To be above is to have the other one below. -/
theorem element_converse {op op' : Comparison} (h : op = gt ∧ op' = lt ∨ op = ge ∧ op' = le)
    (a b : NDArray) : op.element a b = op'.element b a := by
  funext i
  unfold element
  rw [Bool.or_comm]
  rcases h with ⟨rfl, rfl⟩ | ⟨rfl, rfl⟩ <;> rfl

theorem apply_converse {op op' : Comparison} (h : op = gt ∧ op' = lt ∨ op = ge ∧ op' = le)
    (a b : Value) : SameTruth (op.apply a b) (op'.apply b a) := by
  rw [apply_eq, apply_eq, element_converse h]
  exact pairwise_comm _ _ _

theorem ne_apply (a b : Value) : ne.apply a b = (do (← eq.apply a b).not) := by
  rw [apply_eq, apply_eq, funext (ne_element a.toArray b.toArray)]
  exact (pairwise_not _ _ _).symm

end Comparison

namespace Connective

def onArrays (op : Connective) (a b : NDArray) : Except Fault Value :=
  pairwise a b fun i => op.holds (a.truth (source a i)) (b.truth (source b i))

theorem apply_eq (op : Connective) (a b : Value) : op.apply a b =
    (do a.toArray.checkTruth; b.toArray.checkTruth; op.onArrays a.toArray b.toArray) := by
  unfold apply onArrays pairwise
  dsimp only
  cases broadcast a.toArray b.toArray <;> rfl

theorem onArrays_negated (op : Connective) (a b : NDArray) : op.onArrays a.negated b.negated =
    pairwise a b fun i => op.holds (!a.truth (source a i)) !b.truth (source b i) := by
  rw [onArrays, pairwise_negated]
  refine pairwise_congr fun i hi hj => ?_
  rw [← NDArray.truth_negated hi, ← NDArray.truth_negated hj]
  rfl

/-- Opposite truth values pass the checks. -/
theorem apply_negated (op : Connective) (a b : Value) :
    op.apply a.negated b.negated = op.onArrays a.toArray.negated b.toArray.negated := by
  rw [apply_eq, Value.toArray_negated, Value.toArray_negated, NDArray.negated, NDArray.checkTruth_ofTruth,
    NDArray.negated, NDArray.checkTruth_ofTruth]
  rfl

/-- A connective of opposite truth values that is the opposite of another one. -/
theorem not_apply {op op' : Connective} (h : ∀ p q, (!op.holds p q) = op'.holds (!p) (!q)) (a b : Value) :
    (do (← op.apply a b).not) = (do op'.apply (← a.not) (← b.not)) := by
  have hchecked : op.onArrays a.toArray b.toArray >>= Value.not = op'.apply a.negated b.negated := by
    calc op.onArrays a.toArray b.toArray >>= Value.not
      _ = pairwise a.toArray b.toArray fun i => !op.holds (a.toArray.truth (source a.toArray i))
            (b.toArray.truth (source b.toArray i)) := pairwise_not _ _ _
      _ = pairwise a.toArray b.toArray fun i => op'.holds (!a.toArray.truth (source a.toArray i))
            !b.toArray.truth (source b.toArray i) := by simp only [h]
      _ = op'.onArrays a.toArray.negated b.toArray.negated := (onArrays_negated op' _ _).symm
      _ = op'.apply a.negated b.negated := (apply_negated op' a b).symm
  rw [Value.bind_not]
  simp only [Value.bind_not, ← hchecked, apply_eq op, bind_assoc]

/-- Operands that are not both true or both false have opposites that differ. -/
theorem xor_apply (a b : Value) : xor.apply a b = (do Comparison.ne.apply (← a.not) (← b.not)) := by
  have hbits : ∀ p q : Bool, (p != q) = ((ofBool !p) != ofBool !q) := by decide
  have hchecked : xor.onArrays a.toArray b.toArray = Comparison.ne.apply a.negated b.negated := by
    rw [Comparison.apply_eq, Value.toArray_negated, Value.toArray_negated, pairwise_negated]
    refine pairwise_congr fun i hi hj => (hbits _ _).trans ?_
    rw [← NDArray.re_negated hi, ← NDArray.re_negated hj]
    rfl
  rw [Value.bind_not]
  simp only [Value.bind_not, ← hchecked, apply_eq]

end Connective

namespace Elementwise

/-- Comparison and logic obey the laws of truth values, whatever the operands: both sides fail, with the
    first fault from the left, or both have the same answer. -/
theorem boolean_laws (a b : Value) :
    Comparison.ne.apply a b = (do (← Comparison.eq.apply a b).not) ∧
    SameTruth (Comparison.gt.apply a b) (Comparison.lt.apply b a) ∧
    SameTruth (Comparison.ge.apply a b) (Comparison.le.apply b a) ∧
    (do (← Connective.and.apply a b).not) = (do Connective.or.apply (← a.not) (← b.not)) ∧
    (do (← Connective.or.apply a b).not) = (do Connective.and.apply (← a.not) (← b.not)) ∧
    Connective.xor.apply a b = (do Comparison.ne.apply (← a.not) (← b.not)) :=
  ⟨Comparison.ne_apply a b, Comparison.apply_converse (.inl ⟨rfl, rfl⟩) a b,
    Comparison.apply_converse (.inr ⟨rfl, rfl⟩) a b, Connective.not_apply (by decide) a b,
    Connective.not_apply (by decide) a b, Connective.xor_apply a b⟩

end Elementwise
end NumericArrays
