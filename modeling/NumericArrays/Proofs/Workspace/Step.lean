import NumericArrays.Proofs.Workspace.Change

/-! What each command does to a workspace of well-formed arrays. -/
namespace NumericArrays

namespace InPlace.Cell

/-- The number of elements is the product of the extents, and the array is well formed. -/
def WellFormed : Cell → Prop
  | number _ => True
  | array m => m.len = m.dims.count ∧ m.toArray.WellFormed

theorem value_ofValue (v : Value) : (ofValue v).value = v := by
  cases v <;> rfl

theorem wellFormed_ofValue {v : Value} (hv : v.WellFormed) : (ofValue v).WellFormed := by
  cases v with
  | number x => trivial
  | array a => exact ⟨rfl, hv⟩

theorem WellFormed.value {c : Cell} (hc : c.WellFormed) : c.value.WellFormed := by
  cases c with
  | number x => trivial
  | array m => exact hc.2

theorem WellFormed.ofValue_value {c : Cell} (hc : c.WellFormed) : ofValue c.value = c := by
  cases c with
  | number x => rfl
  | array m =>
    obtain ⟨dims, len, real, imag, kind⟩ := m
    have hlen : len = dims.count := hc.1
    rw [hlen]
    rfl

end InPlace.Cell

namespace Workspace

open InPlace

variable {e : Engine} {s : Workspace} {x : Value}

/-! ### The workspace -/

def WellFormed (s : Workspace) : Prop := ∀ i, (s.cell i).WellFormed

theorem WellFormed.values (hs : s.WellFormed) (i : Nat) : (s.values i).WellFormed :=
  (hs i).value

theorem WellFormed.put (hs : s.WellFormed) {c : Cell} (hc : c.WellFormed) (target : Nat) :
    (s.put target c).WellFormed := by
  intro i
  show Cell.WellFormed (if i = target then c else s.cell i)
  split
  · exact hc
  · exact hs i

/-! ### What a command does -/

variable {target : Nat}

theorem step_make_of_none {c : Construction} (h : c.make = none) :
    step e s (.make target c) = (⟨[], .ok .refused⟩, s) := by
  simp only [step, h]

theorem step_make_of_some {c : Construction} (h : c.make = some x) :
    step e s (.make target c) = (⟨[], .ok (.value x)⟩, s.put target (.ofValue x)) := by
  simp only [step, h]

theorem step_compute_of_error {o : Operation} {f : Fault} (h : (o.eval e s.values).result = .error f) :
    step e s (.compute target o) = (⟨(o.eval e s.values).events, .error (.fault f)⟩, s) := by
  simp only [step, h]

theorem step_compute_of_ok {o : Operation} (h : (o.eval e s.values).result = .ok x) :
    step e s (.compute target o) =
      (⟨(o.eval e s.values).events, .ok (.value x)⟩, s.put target (.ofValue x)) := by
  simp only [step, h]

theorem put_cell (s : Workspace) (target : Nat) : s.put target (s.cell target) = s := by
  obtain ⟨cell⟩ := s
  unfold put
  congr 1
  funext i
  split
  · rename_i h
    rw [h]
  · rfl

theorem run_change (hs : s.WellFormed) (target : Nat) (c : Change) :
    (onCell (c.steps s.values)).run (s.cell target) =
      match c.apply s.values (s.values target).toArray with
      | .ok (b, y) => .ok b (.array (ofArray y))
      | .error f => .error (.fault f) (s.cell target) := by
  have hcell : Cell.ofValue (s.values target) = s.cell target := (hs target).ofValue_value
  have hrun := Change.run_onCell_steps (hs.values target) s.values c
  rwa [hcell] at hrun

/-- A change that fails leaves everything as it was. -/
theorem step_change_of_error (hs : s.WellFormed) {c : Change} {f : Fault}
    (h : c.apply s.values (s.values target).toArray = .error f) :
    step e s (.change target c) = (⟨[], .error (.fault f)⟩, s) := by
  have hrun := run_change hs target c
  rw [h] at hrun
  simp only [step, hrun, put_cell]

theorem step_change_of_ok (hs : s.WellFormed) {c : Change} {b : Option Bool} {y : NDArray}
    (h : c.apply s.values (s.values target).toArray = .ok (b, y)) :
    step e s (.change target c) =
      (⟨[], .ok (.ofChange b)⟩, s.put target (.array (ofArray y))) := by
  have hrun := run_change hs target c
  rw [h] at hrun
  simp only [step, hrun]

inductive Made : NDArray → Prop
  | single (y : Number) : Made (.ofNumber y)
  | zeros {dims : Extents} {kind : Storage} {a : NDArray} (h : NDArray.zeros? dims.shape kind = some a) : Made a
  | reals {dims : Extents} {real : Array Float} {a : NDArray}
    (h : NDArray.ofReals? dims.shape real .double = some a) : Made a
  | parts {dims : Extents} {real imag : Array Float} {a : NDArray}
    (h : NDArray.ofParts? dims.shape real imag = some a) : Made a
  | bools {dims : Extents} {bs : Array Bool} {a : NDArray} (h : NDArray.ofBools? dims.shape bs = some a) : Made a
  | byPosition {dims : Extents} {f : Nat → Float} {a : NDArray} (h : NDArray.ofFn? dims.shape f = some a) : Made a

theorem make_cases {c : Construction} (h : c.make = some x) :
    (∃ y, x = .number y) ∨ ∃ a, Made a ∧ x = .array a := by
  cases c with
  | number y =>
    cases h
    exact .inl ⟨y, rfl⟩
  | single y =>
    cases h
    exact .inr ⟨_, .single y, rfl⟩
  | zeros dims kind =>
    obtain ⟨a, ha, rfl⟩ := Option.map_eq_some_iff.mp h
    exact .inr ⟨a, .zeros ha, rfl⟩
  | reals dims real =>
    obtain ⟨a, ha, rfl⟩ := Option.map_eq_some_iff.mp h
    exact .inr ⟨a, .reals ha, rfl⟩
  | parts dims real imag =>
    obtain ⟨a, ha, rfl⟩ := Option.map_eq_some_iff.mp h
    exact .inr ⟨a, .parts ha, rfl⟩
  | cartesian dims zs =>
    obtain ⟨a, ha, rfl⟩ := Option.map_eq_some_iff.mp h
    exact .inr ⟨a, .parts ha, rfl⟩
  | bools dims bs =>
    obtain ⟨a, ha, rfl⟩ := Option.map_eq_some_iff.mp h
    exact .inr ⟨a, .bools ha, rfl⟩
  | byPosition dims f =>
    obtain ⟨a, ha, rfl⟩ := Option.map_eq_some_iff.mp h
    exact .inr ⟨a, .byPosition ha, rfl⟩

inductive Assigns (e : Engine) (s : Workspace) : Command → Nat → Value → Prop
  | make {c : Construction} {target : Nat} {x : Value} (h : c.make = some x) :
    Assigns e s (.make target c) target x
  | compute {o : Operation} {target : Nat} {x : Value} (h : (o.eval e s.values).result = .ok x) :
    Assigns e s (.compute target o) target x
  | change {c : Change} {target : Nat} {b : Option Bool} {y : NDArray}
    (h : c.apply s.values (s.values target).toArray = .ok (b, y)) :
    Assigns e s (.change target c) target (.array y)

/-- A command puts a value under one name or leaves everything as it was, and what it answers is that value
    or one that was looked at. -/
theorem step_cases (hs : s.WellFormed) (c : Command) :
    (∃ target x, Assigns e s c target x ∧ (step e s c).2 = s.put target (.ofValue x) ∧
      ∀ y, (step e s c).1.result = .ok (.value y) → y = x) ∨
    (step e s c).2 = s ∧
      ∀ y, (step e s c).1.result = .ok (.value y) → ∃ q : Query, q.answer s.values = .ok (.value y) := by
  cases c with
  | make target c =>
    cases hc : c.make with
    | none =>
      rw [step_make_of_none hc]
      exact .inr ⟨rfl, fun y hy => by cases hy⟩
    | some x =>
      rw [step_make_of_some hc]
      exact .inl ⟨target, x, .make hc, rfl, fun y hy => by cases hy; rfl⟩
  | compute target o =>
    cases ho : (o.eval e s.values).result with
    | error f =>
      rw [step_compute_of_error ho]
      exact .inr ⟨rfl, fun y hy => by cases hy⟩
    | ok x =>
      rw [step_compute_of_ok ho]
      exact .inl ⟨target, x, .compute ho, rfl, fun y hy => by cases hy; rfl⟩
  | change target c =>
    cases hc : c.apply s.values (s.values target).toArray with
    | error f =>
      rw [step_change_of_error hs hc]
      exact .inr ⟨rfl, fun y hy => by cases hy⟩
    | ok r =>
      obtain ⟨b, a⟩ := r
      rw [step_change_of_ok hs hc]
      refine .inl ⟨target, .array a, .change hc, rfl, fun y hy => ?_⟩
      cases b <;> cases hy
  | look q =>
    refine .inr ⟨rfl, fun y hy => ⟨q, ?_⟩⟩
    change (q.answer s.values).mapError Stop.fault = .ok (.value y) at hy
    cases hq : q.answer s.values with
    | error f => rw [hq] at hy; cases hy
    | ok r => rw [hq] at hy; cases hy; rfl

end Workspace
end NumericArrays
