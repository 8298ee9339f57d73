import NumericArrays.Proofs.Concat.Join
import NumericArrays.Proofs.Engine.Operators
import NumericArrays.Proofs.InPlace.Outcome
import NumericArrays.Workspace

/-! Changes in place as functions from arrays to arrays. -/
namespace NumericArrays.Workspace

open InPlace

variable {a b : NDArray} {v w : Values} {c : Change}

theorem Extents.shape_le (dims : Extents) : ∀ d ∈ dims.shape, d ≤ maxCount := by
  intro d hd
  obtain ⟨x, -, rfl⟩ := List.mem_map.mp hd
  have := x.toNat_lt
  unfold maxCount
  omega

namespace Change

def apply (v : Values) (a : NDArray) : Change → Except Fault (Option Bool × NDArray)
  | set coords x => (a.set coords (v x)).map (none, ·)
  | setAt index x => (a.setAt (index.map v) (v x)).map (none, ·)
  | resize dims => (a.resize dims.shape).map (none, ·)
  | promote => .ok (none, a.promote)
  | demote => .ok (some a.hasZeroImag, a.demote)

theorem run_demote (a : NDArray) :
    InPlace.demote.run (ofArray a) = .ok a.hasZeroImag (ofArray a.demote) := by
  obtain ⟨dims, real, imag, kind⟩ := a
  cases imag with
  | none => rfl
  | some im =>
    have hzero : NDArray.hasZeroImag ⟨dims, real, some im, kind⟩ =
        (im.extract 0 dims.count).all (· == 0) := rfl
    unfold InPlace.demote NDArray.demote
    rw [run_get_bind, hzero]
    show (do
      if (im.extract 0 dims.count).all (· == 0) then modify fun m : Memory => { m with imag := none }
      return (im.extract 0 dims.count).all (· == 0) : Steps Bool).run _ = _
    cases (im.extract 0 dims.count).all (· == 0) with
    | true => rfl
    | false => rfl

theorem run_promote (a : NDArray) : InPlace.promote.run (ofArray a) = .ok () (ofArray a.promote) := by
  cases h : a.imag with
  | none => exact InPlace.run_promote h
  | some im =>
    have hpromote : a.promote = a := by rw [NDArray.promote, h]
    unfold InPlace.promote
    rw [run_get_bind, if_neg (by simp [ofArray, h]), hpromote]
    rfl

theorem run_setAt (ha : a.WellFormed) (index : List Value) (x : Value) :
    (InPlace.setAt index x).run (ofArray a) = answer (ofArray a) (a.setAt index x) := by
  unfold InPlace.setAt NDArray.setAt
  cases index.mapM Value.toIndex with
  | error f => rfl
  | ok coords => exact run_set ha coords x

/-- Steps without an answer of their own. -/
theorem run_silent {s : Steps Unit} {r : Except Fault NDArray}
    (h : s.run (ofArray a) = answer (ofArray a) r) :
    (do s; return none : Steps (Option Bool)).run (ofArray a) =
      match r.map fun x => ((none : Option Bool), x) with
      | .ok (b, x) => .ok b (ofArray x)
      | .error f => .error (.fault f) (ofArray a) := by
  cases r with
  | error f => exact run_bind_error h _
  | ok x => exact run_bind_ok h _

/-- Memory holds the changed copy after a change, and the array as it was after a fault. -/
theorem run_steps (ha : a.WellFormed) (v : Values) (c : Change) :
    (c.steps v).run (ofArray a) =
      match c.apply v a with
      | .ok (b, x) => .ok b (ofArray x)
      | .error f => .error (.fault f) (ofArray a) := by
  cases c with
  | set coords x => exact run_silent (run_set ha coords (v x))
  | setAt index x => exact run_silent (run_setAt ha (index.map v) (v x))
  | resize dims => exact run_silent (run_resize ha dims.shape)
  | promote => exact run_bind_ok (run_promote a) _
  | demote => exact run_bind_ok (run_demote a) _

/-- A cell holds the changed copy after a change, and what it held before after a fault. -/
theorem run_onCell_steps {x : Value} (hx : x.WellFormed) (v : Values) (c : Change) :
    (onCell (c.steps v)).run (Cell.ofValue x) =
      match c.apply v x.toArray with
      | .ok (b, y) => .ok b (.array (ofArray y))
      | .error f => .error (.fault f) (Cell.ofValue x) := by
  have hrun := run_steps hx.toArray v c
  cases h : c.apply v x.toArray with
  | error f =>
    rw [h] at hrun
    exact run_onCell_error hrun
  | ok r =>
    rw [h] at hrun
    exact run_onCell_ok hrun

theorem ok_of_silent {x : Except Fault NDArray} {r : Option Bool}
    (h : x.map (fun y => ((none : Option Bool), y)) = .ok (r, b)) : x = .ok b := by
  obtain ⟨y, hy, hpair⟩ := exists_of_map_ok h
  cases hpair
  exact hy

inductive Changed (v : Values) (a : NDArray) : NDArray → Prop
  | set {coords : List Nat} {i : Nat} {b : NDArray} (h : a.set coords (v i) = .ok b) : Changed v a b
  | resize {dims : Extents} {b : NDArray} (h : a.resize dims.shape = .ok b) : Changed v a b
  | promote : Changed v a a.promote
  | demote : Changed v a a.demote

theorem changed_of_apply {r : Option Bool} (h : c.apply v a = .ok (r, b)) : Changed v a b := by
  cases c with
  | set coords i => exact .set (ok_of_silent h)
  | setAt index i =>
    obtain ⟨coords, -, hset⟩ := exists_of_bind_ok (ok_of_silent h)
    exact .set hset
  | resize dims => exact .resize (ok_of_silent h)
  | promote =>
    cases h
    exact .promote
  | demote =>
    cases h
    exact .demote

theorem apply_wellFormed (ha : a.WellFormed) {r : Option Bool} (h : c.apply v a = .ok (r, b)) :
    b.WellFormed := by
  cases changed_of_apply h with
  | set hset => exact NDArray.set_wellFormed ha hset
  | resize hresize => exact NDArray.resize_wellFormed ha (Extents.shape_le _) hresize
  | promote => exact ha.promote
  | demote => exact ha.demote

end Change
end NumericArrays.Workspace
