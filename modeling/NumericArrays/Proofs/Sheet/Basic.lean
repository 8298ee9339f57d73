import NumericArrays.Proofs.NDArray.Write
import NumericArrays.Proofs.Shape.Address

/-! Sheets: what an array holds, as a plain map from addresses to numbers. -/
namespace NumericArrays

/-- A shape, a kind, and a number at every address, zero where there is no element. Addresses that
    differ by ones at the end are the same. -/
@[ext]
structure Sheet where
  dims : Shape
  kind : Storage
  isComplex : Bool
  cell : List Nat → Cartesian Float

/-- The form in which an element of an array is read. -/
def Number.shaped (kind : Storage) (isComplex : Bool) (z : Cartesian Float) : Number :=
  match kind, isComplex with
  | .logical, _ => .logical (z.re != 0)
  | _, true => .complex z
  | _, false => .real z.re

namespace Sheet

def read (s : Sheet) (coords : List Nat) : Option Number :=
  if s.dims.Has coords then
    some (Number.shaped s.kind s.isComplex (s.cell (s.dims.address coords)))
  else none

def column (s : Sheet) (c : List Nat) : Cartesian Float :=
  if Shape.Holds [s.dims.prod, 1] c then s.cell (s.dims.placeOf (c.getD 0 1 - 1)) else ⟨0, 0⟩

/-- One cell is overwritten, in the kind of the sheet; a logical sheet takes on the kind of the element.
    The others stay where they are, or in storage order where the sheet turns into a column. -/
def write (s : Sheet) (coords : List Nat) (e : Entry) : Sheet :=
  let dims := s.dims.afterWrite coords
  let kind := if s.kind = .logical then e.kind else s.kind
  let others := if s.dims.TurnsColumn coords then s.column else s.cell
  { dims, kind
    isComplex := s.isComplex || e.isComplex
    cell := fun c =>
      if Shape.same c (dims.address coords) then NDArray.stored kind e.value
      else others c }

def set (s : Sheet) (coords : List Nat) (v : Value) : Sheet :=
  match v.asEntry with
  | none => s
  | some e => s.write coords e

end Sheet

namespace NDArray

variable {a b g : NDArray} {c coords : List Nat} {e : Entry} {p : Nat} {z : Cartesian Float}

def sheet (a : NDArray) : Sheet where
  dims := a.dims
  kind := a.kind
  isComplex := a.isComplex
  cell c := if a.dims.Holds c then a.cartesian (a.dims.offset (c.map (· - 1))) else ⟨0, 0⟩

theorem cell_of_holds (h : a.dims.Holds c) :
    a.sheet.cell c = a.cartesian (a.dims.offset (c.map (· - 1))) :=
  if_pos h

theorem cell_of_not_holds (h : ¬ a.dims.Holds c) : a.sheet.cell c = ⟨0, 0⟩ :=
  if_neg h

theorem cell_placeOf (h : p < a.dims.prod) : a.sheet.cell (a.dims.placeOf p) = a.cartesian p := by
  rw [cell_of_holds (Shape.holds_placeOf h), Shape.offset_placeOf h]

theorem cell_address (h : a.dims.Has coords) :
    a.sheet.cell (a.dims.address coords) = a.cartesian (a.dims.position coords) := by
  rw [cell_of_holds h.holds_address, Shape.position_eq_offset h]

/-! ### Reading -/

theorem number_eq_shaped (p : Nat) : a.number p = Number.shaped a.kind a.isComplex (a.cartesian p) := by
  unfold number Number.shaped isComplex
  cases a.kind <;> cases a.imag <;> rfl

theorem get_of_has (ha : a.WellFormed) (h : a.dims.Has coords) :
    a.get coords = .ok (a.number (a.dims.position coords)) := by
  rw [get, find_of_has ha.counted h]
  rfl

theorem has_of_get {x : Number} (ha : a.WellFormed) (h : a.get coords = .ok x) :
    a.dims.Has coords := by
  by_contra hn
  rw [get, Shape.find] at h
  cases h0 : coords.findIdx? (· == 0) with
  | some axis =>
    rw [Shape.locate_of_zero h0] at h
    cases h
  | none =>
    rw [Shape.locate_of_not_has ha.counted h0 hn] at h
    cases h

/-- Reading an array is reading its sheet. -/
theorem get_eq_ok_iff {x : Number} (ha : a.WellFormed) :
    a.get coords = .ok x ↔ a.sheet.read coords = some x := by
  by_cases h : a.dims.Has coords
  · have hread : a.sheet.read coords = some (a.number (a.dims.position coords)) := by
      have hcell := cell_address h
      rw [Sheet.read, if_pos (show a.sheet.dims.Has coords from h), number_eq_shaped, ← hcell]
      rfl
    rw [hread, get_of_has ha h]
    simp
  · rw [Sheet.read, if_neg (show ¬ a.sheet.dims.Has coords from h)]
    constructor
    · intro hget
      exact absurd (has_of_get ha hget) h
    · intro hnone
      cases hnone

/-! ### Truth values -/

/-- A logical array holds nothing but truth values. All arrays that operations make are so. -/
def Truthful (a : NDArray) : Prop := a.kind = .logical → ∀ p, a.re p = 0 ∨ a.re p = 1

/-- Truth values are the same numbers in every kind. -/
theorem stored_truth (k : Storage) (h : z.re = 0 ∨ z.re = 1) (him : z.im = 0) : stored k z = z := by
  refine Cartesian.ext ?_ ?_
  · rcases h with h | h
    · simp [stored, h]
    · simp [stored, h]
  · simp [stored, him]

theorem Truthful.stored_cartesian (ht : a.Truthful) (ha : a.WellFormed) (hk : a.kind = .logical)
    (k : Storage) (p : Nat) : stored k (a.cartesian p) = a.cartesian p :=
  stored_truth k (ht hk p) (im_of_real (ha.logical_real hk))

theorem ofBool_ne_zero (h : z.re = 0 ∨ z.re = 1) : ofBool (z.re != 0) = z.re := by
  rcases h with h | h
  · rw [h]
    decide
  · rw [h]
    decide

/-- What is read from a truthful array is what it holds. -/
theorem Truthful.toCartesian_number (ht : a.Truthful) (ha : a.WellFormed) (p : Nat) :
    (a.number p).toCartesian = a.cartesian p := by
  rw [number_eq_shaped]
  have hreal : a.isComplex = false → a.im p = 0 := by
    intro hc
    exact im_of_real (by simpa [isComplex] using hc)
  cases hk : a.kind with
  | logical =>
    have him : a.im p = 0 := im_of_real (ha.logical_real hk)
    exact Cartesian.ext (ofBool_ne_zero (z := a.cartesian p) (ht hk p)) him.symm
  | single | double =>
    cases hc : a.isComplex with
    | false => exact Cartesian.ext rfl (hreal hc).symm
    | true => rfl

end NDArray
end NumericArrays
