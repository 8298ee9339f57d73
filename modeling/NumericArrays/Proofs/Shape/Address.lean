import NumericArrays.Proofs.Shape.Growth

/-! Addresses: coordinates axis by axis, whatever way an element was named. -/
namespace NumericArrays.Shape

variable {s t : Shape} {c e coords : List Nat} {p : Nat}

/-- Coordinates, one for each axis, lie within the extents. They count from one, and missing ones are
    one. -/
def Holds (s : Shape) (c : List Nat) : Prop :=
  ∀ axis, 1 ≤ c.getD axis 1 ∧ c.getD axis 1 ≤ s.extent axis

theorem holds_iff_search :
    s.Holds c ↔ c.findIdx? (· == 0) = none ∧ s.exceededAxis? c = none := by
  rw [findIdx?_zero_eq_none_iff, exceededAxis?_eq_none_iff]
  exact forall_and

instance : Decidable (s.Holds c) := decidable_of_iff _ holds_iff_search.symm

theorem holds_iff_covers :
    s.Holds c ↔ (∀ axis, 1 ≤ c.getD axis 1) ∧ s.covers (c.map (· - 1)) = true := by
  constructor
  · intro h
    have hpos : ∀ axis, 1 ≤ c.getD axis 1 := fun axis => (h axis).1
    exact ⟨hpos, (covers_map_pred hpos).mpr fun axis => (h axis).2⟩
  · rintro ⟨hpos, hcov⟩ axis
    exact ⟨hpos axis, (covers_map_pred hpos).mp hcov axis⟩

theorem Holds.covers (h : s.Holds c) : s.covers (c.map (· - 1)) = true := (holds_iff_covers.mp h).2

theorem Holds.mono (h : s.Holds c) (hle : ∀ axis, s.extent axis ≤ t.extent axis) : t.Holds c :=
  fun axis => ⟨(h axis).1, (h axis).2.trans (hle axis)⟩

theorem Holds.prod_pos (h : s.Holds c) : 0 < s.prod := prod_pos_of_covers h.covers

def placeOf (s : Shape) (p : Nat) : List Nat := (s.coordsOf p).map (· + 1)

theorem map_pred_placeOf (s : Shape) (p : Nat) : (s.placeOf p).map (· - 1) = s.coordsOf p := by
  simp [placeOf, Function.comp_def]

theorem getD_placeOf (s : Shape) (p axis : Nat) :
    (s.placeOf p).getD axis 1 = (s.coordsOf p).getD axis 0 + 1 :=
  List.getD_map (s.coordsOf p) 0 (· + 1)

theorem holds_placeOf (h : p < s.prod) : s.Holds (s.placeOf p) := by
  rw [holds_iff_covers, map_pred_placeOf]
  refine ⟨fun axis => ?_, covers_coordsOf h⟩
  rw [getD_placeOf]
  omega

theorem offset_placeOf (h : p < s.prod) : s.offset ((s.placeOf p).map (· - 1)) = p := by
  rw [map_pred_placeOf, offset_coordsOf h]

/-- The address of an element: a single coordinate counts through the whole array. -/
def address (s : Shape) : List Nat → List Nat
  | [k] => s.placeOf (k - 1)
  | coords => coords

theorem address_of_length_ne_one (h : coords.length ≠ 1) : s.address coords = coords := by
  match coords, h with
  | [], _ | _ :: _ :: _, _ => rfl

theorem holds_iff_has (h : coords.length ≠ 1) : s.Has coords ↔ s.Holds coords :=
  has_of_length_ne_one h

theorem has_iff : s.Has coords ↔
    if coords.length = 1 then 1 ≤ coords.getD 0 1 ∧ coords.getD 0 1 ≤ s.prod else s.Holds coords := by
  match coords with
  | [k] => rfl
  | [] | _ :: _ :: _ => exact holds_iff_has (by simp)

instance : Decidable (s.Has coords) := decidable_of_iff _ has_iff.symm

theorem Has.holds_address (h : s.Has coords) : s.Holds (s.address coords) := by
  by_cases hl : coords.length = 1
  · obtain ⟨k, rfl⟩ := List.length_eq_one_iff.mp hl
    exact holds_placeOf (position_lt h)
  · rw [address_of_length_ne_one hl]
    exact (holds_iff_has hl).mp h

theorem position_eq_offset (h : s.Has coords) :
    s.position coords = s.offset ((s.address coords).map (· - 1)) := by
  by_cases hl : coords.length = 1
  · obtain ⟨k, rfl⟩ := List.length_eq_one_iff.mp hl
    exact (offset_placeOf (position_lt h)).symm
  · rw [address_of_length_ne_one hl, position_of_length_ne_one hl]

theorem same_iff_getD : same c e = true ↔ ∀ axis, c.getD axis 1 = e.getD axis 1 := same_iff

theorem offset_eq_iff (hc : s.Holds c) (he : s.Holds e) :
    s.offset (c.map (· - 1)) = s.offset (e.map (· - 1)) ↔ same c e = true := by
  rw [same_iff_getD]
  constructor
  · intro h axis
    have hinj := offset_inj hc.covers he.covers h axis
    rw [getD_map_pred, getD_map_pred] at hinj
    have := (hc axis).1
    have := (he axis).1
    omega
  · intro h
    apply offset_congr
    intro axis
    rw [getD_map_pred, getD_map_pred, h]

theorem Holds.congr (h : same c e = true) : s.Holds c ↔ s.Holds e := by
  rw [same_iff_getD] at h
  simp only [Holds, h]

/-- Along a column the position is the first coordinate. -/
theorem offset_column {n : Nat} (h : Holds [n, 1] c) :
    offset [n, 1] (c.map (· - 1)) = c.getD 0 1 - 1 := by
  cases c with
  | nil => rfl
  | cons x cs =>
    have hcov := covers_cons.mp h.covers
    have hzero : offset [1] (cs.map (· - 1)) < List.prod [1] := offset_lt hcov.2
    rw [List.map_cons, offset]
    simp only [List.prod_cons, List.prod_nil, mul_one, Nat.lt_one_iff] at hzero
    rw [hzero, mul_zero, add_zero]
    rfl

/-! ### Shapes after a write -/

/-- A write at the coordinates turns the array into a column first. -/
def TurnsColumn (s : Shape) (coords : List Nat) : Prop :=
  coords.length = 1 ∧ ¬ s.Has coords ∧ ¬ s.isVector = true

instance : Decidable (s.TurnsColumn coords) :=
  inferInstanceAs (Decidable (_ ∧ _ ∧ _))

def afterWrite (s : Shape) (coords : List Nat) : Shape :=
  if s.Has coords then s
  else match coords with
    | [n] => s.grownToCount n
    | _ => s.grownTo coords

end NumericArrays.Shape
