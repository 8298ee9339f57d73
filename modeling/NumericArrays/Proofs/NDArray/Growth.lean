import NumericArrays.Proofs.NDArray.WellFormed

/-! Growing for coordinates past the end: the shape that results, and the memory it takes. -/
namespace NumericArrays.NDArray

variable {a b : NDArray} {coords : List Nat} {p : Nat}

/-! ### The grown shape -/

/-- The array in the form in which it grows: an array that is no vector is a column for a single
    coordinate. -/
def growthForm (a : NDArray) : List Nat → NDArray
  | [_] => if a.dims.isVector then a else { a with dims := [a.size, 1] }
  | _ => a

def grownDims (a : NDArray) : List Nat → Shape
  | [n] => (a.growthForm [n]).dims.grownToCount n
  | coords => a.dims.grownTo coords

theorem growFor_eq (a : NDArray) (coords : List Nat) :
    a.growFor coords = (a.growthForm coords).resize (a.grownDims coords) := by
  match coords with
  | [n] =>
    simp only [growFor, growthForm, grownDims]
    split <;> rfl
  | [] | _ :: _ :: _ => rfl

theorem growthForm_of_length_ne_one (h : coords.length ≠ 1) : a.growthForm coords = a := by
  match coords, h with
  | [], _ | _ :: _ :: _, _ => rfl

theorem growthForm_of_isVector (h : a.dims.isVector = true) : a.growthForm coords = a := by
  match coords with
  | [n] => simp [growthForm, h]
  | [] | _ :: _ :: _ => rfl

theorem growthForm_of_not_isVector {n : Nat} (h : ¬ a.dims.isVector = true) :
    a.growthForm [n] = { a with dims := [a.size, 1] } := by
  simp [growthForm, h]

theorem grownDims_of_length_ne_one (h : coords.length ≠ 1) :
    a.grownDims coords = a.dims.grownTo coords := by
  match coords, h with
  | [], _ | _ :: _ :: _, _ => rfl

theorem count?_column {m : Nat} (h : m ≤ maxCount) : Shape.count? [m, 1] = some m := by
  have hc := Shape.count?_pair (n := 1) h (by simpa using h)
  rwa [mul_one] at hc

theorem WellFormed.growthForm (ha : a.WellFormed) (coords : List Nat) :
    (a.growthForm coords).WellFormed := by
  by_cases hl : coords.length = 1
  · obtain ⟨n, rfl⟩ := List.length_eq_one_iff.mp hl
    by_cases hv : a.dims.isVector = true
    · rwa [growthForm_of_isVector hv]
    · rw [growthForm_of_not_isVector hv]
      have hc := count?_column ha.size_le_maxCount
      have hsize : size { a with dims := [a.size, 1] } = a.size := Shape.count_of_count? hc
      refine wellFormed_iff.mpr ⟨by simp, fun d hd => ?_, by rwa [hsize], by
        rw [hsize]; exact ha.size_le, ha.imag_size, fun p hp => ?_, fun p hp => ?_,
        ha.logical_real⟩
      · rcases List.mem_pair.mp hd with rfl | rfl
        · exact ha.size_le_maxCount
        · decide
      · exact ha.re_of_size_le (hsize ▸ hp)
      · exact ha.im_of_size_le (hsize ▸ hp)
  · rwa [growthForm_of_length_ne_one hl]

theorem size_growthForm (ha : a.WellFormed) (coords : List Nat) :
    (a.growthForm coords).size = a.size := by
  by_cases hl : coords.length = 1
  · obtain ⟨n, rfl⟩ := List.length_eq_one_iff.mp hl
    by_cases hv : a.dims.isVector = true
    · rw [growthForm_of_isVector hv]
    · rw [growthForm_of_not_isVector hv]
      exact Shape.count_of_count? (count?_column ha.size_le_maxCount)
  · rw [growthForm_of_length_ne_one hl]

theorem cartesian_growthForm (coords : List Nat) :
    (a.growthForm coords).cartesian p = a.cartesian p := by
  unfold growthForm
  split
  · split <;> rfl
  · rfl

theorem kind_growthForm (coords : List Nat) : (a.growthForm coords).kind = a.kind := by
  unfold growthForm
  split
  · split <;> rfl
  · rfl

theorem isComplex_growthForm (coords : List Nat) :
    (a.growthForm coords).isComplex = a.isComplex := by
  unfold growthForm
  split
  · split <;> rfl
  · rfl

theorem capacity_growthForm (coords : List Nat) : (a.growthForm coords).capacity = a.capacity := by
  unfold growthForm
  split
  · split <;> rfl
  · rfl

theorem isVector_growthForm (n : Nat) : (a.growthForm [n]).dims.isVector = true := by
  by_cases hv : a.dims.isVector = true
  · rwa [growthForm_of_isVector hv]
  · rw [growthForm_of_not_isVector hv]
    exact Shape.isVector_column _

/-- The grown shape for a single coordinate: a row for an empty array, else the vector with its one
    long axis set. -/
theorem grownDims_single (ha : a.WellFormed) (n : Nat) :
    (a.size = 0 ∧ a.grownDims [n] = [1, n]) ∨
      (a.size ≠ 0 ∧ ∃ axis < (a.growthForm [n]).dims.length,
        a.grownDims [n] = (a.growthForm [n]).dims.set axis n ∧
          ∀ i, i ≠ axis → (a.growthForm [n]).dims.extent i = 1) := by
  have hsize := size_growthForm ha [n]
  by_cases h0 : a.size = 0
  · exact .inl ⟨h0, Shape.grownToCount_of_empty (hsize.trans h0)⟩
  · obtain ⟨axis, hl, hset, hone⟩ := Shape.grownToCount_of_isVector (ha.growthForm [n]).two_axes
      (isVector_growthForm n) (by rwa [← hsize] at h0)
    exact .inr ⟨h0, axis, hl, hset n, hone⟩

theorem isVector_grownDims (ha : a.WellFormed) (n : Nat) : (a.grownDims [n]).isVector = true := by
  rcases grownDims_single ha n with ⟨-, h⟩ | ⟨-, axis, hl, h, hone⟩
  · rw [h]
    exact Shape.isVector_row n
  · rw [h]
    exact Shape.isVector_iff.mpr ⟨axis, fun i hi => by rw [Shape.extent_set hl, if_neg hi, hone i hi]⟩

theorem grownDims_single_prod (ha : a.WellFormed) (n : Nat) : (a.grownDims [n]).prod = n := by
  rcases grownDims_single ha n with ⟨-, h⟩ | ⟨-, axis, hl, h, hone⟩
  · simp [h]
  · have hother : ∀ i, i ≠ axis → Shape.extent ((a.growthForm [n]).dims.set axis n) i = 1 :=
      fun i hi => by rw [Shape.extent_set hl, if_neg hi, hone i hi]
    rw [h, Shape.prod_of_single hother, Shape.extent_set hl, if_pos rfl]

theorem two_le_length_grownDims (ha : a.WellFormed) (coords : List Nat) :
    2 ≤ (a.grownDims coords).length := by
  by_cases hl : coords.length = 1
  · obtain ⟨n, rfl⟩ := List.length_eq_one_iff.mp hl
    rcases grownDims_single ha n with ⟨-, h⟩ | ⟨-, axis, -, h, -⟩
    · simp [h]
    · rw [h, List.length_set]
      exact (ha.growthForm [n]).two_axes
  · rw [grownDims_of_length_ne_one hl, Shape.length_grownTo]
    exact ha.two_axes.trans (le_max_left _ _)

theorem normalize_grownDims (ha : a.WellFormed) (coords : List Nat) :
    (a.grownDims coords).normalize = a.grownDims coords :=
  Shape.normalize_of_length (two_le_length_grownDims ha coords)

/-- The grown shape has room for the coordinates, so a retry after growth finds them. -/
theorem grownDims_has (ha : a.WellFormed) (h : ∀ axis, 1 ≤ coords.getD axis 1) :
    (a.grownDims coords).Has coords := by
  by_cases hl : coords.length = 1
  · obtain ⟨n, rfl⟩ := List.length_eq_one_iff.mp hl
    exact ⟨h 0, (grownDims_single_prod ha n).ge⟩
  · rw [grownDims_of_length_ne_one hl]
    exact Shape.grownTo_has hl h

theorem grownDims_prod_pos (ha : a.WellFormed) (h : ∀ axis, 1 ≤ coords.getD axis 1) :
    0 < (a.grownDims coords).prod :=
  Nat.zero_lt_of_lt (Shape.position_lt (grownDims_has ha h))

/-- An array that is not empty never shrinks by growing. -/
theorem extent_le_grownDims (ha : a.WellFormed) (h0 : a.size ≠ 0)
    (hpos : ∀ axis, 1 ≤ coords.getD axis 1) (h : ¬ a.dims.Has coords) (axis : Nat) :
    (a.growthForm coords).dims.extent axis ≤ (a.grownDims coords).extent axis := by
  by_cases hl : coords.length = 1
  · obtain ⟨n, rfl⟩ := List.length_eq_one_iff.mp hl
    rcases grownDims_single ha n with ⟨h0', -⟩ | ⟨-, k, hk, hdims, hone⟩
    · contradiction
    · have hsize : (a.growthForm [n]).dims.extent k = a.size := by
        rw [← Shape.prod_of_single hone, ← (ha.growthForm [n]).size_eq_prod, size_growthForm ha]
      have hlt : a.size < n := by
        by_contra hge
        rw [ha.size_eq_prod] at hge
        exact h ⟨hpos 0, by omega⟩
      rw [hdims, Shape.extent_set hk]
      split
      · rename_i heq
        rw [heq, hsize]
        exact hlt.le
      · exact le_rfl
  · rw [growthForm_of_length_ne_one hl, grownDims_of_length_ne_one hl, Shape.extent_grownTo]
    exact le_max_left _ _

/-! ### The memory it takes -/

/-- How many elements the buffers have that growing has to allocate. There are none where the array
    stays a vector within its capacity. -/
def demand (a : NDArray) (coords : List Nat) : Option Nat :=
  let grown := a.grownDims coords
  if a.isEmpty then some grown.prod
  else if (coords.length == 1 || a.dims.isVector) && grown.isVector && grown.prod ≤ a.capacity then
    none
  else some (growthFactor * grown.prod)

/-- Growing fails: the elements cannot be counted, or the allocator refuses the buffers. -/
def refusesGrowth (a : NDArray) (coords : List Nat) : Bool :=
  maxCount < (a.grownDims coords).prod || (a.demand coords).any (!isAllocatable ·)

theorem isAllocatable_iff {n : Nat} : isAllocatable n = true ↔ 8 * n ≤ 0x7FFFFFFFFFFFFFFF := by
  simp [isAllocatable]

theorem isAllocatable_min (n : Nat) : isAllocatable (min n maxCount) = isAllocatable n := by
  rw [Bool.eq_iff_iff, isAllocatable_iff, isAllocatable_iff, maxCount]
  omega

theorem isVector_growthForm_iff (coords : List Nat) :
    (a.growthForm coords).dims.isVector = (coords.length == 1 || a.dims.isVector) := by
  by_cases hl : coords.length = 1
  · obtain ⟨n, rfl⟩ := List.length_eq_one_iff.mp hl
    exact isVector_growthForm n
  · rw [growthForm_of_length_ne_one hl]
    simp [hl]

theorem demand_of_empty (h0 : a.size = 0) : a.demand coords = some (a.grownDims coords).prod := by
  simp [demand, isEmpty_iff.mpr h0]

def StaysInRoom (a : NDArray) (coords : List Nat) : Prop :=
  (a.growthForm coords).dims.isVector = true ∧ (a.grownDims coords).isVector = true ∧
    (a.grownDims coords).prod ≤ a.capacity

theorem demand_of_room (h0 : a.size ≠ 0) (hr : a.StaysInRoom coords) : a.demand coords = none := by
  obtain ⟨hv, hv', hroom⟩ := hr
  rw [isVector_growthForm_iff] at hv
  simp [demand, isEmpty_iff, h0, hv, hv', hroom]

theorem demand_of_move (h0 : a.size ≠ 0) (hr : ¬ a.StaysInRoom coords) :
    a.demand coords = some (growthFactor * (a.grownDims coords).prod) := by
  rw [StaysInRoom, isVector_growthForm_iff] at hr
  simp only [demand, isEmpty_iff, h0, if_false]
  rw [if_neg (by simpa [and_assoc] using hr)]

/-! ### How growing goes -/

section Outcome

variable (ha : a.WellFormed) (hpos : ∀ axis, 1 ≤ coords.getD axis 1)

include ha hpos

theorem growFor_of_uncountable (hmax : maxCount < (a.grownDims coords).prod) :
    a.growFor coords = .error (.outOfMemory (a.grownDims coords)) := by
  have hnorm := normalize_grownDims ha coords
  have hnone := (Shape.count?_eq_none_iff (grownDims_prod_pos ha hpos)).mpr hmax
  rw [growFor_eq, resize_of_count?_eq_none (by rwa [hnorm]), hnorm]

variable (hmax : (a.grownDims coords).prod ≤ maxCount)

include hmax

theorem count?_grownDims :
    (a.grownDims coords).normalize.count? = some (a.grownDims coords).prod := by
  rw [normalize_grownDims ha]
  exact Shape.count?_of_pos (grownDims_prod_pos ha hpos) hmax

theorem growFor_of_empty (h0 : a.size = 0) :
    a.growFor coords =
      if isAllocatable (a.grownDims coords).prod then
        .ok { a.growthForm coords with
          dims := a.grownDims coords
          real := .replicate (a.grownDims coords).prod 0
          imag := (a.growthForm coords).imag.map fun _ => .replicate (a.grownDims coords).prod 0 }
      else .error (.outOfMemory (a.grownDims coords)) := by
  rw [growFor_eq, resize_of_empty (count?_grownDims ha hpos hmax) ((size_growthForm ha coords).trans h0),
    normalize_grownDims ha]

variable (h : ¬ a.dims.Has coords) (h0 : a.size ≠ 0)

include h h0

omit hmax in
theorem exceeds_grownDims :
    (a.growthForm coords).dims.exceeds (a.grownDims coords).normalize = false := by
  rw [normalize_grownDims ha]
  exact Shape.exceeds_eq_false_iff.mpr (extent_le_grownDims ha h0 hpos h)

theorem growFor_of_room (hr : a.StaysInRoom coords) :
    a.growFor coords = .ok { a.growthForm coords with dims := a.grownDims coords } := by
  have hnorm := normalize_grownDims ha coords
  obtain ⟨hv, hv', hroom⟩ := hr
  rw [growFor_eq, resize_of_room (count?_grownDims ha hpos hmax) (by rwa [size_growthForm ha])
    (exceeds_grownDims ha hpos h h0) hv (by rwa [hnorm]) (by rwa [capacity_growthForm]), hnorm]

theorem growFor_of_move (hr : ¬ a.StaysInRoom coords) :
    a.growFor coords =
      if isAllocatable (growthFactor * (a.grownDims coords).prod) then
        let move := relocate (a.growthForm coords).dims (a.grownDims coords)
          (min (growthFactor * (a.grownDims coords).prod) maxCount)
        .ok { a.growthForm coords with
          dims := a.grownDims coords
          real := move (a.growthForm coords).real
          imag := (a.growthForm coords).imag.map move }
      else .error (.outOfMemory (a.grownDims coords)) := by
  have hnorm := normalize_grownDims ha coords
  have hcap := capacity_growthForm (a := a) coords
  rw [growFor_eq, resize_of_move (count?_grownDims ha hpos hmax) (by rwa [size_growthForm ha])
    (exceeds_grownDims ha hpos h h0) (by rwa [hnorm, hcap]), isAllocatable_min, hnorm]

end Outcome

/-- Growing for coordinates past the end fails in one way only. -/
theorem growFor_outcome (ha : a.WellFormed) (hpos : ∀ axis, 1 ≤ coords.getD axis 1)
    (h : ¬ a.dims.Has coords) :
    if a.refusesGrowth coords = true then
      a.growFor coords = .error (.outOfMemory (a.grownDims coords))
    else ∃ b, a.growFor coords = .ok b := by
  unfold refusesGrowth
  by_cases hmax : maxCount < (a.grownDims coords).prod
  · rw [if_pos (by simp [hmax])]
    exact growFor_of_uncountable ha hpos hmax
  · have hle := Nat.not_lt.mp hmax
    by_cases h0 : a.size = 0
    · rw [growFor_of_empty ha hpos hle h0, demand_of_empty h0]
      cases hm : isAllocatable (a.grownDims coords).prod <;> simp [hm, hmax]
    · by_cases hr : a.StaysInRoom coords
      · rw [growFor_of_room ha hpos hle h h0 hr, demand_of_room h0 hr, if_neg (by simp [hmax])]
        exact ⟨_, rfl⟩
      · rw [growFor_of_move ha hpos hle h h0 hr, demand_of_move h0 hr]
        cases hm : isAllocatable (growthFactor * (a.grownDims coords).prod) <;> simp [hm, hmax]

/-- What growing yields where it succeeds. -/
theorem grown_of_growFor (ha : a.WellFormed) (h : a.growFor coords = .ok b) :
    ∃ count, (a.grownDims coords).count? = some count ∧
      Grown (a.growthForm coords) (a.grownDims coords) count b := by
  rw [growFor_eq] at h
  simpa only [normalize_grownDims ha] using grown_of_resize h

end NumericArrays.NDArray
