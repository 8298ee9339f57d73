import Mathlib.Algebra.BigOperators.Group.Finset.Basic
import Mathlib.Data.List.GetD
import NumericArrays.Proofs.Shape.Count

/-! Coordinates within the extents and positions below the count determine each other. -/
namespace NumericArrays.Shape

variable {s t : Shape} {c e : List Nat} {coords : List Nat}

/-! ### Coordinates from zero on -/

theorem covers_iff : s.covers c = true ↔ ∀ axis, c.getD axis 0 < s.extent axis := by
  simp only [covers, commonRank, List.all_eq_true, List.mem_range, decide_eq_true_eq]
  refine forall_axis_iff fun axis hl => ?_
  rw [extent_of_length_le (by omega), List.getD_eq_default _ _ (by omega)]
  exact one_pos

theorem covers_cons {d x : Nat} :
    covers (d :: s) (x :: c) = true ↔ x < d ∧ s.covers c = true := by
  simp only [covers_iff]
  refine ⟨fun h => ⟨h 0, fun axis => h (axis + 1)⟩, fun h axis => ?_⟩
  cases axis with
  | zero => exact h.1
  | succ axis => exact h.2 axis

theorem prod_pos_of_covers (h : s.covers c = true) : 0 < s.prod :=
  prod_pos_iff.mpr fun axis => Nat.zero_lt_of_lt (covers_iff.mp h axis)

theorem covers_mono (h : ∀ axis, s.extent axis ≤ t.extent axis) (hc : s.covers c = true) :
    t.covers c = true :=
  covers_iff.mpr fun axis => (covers_iff.mp hc axis).trans_le (h axis)

theorem covers_congr (h : ∀ axis, c.getD axis 0 = e.getD axis 0) : s.covers c = s.covers e := by
  rw [Bool.eq_iff_iff, covers_iff, covers_iff]
  simp only [h]

/-- The offset is the sum over the axes of the coordinate times the extents before it. -/
theorem offset_eq_sum (s : Shape) {rank : Nat} (h : c.length ≤ rank) :
    s.offset c = ∑ axis ∈ Finset.range rank,
      c.getD axis 0 * ∏ i ∈ Finset.range axis, s.extent i := by
  induction c generalizing s rank with
  | nil => simp [offset]
  | cons x c ih =>
    obtain ⟨rank, rfl⟩ : ∃ r, rank = r + 1 := ⟨rank - 1, by simp at h; omega⟩
    rw [Finset.sum_range_succ']
    cases s with
    | nil =>
      rw [offset, ih [] (by simpa using h)]
      simp [extent, add_comm]
    | cons d s =>
      rw [offset, ih s (by simpa using h), Finset.mul_sum, add_comm]
      simp only [Finset.prod_range_succ', extent_cons_succ, extent_cons_zero, List.getD_cons_succ,
        List.getD_cons_zero, Finset.range_zero, Finset.prod_empty, mul_one]
      congr 1
      exact Finset.sum_congr rfl fun axis _ => by ring

/-- The offset depends on the extents only. -/
theorem offset_congr_extent (h : ∀ axis, s.extent axis = t.extent axis) (c : List Nat) :
    s.offset c = t.offset c := by
  rw [offset_eq_sum s le_rfl, offset_eq_sum t le_rfl]
  simp only [h]

theorem offset_congr (h : ∀ axis, c.getD axis 0 = e.getD axis 0) : s.offset c = s.offset e := by
  rw [offset_eq_sum s (le_max_left c.length e.length),
    offset_eq_sum s (le_max_right c.length e.length)]
  simp only [h]

theorem offset_lt (h : s.covers c = true) : s.offset c < s.prod := by
  fun_induction offset s c with
  | case1 s => exact prod_pos_of_covers h
  | case2 x c ih =>
    have hx : x < 1 := covers_iff.mp h 0
    have hc : covers [] c = true := covers_iff.mpr fun axis => covers_iff.mp h (axis + 1)
    have := ih hc
    simp only [List.prod_nil] at this ⊢
    omega
  | case3 d s x c ih =>
    obtain ⟨hx, hc⟩ := covers_cons.mp h
    calc x + d * offset s c < d + d * offset s c := by omega
      _ = d * (offset s c + 1) := by ring
      _ ≤ d * s.prod := Nat.mul_le_mul_left d (ih hc)
      _ = (d :: s).prod := List.prod_cons.symm

theorem length_coordsOf (s : Shape) (p : Nat) : (s.coordsOf p).length = s.length := by
  induction s generalizing p with
  | nil => rfl
  | cons d s ih => simp [coordsOf, ih]

theorem offset_coordsOf {p : Nat} (h : p < s.prod) : s.offset (s.coordsOf p) = p := by
  induction s generalizing p with
  | nil =>
    have : p = 0 := by simpa using h
    simp [coordsOf, offset, this]
  | cons d s ih =>
    rw [List.prod_cons] at h
    rw [coordsOf, offset, ih (Nat.div_lt_of_lt_mul h), Nat.mod_add_div]

theorem covers_coordsOf {p : Nat} (h : p < s.prod) : s.covers (s.coordsOf p) = true := by
  induction s generalizing p with
  | nil => rfl
  | cons d s ih =>
    rw [List.prod_cons] at h
    have hd : 0 < d := Nat.pos_of_mul_pos_right (Nat.zero_lt_of_lt h)
    exact covers_cons.mpr ⟨Nat.mod_lt p hd, ih (Nat.div_lt_of_lt_mul h)⟩

theorem getD_coordsOf_zero (s : Shape) (axis : Nat) : (s.coordsOf 0).getD axis 0 = 0 := by
  induction s generalizing axis with
  | nil => rfl
  | cons d s ih =>
    cases axis with
    | zero => simp [coordsOf]
    | succ axis => simpa [coordsOf] using ih axis

/-- Coordinates come back from their offset, up to zeros at the end. -/
theorem getD_coordsOf_offset (h : s.covers c = true) (axis : Nat) :
    (s.coordsOf (s.offset c)).getD axis 0 = c.getD axis 0 := by
  fun_induction offset s c generalizing axis with
  | case1 s => simpa using getD_coordsOf_zero s axis
  | case2 x c ih =>
    have : (x :: c).getD axis 0 < 1 := by
      simpa [extent] using covers_iff.mp h axis
    simp only [coordsOf, List.getD_nil]
    omega
  | case3 d s x c ih =>
    obtain ⟨hx, hc⟩ := covers_cons.mp h
    have hd : 0 < d := Nat.zero_lt_of_lt hx
    cases axis with
    | zero => simp [coordsOf, Nat.mod_eq_of_lt hx]
    | succ axis =>
      have hdiv : (x + d * offset s c) / d = offset s c := by
        rw [Nat.add_mul_div_left _ _ hd, Nat.div_eq_of_lt hx, zero_add]
      simpa [coordsOf, hdiv] using ih hc axis

theorem offset_inj (hc : s.covers c = true) (he : s.covers e = true)
    (h : s.offset c = s.offset e) (axis : Nat) : c.getD axis 0 = e.getD axis 0 := by
  rw [← getD_coordsOf_offset hc, h, getD_coordsOf_offset he]

/-! ### Ones at the end -/

theorem ext_extent (hl : s.length = t.length) (h : ∀ axis, s.extent axis = t.extent axis) : s = t := by
  apply List.ext_getElem hl
  intro axis hs ht
  have haxis := h axis
  rwa [extent, extent, List.getD_eq_getElem _ _ hs, List.getD_eq_getElem _ _ ht] at haxis

theorem getD_append_ones (c : List Nat) (m axis : Nat) :
    (c ++ List.replicate m 1).getD axis 1 = c.getD axis 1 := by
  by_cases hl : axis < c.length
  · rw [List.getD_append _ _ _ _ hl]
  · rw [List.getD_append_right _ _ _ _ (by omega), List.getD_eq_default c _ (by omega)]
    simp

theorem extent_pad (s : Shape) (rank axis : Nat) : (s.pad rank).extent axis = s.extent axis :=
  getD_append_ones s (rank - s.length) axis

theorem prod_pad (s : Shape) (rank : Nat) : (s.pad rank).prod = s.prod :=
  prod_congr (extent_pad s rank)

/-! ### Vectors -/

theorem isVector_cons {d : Nat} :
    isVector (d :: s) = true ↔ (d = 1 ∧ s.isVector = true) ∨ ∀ axis, s.extent axis = 1 := by
  have hones : s.countP (· != 1) = 0 ↔ ∀ axis, s.extent axis = 1 := by
    simp only [List.countP_eq_zero, bne_iff_ne, ne_eq, not_not]
    refine ⟨fun h axis => ?_, fun h d hd => ?_⟩
    · by_cases hl : axis < s.length
      · exact h _ (extent_mem hl)
      · exact extent_of_length_le (by omega)
    · obtain ⟨axis, -, rfl⟩ := exists_extent hd
      exact h axis
  rw [← hones]
  simp only [isVector, List.countP_cons, decide_eq_true_eq, bne_iff_ne, ne_eq]
  split <;> omega

/-- All axes of a vector but one have extent 1. -/
theorem isVector_iff : s.isVector = true ↔ ∃ axis, ∀ i, i ≠ axis → s.extent i = 1 := by
  induction s with
  | nil => simp [isVector, extent]
  | cons d s ih =>
    rw [isVector_cons, ih]
    constructor
    · rintro (⟨rfl, axis, h⟩ | h)
      · refine ⟨axis + 1, fun i hi => ?_⟩
        cases i with
        | zero => rfl
        | succ i => exact h i fun he => hi (by rw [he])
      · refine ⟨0, fun i hi => ?_⟩
        cases i with
        | zero => exact absurd rfl hi
        | succ i => exact h i
    · rintro ⟨axis, h⟩
      cases axis with
      | zero => exact .inr fun i => h (i + 1) i.succ_ne_zero
      | succ axis =>
        refine .inl ⟨h 0 (Nat.succ_ne_zero axis).symm, axis, fun i hi => ?_⟩
        exact h (i + 1) fun he => hi (Nat.succ_injective he)

/-- Along a vector the offset is the sum of the coordinates. -/
theorem offset_of_isVector (hv : s.isVector = true) (h : s.covers c = true) :
    s.offset c = c.sum := by
  fun_induction offset s c with
  | case1 s => rfl
  | case2 x c ih =>
    have hc : covers [] c = true := covers_iff.mpr fun axis => covers_iff.mp h (axis + 1)
    rw [ih rfl hc, List.sum_cons]
  | case3 d s x c ih =>
    obtain ⟨hx, hc⟩ := covers_cons.mp h
    rw [List.sum_cons]
    rcases isVector_cons.mp hv with ⟨rfl, hs⟩ | hs
    · rw [ih hs hc, one_mul]
    · have hlt := offset_lt hc
      have hprod : s.prod = 1 := by
        rw [prod_eq_prod_extent s le_rfl]
        simp [hs]
      have hzero : offset s c = 0 := by omega
      have hsum : c.sum = 0 := by
        rw [List.sum_eq_zero_iff]
        intro x hx
        obtain ⟨axis, haxis, rfl⟩ := List.mem_iff_getElem.mp hx
        have := covers_iff.mp hc axis
        rw [hs, List.getD_eq_getElem _ _ haxis] at this
        omega
      rw [hzero, hsum, mul_zero]

/-! ### Coordinates from one on -/

/-- The coordinates address an element. A single one counts through the whole array. -/
def Has (s : Shape) : List Nat → Prop
  | [k] => 1 ≤ k ∧ k ≤ s.prod
  | coords => ∀ axis, 1 ≤ coords.getD axis 1 ∧ coords.getD axis 1 ≤ s.extent axis

def position (s : Shape) : List Nat → Nat
  | [k] => k - 1
  | coords => s.offset (coords.map (· - 1))

theorem getD_map_pred (coords : List Nat) (axis : Nat) :
    (coords.map (· - 1)).getD axis 0 = coords.getD axis 1 - 1 :=
  List.getD_map coords 1 (· - 1)

theorem has_of_length_ne_one (h : coords.length ≠ 1) :
    s.Has coords ↔ ∀ axis, 1 ≤ coords.getD axis 1 ∧ coords.getD axis 1 ≤ s.extent axis := by
  match coords, h with
  | [], _ | _ :: _ :: _, _ => rfl

theorem position_of_length_ne_one (h : coords.length ≠ 1) :
    s.position coords = s.offset (coords.map (· - 1)) := by
  match coords, h with
  | [], _ | _ :: _ :: _, _ => rfl

theorem covers_map_pred (h : ∀ axis, 1 ≤ coords.getD axis 1) :
    s.covers (coords.map (· - 1)) = true ↔ ∀ axis, coords.getD axis 1 ≤ s.extent axis := by
  simp only [covers_iff, getD_map_pred]
  refine forall_congr' fun axis => ?_
  have := h axis
  omega

theorem covers_of_has (hl : coords.length ≠ 1) (h : s.Has coords) :
    s.covers (coords.map (· - 1)) = true := by
  rw [has_of_length_ne_one hl] at h
  exact (covers_map_pred fun axis => (h axis).1).mpr fun axis => (h axis).2

theorem position_lt (h : s.Has coords) : s.position coords < s.prod := by
  by_cases hl : coords.length = 1
  · obtain ⟨k, rfl⟩ := List.length_eq_one_iff.mp hl
    have : 1 ≤ k ∧ k ≤ s.prod := h
    simp only [position]
    omega
  · rw [position_of_length_ne_one hl]
    exact offset_lt (covers_of_has hl h)

theorem findIdx?_zero_eq_none_iff :
    coords.findIdx? (· == 0) = none ↔ ∀ axis, 1 ≤ coords.getD axis 1 := by
  simp only [List.findIdx?_eq_none_iff, beq_eq_false_iff_ne]
  refine ⟨fun h axis => ?_, fun h x hx => ?_⟩
  · by_cases hl : axis < coords.length
    · rw [List.getD_eq_getElem _ _ hl]
      exact Nat.one_le_iff_ne_zero.mpr (h _ (List.getElem_mem hl))
    · rw [List.getD_eq_default _ _ (by omega)]
  · obtain ⟨axis, haxis, rfl⟩ := List.mem_iff_getElem.mp hx
    have := h axis
    rw [List.getD_eq_getElem _ _ haxis] at this
    omega

theorem exceededAxis?_eq_none_iff :
    s.exceededAxis? coords = none ↔ ∀ axis, coords.getD axis 1 ≤ s.extent axis := by
  simp only [exceededAxis?, List.find?_eq_none, List.mem_range, decide_eq_true_eq, not_lt,
    commonRank]
  refine forall_axis_iff fun axis hl => ?_
  rw [extent_of_length_le (by omega), List.getD_eq_default _ _ (by omega)]

/-- The first coordinate zero is a fault. -/
theorem locate_of_zero {axis : Nat} (h : coords.findIdx? (· == 0) = some axis) :
    s.locate coords = .error (.indexBelowOne axis) := by
  simp only [locate, h]

/-- Coordinates that address an element are found; nothing wraps around on the way. -/
theorem locate_of_has (hs : s.count? = some s.count) (h : s.Has coords) :
    s.locate coords = .ok (some (s.position coords)) := by
  have hprod := count_eq_prod hs
  have hle := count_le hs
  have hlt := position_lt h
  by_cases hl : coords.length = 1
  · obtain ⟨k, rfl⟩ := List.length_eq_one_iff.mp hl
    have hk : 1 ≤ k ∧ k ≤ s.prod := h
    have hk0 : (k == 0) = false := by simp; omega
    simp [locate, position, hk0, hprod, hk.2]
  · have hh := (has_of_length_ne_one hl).mp h
    rw [position_of_length_ne_one hl] at hlt ⊢
    simp only [locate, findIdx?_zero_eq_none_iff.mpr fun axis => (hh axis).1]
    split
    · simp at hl
    · rw [exceededAxis?_eq_none_iff.mpr fun axis => (hh axis).2]
      simp only
      rw [Nat.mod_eq_of_lt (by omega)]

/-- Coordinates past an extent are not found. -/
theorem locate_of_not_has (hs : s.count? = some s.count)
    (h0 : coords.findIdx? (· == 0) = none) (h : ¬ s.Has coords) :
    s.locate coords = .ok none := by
  have hprod := count_eq_prod hs
  have hpos := findIdx?_zero_eq_none_iff.mp h0
  by_cases hl : coords.length = 1
  · obtain ⟨k, rfl⟩ := List.length_eq_one_iff.mp hl
    have hk : ¬ (1 ≤ k ∧ k ≤ s.prod) := h
    have hk1 : 1 ≤ k := hpos 0
    have hgt : ¬ k ≤ s.count := by omega
    simp [locate, h0, hgt]
  · rw [has_of_length_ne_one hl] at h
    have hne : s.exceededAxis? coords ≠ none := fun hn =>
      h fun axis => ⟨hpos axis, exceededAxis?_eq_none_iff.mp hn axis⟩
    simp only [locate, h0]
    split
    · simp at hl
    · split
      · rfl
      · exact absurd ‹_› hne

end NumericArrays.Shape
