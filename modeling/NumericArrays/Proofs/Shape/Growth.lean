import NumericArrays.Proofs.Shape.Place

/-! Grown shapes hold the old one and the coordinates they were grown for. -/
namespace NumericArrays.Shape

variable {s t : Shape} {coords : List Nat} {n : Nat}

theorem normalize_of_length (h : 2 ≤ s.length) : s.normalize = s := by
  match s, h with
  | _ :: _ :: _, _ => rfl

theorem length_normalize (s : Shape) : 2 ≤ s.normalize.length := by
  match s with
  | [] | [_] | _ :: _ :: _ => simp [normalize]

theorem mem_normalize {d : Nat} (h : d ∈ s.normalize) : d = 1 ∨ d ∈ s := by
  match s with
  | [] | [_] => simpa [normalize] using h
  | _ :: _ :: _ => exact .inr h

theorem same_iff : s.same t = true ↔ ∀ axis, s.extent axis = t.extent axis := by
  simp only [same, commonRank, List.all_eq_true, List.mem_range, beq_iff_eq]
  refine forall_axis_iff fun axis hl => ?_
  rw [extent_of_length_le (by omega), extent_of_length_le (by omega)]

theorem exceeds_eq_false_iff :
    s.exceeds t = false ↔ ∀ axis, s.extent axis ≤ t.extent axis := by
  simp only [exceeds, commonRank, List.any_eq_false, List.mem_range, decide_eq_true_eq, not_lt]
  refine forall_axis_iff fun axis hl => ?_
  rw [extent_of_length_le (by omega), extent_of_length_le (by omega)]

/-! ### Growth along all axes -/

theorem length_grownTo (s : Shape) (coords : List Nat) :
    (s.grownTo coords).length = max s.length coords.length := by
  simp [grownTo, commonRank]

theorem extent_grownTo (s : Shape) (coords : List Nat) (axis : Nat) :
    (s.grownTo coords).extent axis = max (s.extent axis) (coords.getD axis 1) := by
  by_cases hl : axis < max s.length coords.length
  · simp only [grownTo, commonRank]
    rw [extent, List.getD_eq_getElem _ _ (by simpa using hl)]
    simp
  · rw [extent_of_length_le (by rw [length_grownTo]; omega), extent_of_length_le (by omega),
      List.getD_eq_default _ _ (by omega)]
    rfl

theorem grownTo_has (hl : coords.length ≠ 1) (h : ∀ axis, 1 ≤ coords.getD axis 1) :
    (s.grownTo coords).Has coords := by
  rw [has_of_length_ne_one hl]
  exact fun axis => ⟨h axis, by rw [extent_grownTo]; exact le_max_right _ _⟩

/-! ### Growth along one axis -/

theorem extent_set {axis : Nat} (h : axis < s.length) (i : Nat) :
    extent (s.set axis n) i = if i = axis then n else s.extent i := by
  by_cases hi : i = axis
  · subst hi
    simp [extent, h]
  · simp [extent, List.getElem?_set_ne (Ne.symm hi), hi]

theorem prod_of_single {axis : Nat} (h : ∀ i, i ≠ axis → s.extent i = 1) :
    s.prod = s.extent axis := by
  rw [prod_eq_prod_extent s (le_max_left s.length (axis + 1))]
  exact Finset.prod_eq_single axis (fun i _ hi => h i hi) fun hi => by simp at hi

/-- A vector that is not empty grows along one axis, and all its other extents are 1. -/
theorem grownToCount_of_isVector (hl : 2 ≤ s.length) (hv : s.isVector = true)
    (h0 : s.count ≠ 0) :
    ∃ axis < s.length, (∀ n, s.grownToCount n = s.set axis n) ∧
      ∀ i, i ≠ axis → s.extent i = 1 := by
  simp only [grownToCount, if_neg h0]
  cases hf : s.findIdx? (· != 1) with
  | none =>
    refine ⟨1, hl, fun n => by simp [pad, Nat.sub_eq_zero_of_le hl], fun i _ => ?_⟩
    by_cases hi : i < s.length
    · simpa using List.findIdx?_eq_none_iff.mp hf _ (extent_mem hi)
    · exact extent_of_length_le (by omega)
  | some axis =>
    obtain ⟨haxis, hne, -⟩ := List.findIdx?_eq_some_iff_getElem.mp hf
    refine ⟨axis, haxis, fun n => by simp [hv], fun i hi => ?_⟩
    obtain ⟨k, hk⟩ := isVector_iff.mp hv
    have hka : k = axis := by
      by_contra hka
      have := hk axis (Ne.symm hka)
      simp [extent, haxis] at this
      simp [this] at hne
    exact hk i (hka ▸ hi)

theorem grownToCount_of_empty (h0 : s.count = 0) : s.grownToCount n = [1, n] := by
  rw [grownToCount, if_pos h0]

theorem findIdx?_long_of_not_isVector (hv : ¬ s.isVector = true) :
    ∃ axis, s.findIdx? (· != 1) = some axis := by
  cases hf : s.findIdx? (· != 1) with
  | some axis => exact ⟨axis, rfl⟩
  | none =>
    have hones : s.countP (· != 1) = 0 := by
      rw [List.countP_eq_zero]
      intro d hd
      simpa using List.findIdx?_eq_none_iff.mp hf d hd
    exact absurd (by simp [isVector, hones]) hv

theorem isVector_column (n : Nat) : isVector [n, 1] = true :=
  isVector_iff.mpr ⟨0, fun i hi => by
    match i with
    | 1 => rfl
    | i + 2 => exact extent_of_length_le (by simp)⟩

theorem isVector_row (n : Nat) : isVector [1, n] = true :=
  isVector_iff.mpr ⟨1, fun i hi => by
    match i with
    | 0 => rfl
    | i + 2 => exact extent_of_length_le (by simp)⟩

/-- The column of all elements grows to the same shape as the array itself. -/
theorem grownToCount_column (hs : s.count? = some s.count) (hv : ¬ s.isVector = true) :
    grownToCount [s.count, 1] n = s.grownToCount n := by
  have hcount : count [s.count, 1] = s.count := by
    have hpair := count?_pair (n := 1) (count_le hs) (by rw [mul_one]; exact count_le hs)
    rw [mul_one] at hpair
    exact count_of_count? hpair
  by_cases h0 : s.count = 0
  · rw [grownToCount_of_empty h0, grownToCount_of_empty (hcount.trans h0)]
  · have h1 : s.count ≠ 1 := by
      intro h1
      have hprod : s.prod = 1 := (count_eq_prod hs).symm.trans h1
      have hpos : 0 < s.prod := by omega
      apply hv
      refine isVector_iff.mpr ⟨0, fun i _ => ?_⟩
      have hle := extent_le_prod hpos i
      have hone := prod_pos_iff.mp hpos i
      omega
    obtain ⟨axis, haxis⟩ := findIdx?_long_of_not_isVector hv
    have hfirst : ([s.count, 1] : Shape).findIdx? (· != 1) = some 0 := by
      simp [List.findIdx?_cons, h1]
    simp [grownToCount, hcount, h0, hfirst, haxis, isVector_column, hv]

end NumericArrays.Shape
