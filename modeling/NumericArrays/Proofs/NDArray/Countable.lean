import NumericArrays.Proofs.NDArray.Resize

/-! Shapes that can be counted. Extents are multiplied in their order, so a zero saves the count only from
    those that come after it. -/
namespace NumericArrays

namespace Shape

variable {s t : Shape}

/-! ### Before the first zero -/

def leading (s : Shape) : Shape := s.takeWhile (· != 0)

def positive (s : Shape) : Shape := s.filter (· != 0)

theorem leading_cons_zero (s : Shape) : leading (0 :: s) = [] := rfl

theorem leading_cons_of_ne_zero {d : Nat} (hd : d ≠ 0) (s : Shape) : leading (d :: s) = d :: s.leading := by
  rw [leading, List.takeWhile_cons_of_pos (by simpa using hd)]
  rfl

theorem leading_of_not_mem (h : 0 ∉ s) : s.leading = s := by
  induction s with
  | nil => rfl
  | cons d s ih =>
    rw [List.mem_cons, not_or] at h
    rw [leading_cons_of_ne_zero (Ne.symm h.1), ih h.2]

theorem prod_positive_pos (s : Shape) : 0 < s.positive.prod := by
  rw [Nat.pos_iff_ne_zero, ne_eq, List.prod_eq_zero_iff]
  simp [positive]

/-- Past the first zero there may be more positive extents. -/
theorem prod_leading_dvd (s : Shape) : s.leading.prod ∣ s.positive.prod := by
  induction s with
  | nil => exact dvd_rfl
  | cons d s ih =>
    rcases eq_or_ne d 0 with rfl | hd
    · rw [leading_cons_zero, List.prod_nil]
      exact one_dvd _
    · rw [leading_cons_of_ne_zero hd, positive, List.filter_cons_of_pos (by simpa using hd), List.prod_cons,
        List.prod_cons]
      exact Nat.mul_dvd_mul_left d ih

theorem prod_leading_le (s : Shape) : s.leading.prod ≤ s.positive.prod :=
  Nat.le_of_dvd s.prod_positive_pos s.prod_leading_dvd

theorem prod_leading_pos (s : Shape) : 0 < s.leading.prod :=
  Nat.pos_of_dvd_of_pos s.prod_leading_dvd s.prod_positive_pos

/-- Ones do not count, so a shape may be brought to two axes first. -/
theorem prod_leading_normalize (s : Shape) : s.normalize.leading.prod = s.leading.prod := by
  match s with
  | [] => rfl
  | [n] =>
    rw [normalize, leading_cons_of_ne_zero one_ne_zero, List.prod_cons, one_mul]
  | _ :: _ :: _ => rfl

theorem mem_normalize_of_mem {d : Nat} (h : d ∈ s) : d ∈ s.normalize := by
  match s with
  | [n] => exact List.mem_cons_of_mem 1 h
  | _ :: _ :: _ => exact h

/-! ### Counting -/

/-- From a number that fits on, only the extents before the first zero have to fit. -/
theorem countFrom?_eq_ite {n : Nat} (hn : n ≤ maxCount) :
    countFrom? n s = if n * s.leading.prod ≤ maxCount then some (n * s.prod) else none := by
  induction s generalizing n with
  | nil => simp [countFrom?, leading, hn]
  | cons d s ih =>
    rw [countFrom?_cons]
    rcases eq_or_ne d 0 with rfl | hd
    · -- nothing overflows any more
      rw [leading_cons_zero, List.prod_nil, mul_one, if_pos hn, mul_zero, if_pos (Nat.zero_le _),
        ih (Nat.zero_le _), zero_mul, zero_mul, if_pos (Nat.zero_le _), List.prod_cons, zero_mul, mul_zero]
    · rw [leading_cons_of_ne_zero hd, List.prod_cons, List.prod_cons, ← mul_assoc, ← mul_assoc]
      split
      · exact ih ‹_›
      · rename_i hlarge
        have hle : n * d ≤ n * d * (leading s).prod := Nat.le_mul_of_pos_right _ (prod_leading_pos s)
        rw [if_neg (by omega)]

theorem count?_eq_ite (s : Shape) : s.count? = if s.leading.prod ≤ maxCount then some s.prod else none := by
  have h := countFrom?_eq_ite (s := s) (n := 1) (by decide)
  rwa [one_mul, one_mul] at h

/-- Where all positive extents fit together, their order does not matter. -/
theorem count?_of_prod_positive_le (h : s.positive.prod ≤ maxCount) : s.count? = some s.prod := by
  rw [count?_eq_ite, if_pos (s.prod_leading_le.trans h)]

theorem count?_zeros_first (h : 0 ∈ s) : count? (s.filter (· == 0) ++ s.positive) = some 0 := by
  obtain ⟨zeros, hzeros⟩ : ∃ zeros, s.filter (· == 0) = 0 :: zeros := by
    cases hfilter : s.filter (· == 0) with
    | nil => exact absurd (List.filter_eq_nil_iff.mp hfilter 0 h) (by decide)
    | cons d zeros =>
      have hd : d ∈ s.filter (· == 0) := hfilter ▸ List.mem_cons_self
      exact ⟨zeros, by rw [beq_iff_eq.mp (List.mem_filter.mp hd).2]⟩
  rw [hzeros, List.cons_append, count?_eq_ite, leading_cons_zero, List.prod_cons, zero_mul]
  rfl

theorem count?_zeros_last (h : maxCount < s.positive.prod) : count? (s.positive ++ s.filter (· == 0)) = none := by
  have hleading : leading (s.positive ++ s.filter (· == 0)) = s.positive := by
    rw [leading, List.takeWhile_append_of_pos (by simp [positive])]
    cases hfilter : s.filter (· == 0) with
    | nil => rw [List.takeWhile_nil, List.append_nil]
    | cons d zeros =>
      have hd : d ∈ s.filter (· == 0) := hfilter ▸ List.mem_cons_self
      rw [List.takeWhile_cons_of_neg (by simpa using (List.mem_filter.mp hd).2), List.append_nil]
  rw [count?_eq_ite, hleading, if_neg (Nat.not_le.mpr h)]

/-- The order of the extents matters beside a zero only, and only if the others do not fit together. -/
theorem count?_perm_iff (s : Shape) :
    (∀ t : Shape, t.Perm s → t.count? = s.count?) ↔ 0 ∉ s ∨ s.positive.prod ≤ maxCount := by
  constructor
  · intro h
    by_contra! hlarge
    have hperm : (s.positive ++ s.filter (· == 0)).Perm s := by
      simpa [positive, bne, Function.comp_def] using List.filter_append_perm (· != 0) s
    have hlast := h _ hperm
    have hfirst := h _ (List.perm_append_comm.trans hperm)
    rw [count?_zeros_last hlarge.2] at hlast
    rw [count?_zeros_first hlarge.1, ← hlast] at hfirst
    exact Option.some_ne_none _ hfirst
  · rintro (h | h) t ht
    · rw [count?_eq_ite, count?_eq_ite, leading_of_not_mem h, leading_of_not_mem (mt ht.mem_iff.mp h), ht.prod_eq]
    · have hpositive : t.positive.prod = s.positive.prod := (ht.filter _).prod_eq
      rw [count?_of_prod_positive_le h, count?_of_prod_positive_le (hpositive.trans_le h), ht.prod_eq]

end Shape

namespace NDArray

/-- An array without elements takes any shape with a zero extent that can be counted, and needs no memory
    for it. -/
theorem resize_of_zero {a : NDArray} {dims : Shape} (ha : a.isEmpty = true) (h : 0 ∈ dims) :
    a.resize dims =
      if dims.leading.prod ≤ maxCount then
        .ok { a with dims := dims.normalize, real := #[], imag := a.imag.map fun _ => #[] }
      else .error (.outOfMemory dims.normalize) := by
  have hprod : dims.normalize.prod = 0 := List.prod_eq_zero_iff.mpr (Shape.mem_normalize_of_mem h)
  have hcount := dims.normalize.count?_eq_ite
  rw [Shape.prod_leading_normalize, hprod] at hcount
  split at hcount
  · rw [resize_of_empty hcount (isEmpty_iff.mp ha), if_pos (by decide), if_pos ‹_›]
    rfl
  · rw [resize_of_count?_eq_none hcount, if_neg ‹_›]

/-- The count of a shape is the product of its extents if those before the first zero can be counted. So
    much is asked of a shape without zeros anyway. Another order makes no difference where there is no zero, or
    where all the other extents fit together. The shapes with a zero that an empty array can be brought to are
    those that can be counted. -/
theorem count?_of_leading (s : Shape) :
    s.count? = (if s.leading.prod ≤ maxCount then some s.prod else none) ∧
      (0 ∉ s → s.count? = if s.prod ≤ maxCount then some s.prod else none) ∧
      ((∀ t : Shape, t.Perm s → t.count? = s.count?) ↔ 0 ∉ s ∨ s.positive.prod ≤ maxCount) ∧
      (0 ∈ s → ∀ a : NDArray, a.isEmpty = true →
        a.resize s =
          if s.leading.prod ≤ maxCount then
            .ok { a with dims := s.normalize, real := #[], imag := a.imag.map fun _ => #[] }
          else .error (.outOfMemory s.normalize)) := by
  refine ⟨s.count?_eq_ite, fun h => ?_, s.count?_perm_iff, fun h a ha => resize_of_zero ha h⟩
  rw [s.count?_eq_ite, Shape.leading_of_not_mem h]

/-- A zero between two extents that do not fit together. -/
theorem count?_of_leading_between :
    0 ∈ [2, 0, maxCount] ∧ empty.isEmpty = true ∧ Shape.count? [2, 0, maxCount] = some 0 ∧
      empty.resize [2, 0, maxCount] = .ok { empty with dims := [2, 0, maxCount] } := by
  obtain ⟨hcount, -, -, hresize⟩ := count?_of_leading [2, 0, maxCount]
  exact ⟨by decide, rfl, hcount, hresize (by decide) empty rfl⟩

/-- After two extents that do not fit together a zero comes too late: the product fits and there is no
    count, other orders of the same extents have one, and an empty array cannot be brought to the shape. -/
theorem count?_zero_last :
    (¬ ∀ s : Shape, (∀ d ∈ s, d ≤ maxCount) →
        s.count? = if s.prod ≤ maxCount then some s.prod else none) ∧
      (¬ ∀ s t : Shape, (∀ d ∈ s, d ≤ maxCount) → t.Perm s → t.count? = s.count?) ∧
      ¬ ∀ (a : NDArray) (s : Shape), (∀ d ∈ s, d ≤ maxCount) → a.isEmpty = true → 0 ∈ s →
        ∃ b, a.resize s = .ok b := by
  have hextents : ∀ d ∈ [maxCount, 2, 0], d ≤ maxCount := by decide
  have hnone : Shape.count? [maxCount, 2, 0] = none := by decide
  refine ⟨fun h => ?_, fun h => ?_, fun h => ?_⟩
  · have hcount := h [maxCount, 2, 0] hextents
    rw [hnone] at hcount
    exact absurd hcount (by decide)
  · have hperm := h [maxCount, 2, 0] [0, maxCount, 2] hextents (by decide)
    rw [hnone] at hperm
    exact absurd hperm (by decide)
  · obtain ⟨b, hb⟩ := h empty [maxCount, 2, 0] hextents rfl (by decide)
    rw [resize_of_count?_eq_none (show (Shape.normalize [maxCount, 2, 0]).count? = none from hnone)] at hb
    cases hb

end NDArray
end NumericArrays
