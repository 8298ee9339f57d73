import Mathlib.Algebra.BigOperators.Group.List.Basic
import Mathlib.Algebra.BigOperators.Intervals
import Mathlib.Algebra.Order.BigOperators.Group.Finset
import Mathlib.Algebra.Order.BigOperators.Ring.Finset
import Mathlib.Algebra.Ring.Nat
import Mathlib.Tactic.Ring
import NumericArrays.Shape.Basic

/-! The number of elements of a shape is the product of its extents, when it can be counted. -/
namespace NumericArrays.Shape

variable {s t : Shape}

/-! ### Extents -/

@[simp] theorem extent_cons_zero (d : Nat) (s : Shape) : extent (d :: s) 0 = d := rfl

@[simp] theorem extent_cons_succ (d : Nat) (s : Shape) (axis : Nat) :
    extent (d :: s) (axis + 1) = s.extent axis := rfl

/-- A check of the axes that are listed is one of all axes, if the others pass it. -/
theorem forall_axis_iff {P : Nat → Prop} {rank : Nat} (h : ∀ axis, rank ≤ axis → P axis) :
    (∀ axis < rank, P axis) ↔ ∀ axis, P axis := by
  refine ⟨fun hlisted axis => ?_, fun hall axis _ => hall axis⟩
  by_cases hl : axis < rank
  · exact hlisted axis hl
  · exact h axis (not_lt.mp hl)

theorem extent_of_length_le {axis : Nat} (h : s.length ≤ axis) : s.extent axis = 1 := by
  simp [extent, h]

theorem extent_mem {axis : Nat} (h : axis < s.length) : s.extent axis ∈ s := by
  simp [extent, h]

theorem exists_extent {d : Nat} (h : d ∈ s) : ∃ axis < s.length, s.extent axis = d := by
  obtain ⟨axis, haxis, rfl⟩ := List.mem_iff_getElem.mp h
  exact ⟨axis, haxis, by simp [extent, haxis]⟩

/-- The product may run over any number of axes that covers the list. -/
theorem prod_eq_prod_extent (s : Shape) {rank : Nat} (h : s.length ≤ rank) :
    s.prod = ∏ axis ∈ Finset.range rank, s.extent axis := by
  induction s generalizing rank with
  | nil => simp [extent]
  | cons d s ih =>
    obtain ⟨rank, rfl⟩ : ∃ r, rank = r + 1 := ⟨rank - 1, by simp at h; omega⟩
    rw [Finset.prod_range_succ', List.prod_cons, ih (by simpa using h)]
    simp [mul_comm]

theorem prod_congr (h : ∀ axis, s.extent axis = t.extent axis) : s.prod = t.prod := by
  rw [prod_eq_prod_extent s (le_max_left s.length t.length),
    prod_eq_prod_extent t (le_max_right s.length t.length)]
  exact Finset.prod_congr rfl fun axis _ => h axis

theorem prod_le_prod (h : ∀ axis, s.extent axis ≤ t.extent axis) : s.prod ≤ t.prod := by
  rw [prod_eq_prod_extent s (le_max_left s.length t.length),
    prod_eq_prod_extent t (le_max_right s.length t.length)]
  exact Finset.prod_le_prod' fun axis _ => h axis

theorem prod_pos_iff : 0 < s.prod ↔ ∀ axis, 0 < s.extent axis := by
  constructor
  · intro h axis
    by_contra h0
    have hmem : 0 ∈ s := by
      by_cases hl : axis < s.length
      · have := extent_mem hl
        rwa [show s.extent axis = 0 by omega] at this
      · rw [extent_of_length_le (by omega)] at h0
        omega
    exact h.ne' (List.prod_eq_zero_iff.mpr hmem)
  · intro h
    rw [prod_eq_prod_extent s le_rfl]
    exact Finset.prod_pos fun axis _ => h axis

theorem extent_le_prod (h : 0 < s.prod) (axis : Nat) : s.extent axis ≤ s.prod := by
  by_cases hl : axis < s.length
  · exact Nat.le_of_dvd h (List.dvd_prod (extent_mem hl))
  · rw [extent_of_length_le (by omega)]
    exact h

/-! ### Two axes -/

theorem isMatrix_iff : s.isMatrix = true ↔ ∀ i, s.extent (2 + i) = 1 := by
  simp only [isMatrix, List.all_eq_true, beq_iff_eq]
  constructor
  · intro h i
    by_cases hi : 2 + i < s.length
    · apply h
      rw [List.mem_drop_iff_getElem]
      exact ⟨i, by omega, by simp [extent, hi]⟩
    · exact extent_of_length_le (by omega)
  · intro h d hd
    obtain ⟨i, hi, rfl⟩ := List.mem_drop_iff_getElem.mp hd
    have hlt : 2 + i < s.length := by omega
    simpa [extent, hlt] using h i

theorem prod_of_isMatrix (h : s.isMatrix = true) : s.prod = s.extent 0 * s.extent 1 := by
  have hrank : s.length ≤ 2 + s.length := by omega
  rw [prod_eq_prod_extent s hrank, Finset.prod_range_add, Finset.prod_range_succ, Finset.prod_range_one]
  simp only [isMatrix_iff.mp h, Finset.prod_const_one, mul_one]

/-! ### Counting -/

def countFrom? (n : Nat) (s : Shape) : Option Nat :=
  s.foldlM (fun n d => if n * d ≤ maxCount then some (n * d) else none) n

theorem countFrom?_cons (n d : Nat) (s : Shape) :
    countFrom? n (d :: s) = if n * d ≤ maxCount then countFrom? (n * d) s else none := by
  simp only [countFrom?, List.foldlM_cons]
  split <;> rfl

theorem eq_of_countFrom? {n k : Nat} (h : countFrom? n s = some k) : k = n * s.prod := by
  induction s generalizing n with
  | nil => simpa [countFrom?, eq_comm] using h
  | cons d s ih =>
    rw [countFrom?_cons] at h
    split at h
    · rw [ih h, List.prod_cons, mul_assoc]
    · simp at h

theorem le_of_countFrom? {n k : Nat} (hn : n ≤ maxCount) (h : countFrom? n s = some k) :
    k ≤ maxCount := by
  induction s generalizing n with
  | nil =>
    have : n = k := by simpa [countFrom?] using h
    omega
  | cons d s ih =>
    rw [countFrom?_cons] at h
    split at h
    · exact ih ‹_› h
    · simp at h

theorem countFrom?_of_pos {n : Nat} (hs : 0 < s.prod) (h : n * s.prod ≤ maxCount) :
    countFrom? n s = some (n * s.prod) := by
  induction s generalizing n with
  | nil => simp [countFrom?]
  | cons d s ih =>
    rw [List.prod_cons] at hs h
    have hpos : 0 < s.prod := Nat.pos_of_mul_pos_left hs
    have hle : n * d ≤ maxCount := by
      calc n * d ≤ n * d * s.prod := Nat.le_mul_of_pos_right _ hpos
        _ ≤ maxCount := by rwa [mul_assoc]
    rw [countFrom?_cons, if_pos hle, ih hpos (by rwa [mul_assoc]), List.prod_cons, mul_assoc]

theorem countFrom?_of_ones {n : Nat} (hn : n ≤ maxCount) (h : ∀ axis, s.extent axis = 1) :
    countFrom? n s = some n := by
  induction s with
  | nil => rfl
  | cons d s ih =>
    obtain rfl : d = 1 := h 0
    rw [countFrom?_cons, Nat.mul_one, if_pos hn, ih fun axis => h (axis + 1)]

theorem countFrom?_congr {n : Nat} (hn : n ≤ maxCount) (h : ∀ axis, s.extent axis = t.extent axis) :
    countFrom? n s = countFrom? n t := by
  induction s generalizing n t with
  | nil => exact (countFrom?_of_ones hn fun axis => (h axis).symm).symm
  | cons d s ih =>
    cases t with
    | nil => exact countFrom?_of_ones hn h
    | cons e t =>
      obtain rfl : d = e := h 0
      rw [countFrom?_cons, countFrom?_cons]
      split
      · exact ih ‹_› fun axis => h (axis + 1)
      · rfl

/-- Ones at the end change nothing about the number of elements, even if it cannot be counted. -/
theorem count_congr (h : ∀ axis, s.extent axis = t.extent axis) : s.count = t.count :=
  congrArg (·.getD maxCount) (countFrom?_congr (n := 1) (by decide) h)

theorem prod_of_count? {n : Nat} (h : s.count? = some n) : n = s.prod := by
  simpa using eq_of_countFrom? (n := 1) h

theorem le_of_count? {n : Nat} (h : s.count? = some n) : n ≤ maxCount :=
  le_of_countFrom? (n := 1) (by decide) h

/-- Without an extent zero only the whole product has to fit. -/
theorem count?_of_pos (hs : 0 < s.prod) (h : s.prod ≤ maxCount) : s.count? = some s.prod := by
  change countFrom? 1 s = _
  simpa using countFrom?_of_pos (n := 1) hs (by simpa using h)

theorem count?_eq_none_iff (hs : 0 < s.prod) : s.count? = none ↔ maxCount < s.prod := by
  constructor
  · intro h
    by_contra hle
    rw [count?_of_pos hs (by omega)] at h
    simp at h
  · intro h
    cases hc : s.count? with
    | none => rfl
    | some n =>
      have := prod_of_count? hc
      have := le_of_count? hc
      omega

theorem count?_pair {m n : Nat} (hm : m ≤ maxCount) (h : m * n ≤ maxCount) :
    count? [m, n] = some (m * n) := by
  simp [count?, hm, h]

theorem count_of_count? {n : Nat} (h : s.count? = some n) : s.count = n := by
  simp [count, h]

theorem count_eq_prod (h : s.count? = some s.count) : s.count = s.prod :=
  prod_of_count? h

theorem count_le (h : s.count? = some s.count) : s.count ≤ maxCount := le_of_count? h

end NumericArrays.Shape
