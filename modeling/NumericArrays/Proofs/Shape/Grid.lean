import NumericArrays.Proofs.Shape.Address

/-! Coordinates on all axes of a shape: each position has one list of them, found by the strides. -/
namespace NumericArrays.Shape

variable {s : Shape} {c e : List Nat} {n p unit : Nat}

/-! ### One coordinate for each axis -/

def Grid (s : Shape) (c : List Nat) : Prop := List.Forall₂ (fun d x => 1 ≤ x ∧ x ≤ d) s c

theorem holds_cons {d x : Nat} : Holds (d :: s) (x :: c) ↔ (1 ≤ x ∧ x ≤ d) ∧ s.Holds c := by
  constructor
  · intro h
    exact ⟨h 0, fun axis => h (axis + 1)⟩
  · rintro ⟨hx, hc⟩ axis
    cases axis with
    | zero => exact hx
    | succ axis => exact hc axis

theorem grid_iff : s.Grid c ↔ c.length = s.length ∧ s.Holds c := by
  induction s generalizing c with
  | nil =>
    constructor
    · intro h
      cases h
      exact ⟨rfl, fun axis => by simp [extent]⟩
    · rintro ⟨hl, -⟩
      rw [List.length_eq_zero_iff.mp hl]
      exact .nil
  | cons d s ih =>
    cases c with
    | nil => simp [Grid]
    | cons x c =>
      have hhead : Grid (d :: s) (x :: c) ↔ (1 ≤ x ∧ x ≤ d) ∧ Grid s c := List.forall₂_cons
      rw [hhead, ih, holds_cons, List.length_cons, List.length_cons, Nat.add_right_cancel_iff]
      exact and_left_comm

theorem grid_placeOf (h : p < s.prod) : s.Grid (s.placeOf p) := by
  rw [grid_iff]
  exact ⟨(List.length_map _).trans (length_coordsOf s p), holds_placeOf h⟩

/-- On the grid nothing but the coordinates themselves lead to the same place. -/
theorem Grid.eq_of_same (hc : s.Grid c) (he : s.Grid e) (h : same c e = true) : c = e :=
  ext_extent ((grid_iff.mp hc).1.trans (grid_iff.mp he).1.symm) (same_iff_getD.mp h)

/-! ### Strides -/

/-- The steps along the axes that lead to the coordinates, each as long as its stride. -/
def dot (c strides : List Nat) : Nat := (List.zipWith (fun x stride => (x - 1) * stride) c strides).sum

theorem dot_stridesFrom (h : c.length ≤ s.length) :
    dot c (stridesFrom unit s) = unit * s.offset (c.map (· - 1)) := by
  induction s generalizing c unit with
  | nil =>
    rw [List.eq_nil_of_length_eq_zero (Nat.le_zero.mp h)]
    simp [dot, offset]
  | cons d s ih =>
    cases c with
    | nil => simp [dot, offset]
    | cons x c =>
      have hrest : dot c (stridesFrom (unit * d) s) = unit * d * offset s (c.map (· - 1)) :=
        ih (by simpa using h)
      have hcons : dot (x :: c) (stridesFrom unit (d :: s)) =
          (x - 1) * unit + dot c (stridesFrom (unit * d) s) := List.sum_cons
      rw [hcons, hrest, List.map_cons, offset]
      ring

/-- As long as the extents can be counted their products are words. -/
theorem stridesFrom_le (hunit : unit ≤ maxCount) (h : countFrom? unit s = some n) :
    ∀ stride ∈ stridesFrom unit s, stride ≤ maxCount := by
  induction s generalizing unit with
  | nil => simp [stridesFrom]
  | cons d s ih =>
    rw [countFrom?_cons] at h
    split at h
    · rename_i hle
      intro stride hstride
      rcases List.mem_cons.mp hstride with rfl | hstride
      · exact hunit
      · exact ih hle h stride hstride
    · cases h

theorem strides_eq_stridesFrom (h : s.count? = some n) : s.strides = stridesFrom 1 s := by
  have hone : 1 ≤ maxCount := by decide
  have hle := stridesFrom_le hone h
  conv_rhs => rw [← List.map_id (stridesFrom 1 s)]
  refine List.map_congr_left fun stride hstride => ?_
  exact Nat.mod_eq_of_lt (Nat.lt_succ_of_le (hle stride hstride))

/-! ### Ones at the end -/

/-- Ones at the end are not seen, except that they tell a single coordinate from others. -/
theorem locate_append_ones (hs : s.count? = some s.count) {m : Nat} (hc : c.length ≠ 1)
    (hm : c.length + m ≠ 1) : s.locate (c ++ List.replicate m 1) = s.locate c := by
  have hlen : (c ++ List.replicate m 1).length ≠ 1 := by simpa using hm
  have hzero : (c ++ List.replicate m 1).findIdx? (· == 0) = c.findIdx? (· == 0) := by
    rw [List.findIdx?_append]
    simp [List.findIdx?_replicate]
  cases h0 : c.findIdx? (· == 0) with
  | some axis => rw [locate_of_zero h0, locate_of_zero (hzero.trans h0)]
  | none =>
    have hhas : s.Has (c ++ List.replicate m 1) ↔ s.Has c := by
      rw [has_of_length_ne_one hlen, has_of_length_ne_one hc]
      simp only [getD_append_ones]
    by_cases h : s.Has c
    · rw [locate_of_has hs h, locate_of_has hs (hhas.mpr h), position_of_length_ne_one hlen,
        position_of_length_ne_one hc]
      congr 2
      apply offset_congr
      intro axis
      rw [getD_map_pred, getD_map_pred, getD_append_ones]
    · rw [locate_of_not_has hs h0 h, locate_of_not_has hs (hzero.trans h0) (mt hhas.mp h)]

/-! ### What is not found -/

def FirstZero (c : List Nat) (axis : Nat) : Prop :=
  c.getD axis 1 = 0 ∧ ∀ i < axis, c.getD i 1 ≠ 0

theorem FirstZero.unique {i j : Nat} (hi : FirstZero c i) (hj : FirstZero c j) : i = j := by
  rcases Nat.lt_trichotomy i j with h | h | h
  · exact absurd hi.1 (hj.2 i h)
  · exact h
  · exact absurd hj.1 (hi.2 j h)

theorem firstZero_of_findIdx? {axis : Nat} (h : c.findIdx? (· == 0) = some axis) : FirstZero c axis := by
  obtain ⟨hl, hzero, hbefore⟩ := List.findIdx?_eq_some_iff_getElem.mp h
  constructor
  · rw [List.getD_eq_getElem _ _ hl]
    exact beq_iff_eq.mp hzero
  · intro i hi
    rw [List.getD_eq_getElem _ _ (hi.trans hl)]
    simpa using hbefore i hi

theorem zero_not_mem_iff : 0 ∉ c ↔ ∀ axis, 1 ≤ c.getD axis 1 := by
  rw [← findIdx?_zero_eq_none_iff, List.findIdx?_eq_none_iff]
  simp only [beq_eq_false_iff_ne]
  exact ⟨fun h x hx hzero => h (hzero ▸ hx), fun h hmem => h 0 hmem rfl⟩

theorem FirstZero.mem {axis : Nat} (h : FirstZero c axis) : 0 ∈ c := by
  by_contra hnot
  have := zero_not_mem_iff.mp hnot axis
  have := h.1
  omega

/-- What coordinates are compared with: a single one counts through all `n` elements. -/
def frame (s : Shape) (n : Nat) (c : List Nat) : Shape := if c.length = 1 then [n] else s

theorem has_iff_frame (hs : s.count? = some n) : s.Has c ↔ (s.frame n c).Holds c := by
  rw [has_iff, ← prod_of_count? hs]
  unfold frame
  split
  · rename_i hl
    obtain ⟨k, rfl⟩ := List.length_eq_one_iff.mp hl
    rw [holds_cons]
    simp [Holds, extent]
  · rfl

def FirstPast (s : Shape) (n : Nat) (c : List Nat) (axis : Nat) : Prop :=
  (s.frame n c).extent axis < c.getD axis 1 ∧ ∀ i < axis, c.getD i 1 ≤ (s.frame n c).extent i

theorem exceededAxis?_eq_some {axis : Nat} (h : s.exceededAxis? c = some axis) :
    s.extent axis < c.getD axis 1 ∧ ∀ i < axis, c.getD i 1 ≤ s.extent i := by
  obtain ⟨hpast, -, hbefore⟩ := List.find?_range_eq_some.mp h
  refine ⟨by simpa using hpast, fun i hi => ?_⟩
  simpa using hbefore i hi

/-- The fault of reading past the end names the first axis on which that happens. -/
theorem outOfRange_eq (hs : s.count? = some n) (hpos : ∀ axis, 1 ≤ c.getD axis 1) (h : ¬ s.Has c) :
    ∃ axis, s.FirstPast n c axis ∧
      s.outOfRange c = .indexOutOfRange (c.getD axis 1) axis ((s.frame n c).extent axis) := by
  by_cases hl : c.length = 1
  · obtain ⟨k, rfl⟩ := List.length_eq_one_iff.mp hl
    have hk : 1 ≤ k := hpos 0
    have hpast : ¬ (1 ≤ k ∧ k ≤ s.prod) := h
    rw [← prod_of_count? hs] at hpast
    have hlt : n < k := by omega
    refine ⟨0, ⟨hlt, fun i hi => absurd hi (Nat.not_lt_zero i)⟩, ?_⟩
    change Fault.indexOutOfRange k 0 s.count = _
    rw [count_of_count? hs]
    rfl
  · have hframe : s.frame n c = s := if_neg hl
    unfold FirstPast
    rw [hframe]
    cases hx : s.exceededAxis? c with
    | some axis =>
      refine ⟨axis, exceededAxis?_eq_some hx, ?_⟩
      unfold outOfRange
      split
      · exact absurd rfl hl
      · rw [hx]
    | none =>
      rw [has_of_length_ne_one hl] at h
      exact absurd (fun axis => ⟨hpos axis, exceededAxis?_eq_none_iff.mp hx axis⟩) h

/-! ### The three outcomes -/

/-- A coordinate is zero, or all of them lead to an element, or one of them is past its extent. -/
inductive Found (s : Shape) (n : Nat) (c : List Nat) : Except Fault (Option Nat) → Prop where
  | zero {axis : Nat} (h : FirstZero c axis) : Found s n c (.error (.indexBelowOne axis))
  | inside (hnot : 0 ∉ c) (hin : (s.frame n c).Holds c) (hlt : s.position c < n) :
      Found s n c (.ok (some (s.position c)))
  | outside (hnot : 0 ∉ c) (hout : ¬ (s.frame n c).Holds c) : Found s n c (.ok none)

theorem found (hs : s.count? = some n) (c : List Nat) : s.Found n c (s.locate c) := by
  have hcount := count_of_count? hs
  subst hcount
  cases h0 : c.findIdx? (· == 0) with
  | some axis =>
    rw [locate_of_zero h0]
    exact .zero (firstZero_of_findIdx? h0)
  | none =>
    have hnot : 0 ∉ c := zero_not_mem_iff.mpr (findIdx?_zero_eq_none_iff.mp h0)
    by_cases h : s.Has c
    · have hlt := position_lt h
      rw [← prod_of_count? hs] at hlt
      rw [locate_of_has hs h]
      exact .inside hnot ((has_iff_frame hs).mp h) hlt
    · rw [locate_of_not_has hs h0 h]
      exact .outside hnot (mt (has_iff_frame hs).mpr h)

theorem locate_of_firstZero (hs : s.count? = some n) {axis : Nat} (h : FirstZero c axis) :
    s.locate c = .error (.indexBelowOne axis) := by
  have hfound := found hs c
  generalize s.locate c = r at hfound ⊢
  cases hfound with
  | zero hi => rw [hi.unique h]
  | inside hnot => exact absurd h.mem hnot
  | outside hnot => exact absurd h.mem hnot

theorem locate_of_holds (hs : s.count? = some n) (hnot : 0 ∉ c) (h : (s.frame n c).Holds c) :
    s.locate c = .ok (some (s.position c)) := by
  have hfound := found hs c
  generalize s.locate c = r at hfound ⊢
  cases hfound with
  | zero hi => exact absurd hi.mem hnot
  | inside => rfl
  | outside _ hout => exact absurd h hout

theorem locate_of_not_holds (hs : s.count? = some n) (hnot : 0 ∉ c) (h : ¬ (s.frame n c).Holds c) :
    s.locate c = .ok none := by
  have hfound := found hs c
  generalize s.locate c = r at hfound ⊢
  cases hfound with
  | zero hi => exact absurd hi.mem hnot
  | inside _ hin => exact absurd hin h
  | outside => rfl

theorem not_holds_iff (h : 0 ∉ c) : ¬ s.Holds c ↔ ∃ axis, s.extent axis < c.getD axis 1 := by
  have hpos := zero_not_mem_iff.mp h
  simp only [Holds, not_forall, not_and, not_le]
  exact exists_congr fun axis => ⟨fun hx => hx (hpos axis), fun hx _ => hx⟩

end NumericArrays.Shape
