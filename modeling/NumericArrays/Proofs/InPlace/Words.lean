import NumericArrays.InPlace.Basic
import NumericArrays.Proofs.Shape.Place

/-! Word arithmetic stays in range on shapes that can be counted, and yields the same positions. -/
namespace NumericArrays.InPlace

variable {s : Shape} {coords : List Nat} {m n : Nat}

@[simp] theorem ok_bind {α β : Type} (x : α) (f : α → Except Stop β) :
    (Except.ok x >>= f) = f x := rfl

@[simp] theorem ok_map {α β : Type} (x : α) (f : α → β) :
    f <$> (Except.ok x : Except Stop α) = .ok (f x) := rfl

theorem addWord_of_le (h : m + n ≤ maxCount) : addWord m n = .ok (m + n) := if_pos h

theorem mulWord_of_le (h : m * n ≤ maxCount) : mulWord m n = .ok (m * n) := if_pos h

theorem subWord_of_le (h : n ≤ m) : subWord m n = .ok (m - n) := if_pos h

/-! ### Positions -/

theorem prod_range_le {k rank : Nat} (hpos : ∀ axis, 0 < s.extent axis) (hk : k ≤ rank)
    (hrank : s.length ≤ rank) : ∏ i ∈ Finset.range k, s.extent i ≤ s.prod := by
  rw [Shape.prod_eq_prod_extent s hrank]
  exact Finset.prod_le_prod_of_subset_of_one_le' (Finset.range_mono hk) fun i _ _ => hpos i

/-- The walk through the first axes adds up the first terms of the offset. -/
theorem walk_eq {k rank : Nat} (h : s.prod ≤ maxCount)
    (hin : ∀ axis, 1 ≤ coords.getD axis 1 ∧ coords.getD axis 1 ≤ s.extent axis)
    (hk : k ≤ rank) (hs : s.length ≤ rank) (hc : coords.length ≤ rank) :
    (List.range k).foldlM (Walk.step s coords) ⟨0, 1⟩ =
      .ok ⟨∑ axis ∈ Finset.range k,
          (coords.map (· - 1)).getD axis 0 * ∏ i ∈ Finset.range axis, s.extent i,
        ∏ i ∈ Finset.range k, s.extent i⟩ := by
  have hpos : ∀ axis, 0 < s.extent axis := fun axis => (hin axis).1.trans (hin axis).2
  have hcov : s.covers (coords.map (· - 1)) = true :=
    (Shape.covers_map_pred fun axis => (hin axis).1).mpr fun axis => (hin axis).2
  have hoff : s.offset (coords.map (· - 1)) ≤ maxCount := (Shape.offset_lt hcov).le.trans h
  rw [Shape.offset_eq_sum s (show (coords.map (· - 1)).length ≤ rank by simpa using hc)] at hoff
  induction k with
  | zero => rfl
  | succ k ih =>
    have hsum : ∑ axis ∈ Finset.range (k + 1),
        (coords.map (· - 1)).getD axis 0 * ∏ i ∈ Finset.range axis, s.extent i ≤ maxCount :=
      (Finset.sum_le_sum_of_subset (Finset.range_mono hk)).trans hoff
    have hprod : ∏ i ∈ Finset.range (k + 1), s.extent i ≤ maxCount :=
      (prod_range_le hpos hk hs).trans h
    rw [Finset.sum_range_succ] at hsum
    rw [Finset.prod_range_succ] at hprod
    rw [Finset.sum_range_succ, Finset.prod_range_succ, List.range_succ, List.foldlM_append,
      ih (Nat.le_of_succ_le hk), ok_bind, List.foldlM_cons]
    unfold Walk.step
    rw [Shape.getD_map_pred] at hsum ⊢
    rw [subWord_of_le (hin k).1, ok_bind, mulWord_of_le ((Nat.le_add_left _ _).trans hsum), ok_bind,
      addWord_of_le hsum, ok_bind, mulWord_of_le hprod]
    rfl

/-- Single coordinates count through the whole array. -/
theorem locate_single {k : Nat} (hk : 1 ≤ k) : locate s [k] = (s.locate [k]).mapError .fault := by
  have h0 : [k].findIdx? (· == 0) = none := by
    simp
    omega
  simp only [locate, Shape.locate, h0, subWord_of_le hk]
  split <;> rfl

section Locate

variable (hs : s.count? = some s.count)

include hs

/-- The walk through all axes ends at the position. -/
theorem exists_walk (hl : coords.length ≠ 1) (h : s.Has coords) :
    ∃ stride, (List.range (Shape.commonRank s coords)).foldlM (Walk.step s coords) ⟨0, 1⟩ =
      .ok ⟨s.position coords, stride⟩ := by
  have hprod := Shape.count_eq_prod hs
  have hle := Shape.count_le hs
  have hwalk := walk_eq (by omega) ((Shape.has_of_length_ne_one hl).mp h) le_rfl
    (le_max_left s.length coords.length) (le_max_right s.length coords.length)
  have hlen : (coords.map (· - 1)).length ≤ max s.length coords.length := by simp
  rw [Shape.position_of_length_ne_one hl, Shape.offset_eq_sum s hlen]
  exact ⟨_, hwalk⟩

/-- Locating in words never passes a word, and finds what locating in numbers finds. -/
theorem locate_eq : locate s coords = (s.locate coords).mapError .fault := by
  cases h0 : coords.findIdx? (· == 0) with
  | some axis =>
    rw [Shape.locate_of_zero h0]
    simp only [locate, h0]
    rfl
  | none =>
    have hpos := Shape.findIdx?_zero_eq_none_iff.mp h0
    by_cases hl : coords.length = 1
    · obtain ⟨k, rfl⟩ := List.length_eq_one_iff.mp hl
      exact locate_single (hpos 0)
    by_cases hhas : s.Has coords
    · obtain ⟨stride, hwalk⟩ := exists_walk hs hl hhas
      have hx : s.exceededAxis? coords = none :=
        Shape.exceededAxis?_eq_none_iff.mpr fun axis => ((Shape.has_of_length_ne_one hl).mp hhas axis).2
      rw [Shape.locate_of_has hs hhas]
      simp only [locate, h0, hx]
      split
      · simp at hl
      · rw [hwalk]
        rfl
    · rw [Shape.locate_of_not_has hs h0 hhas]
      rw [Shape.has_of_length_ne_one hl] at hhas
      cases hx : s.exceededAxis? coords with
      | some axis =>
        simp only [locate, h0, hx]
        split
        · simp at hl
        · rfl
      | none => exact absurd (fun axis => ⟨hpos axis, Shape.exceededAxis?_eq_none_iff.mp hx axis⟩) hhas

end Locate

/-- Strides stay words where the extents can be counted, even if some extent is zero. -/
theorem strides_of_countFrom? {unit : Nat} (h : Shape.countFrom? unit s = some n) :
    strides unit s = .ok (Shape.stridesFrom unit s) := by
  induction s generalizing unit with
  | nil => rfl
  | cons d s ih =>
    rw [Shape.countFrom?_cons] at h
    split at h
    · rename_i hle
      rw [strides, mulWord_of_le hle, ok_bind, ih h, ok_bind]
      rfl
    · cases h

end NumericArrays.InPlace
