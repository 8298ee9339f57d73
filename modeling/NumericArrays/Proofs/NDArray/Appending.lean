import Mathlib.Data.Nat.Log
import NumericArrays.Proofs.NDArray.Write

/-! Writes with one coordinate, one after the other: the array is a vector from the first one on, and its
    elements move to new buffers seldom. -/
namespace NumericArrays.NDArray

/-! ### One write -/

section Step

variable {a b : NDArray} {n : Nat} {v : Value}

theorem isVector_of_size_eq_one (ha : a.WellFormed) (h : a.size = 1) : a.dims.isVector = true := by
  have hprod : a.dims.prod = 1 := by rw [← ha.size_eq_prod, h]
  refine Shape.isVector_iff.mpr ⟨0, fun i _ => ?_⟩
  have hle := Shape.extent_le_prod (by omega : 0 < a.dims.prod) i
  have hpos := Shape.prod_pos_iff.mp (by omega : 0 < a.dims.prod) i
  omega

/-- How a write at position `n` finds its room: the array has the place, or the buffers do, or the array
    was empty and gets buffers of exactly the new size, or it moves to buffers of twice that size. -/
inductive Extension (a : NDArray) (n : Nat) (b : NDArray) : Prop where
  | held (h : n ≤ a.size) (hsize : b.size = a.size) (hcap : b.capacity = a.capacity)
  | room (h : a.size < n) (hn : n ≤ a.capacity) (hsize : b.size = n) (hcap : b.capacity = a.capacity)
  | fresh (h0 : a.size = 0) (hsize : b.size = n) (hcap : b.capacity = n)
  | moved (h0 : a.size ≠ 0) (hn : a.capacity < n) (hsize : b.size = n) (hcap : b.capacity = 2 * n)

/-- Growing for a position past the end. Twice the new size is never cut to what can be counted, because
    that much is not allocated. -/
theorem extension_of_growFor (ha : a.WellFormed) (hn : 1 ≤ n) (hlt : a.size < n)
    (h : a.growFor [n] = .ok b) : a.Extension n b := by
  have hpos : ∀ axis, 1 ≤ [n].getD axis 1 := by
    intro axis
    cases axis with
    | zero => exact hn
    | succ axis => exact le_rfl
  have hnot : ¬ a.dims.Has [n] := by
    rintro ⟨-, hle⟩
    rw [← ha.size_eq_prod] at hle
    omega
  obtain ⟨count, hc, hgrown⟩ := grown_of_growFor ha h
  have hprod := grownDims_single_prod ha n
  have hmax : (a.grownDims [n]).prod ≤ maxCount := by
    rw [← Shape.prod_of_count? hc]
    exact Shape.le_of_count? hc
  have hsize : b.size = n := by
    rw [size, hgrown.dims_eq, Shape.count_of_count? hc, Shape.prod_of_count? hc, hprod]
  by_cases h0 : a.size = 0
  · rw [growFor_of_empty ha hpos hmax h0, hprod] at h
    split at h <;> cases h
    exact .fresh h0 hsize Array.size_replicate
  · by_cases hroom : n ≤ a.capacity
    · have hstays : a.StaysInRoom [n] := ⟨isVector_growthForm n, isVector_grownDims ha n, by rwa [hprod]⟩
      rw [growFor_of_room ha hpos hmax hnot h0 hstays] at h
      cases h
      exact .room hlt hroom hsize (capacity_growthForm [n])
    · have hmoves : ¬ a.StaysInRoom [n] := fun hr => hroom (hprod ▸ hr.2.2)
      rw [growFor_of_move ha hpos hmax hnot h0 hmoves, hprod] at h
      split at h
      · rename_i hm
        cases h
        refine .moved h0 (by omega) hsize ?_
        rw [isAllocatable_iff] at hm
        refine size_relocate.trans (min_eq_left ?_)
        unfold growthFactor at hm ⊢
        unfold maxCount
        omega
      · cases h

theorem extension_of_set (ha : a.WellFormed) (h : a.set [n] v = .ok b) :
    1 ≤ n ∧ a.Extension n b := by
  obtain ⟨e, -, hwrite⟩ := write_of_set h
  obtain ⟨g, hroom, rfl⟩ := (write_ok_iff ha).mp hwrite
  have hn : 1 ≤ n := hroom.one_le 0
  have hsize : (g.put [n] e).size = g.size := congrArg Shape.count dims_put
  have hcap : (g.put [n] e).capacity = g.capacity := by
    rw [put, capacity_store, capacity_accommodate]
  refine ⟨hn, ?_⟩
  cases hroom with
  | held hhas =>
    have hle : n ≤ a.size := by
      rw [ha.size_eq_prod]
      exact hhas.2
    exact .held hle hsize hcap
  | grown _ hhas _ hg =>
    have hlt : a.size < n := by
      by_contra hge
      rw [ha.size_eq_prod] at hge
      exact hhas ⟨hn, by omega⟩
    cases extension_of_growFor ha hn hlt hg with
    | held h' => omega
    | room _ hc hs hc' => exact .room hlt hc (hsize.trans hs) (hcap.trans hc')
    | fresh h0 hs hc' => exact .fresh h0 (hsize.trans hs) (hcap.trans hc')
    | moved h0 hc hs hc' => exact .moved h0 hc (hsize.trans hs) (hcap.trans hc')

theorem isVector_of_set (ha : a.WellFormed) (hform : a.dims.isVector = true ∨ a.size ≤ 1)
    (h : a.set [n] v = .ok b) : b.dims.isVector = true := by
  obtain ⟨e, -, hwrite⟩ := write_of_set h
  obtain ⟨g, hroom, rfl⟩ := (write_ok_iff ha).mp hwrite
  rw [dims_put]
  cases hroom with
  | held hhas =>
    rcases hform with hv | hone
    · exact hv
    · have hpos : 0 < a.size := by
        rw [ha.size_eq_prod]
        exact Nat.zero_lt_of_lt (Shape.position_lt hhas)
      exact isVector_of_size_eq_one ha (by omega)
  | grown _ _ _ hg =>
    obtain ⟨count, -, hgrown⟩ := grown_of_growFor ha hg
    rw [hgrown.dims_eq]
    exact isVector_grownDims ha n

/-- An array never gets shorter, and has an element after every write. -/
theorem Extension.size_le (h : a.Extension n b) (ha : a.WellFormed) (hn : 1 ≤ n) :
    a.size ≤ b.size ∧ 1 ≤ b.size := by
  have hle := ha.size_le
  cases h <;> omega

end Step

/-! ### Any number of writes -/

/-- Writes that succeed one after the other: the write with number `t` takes `a t` to `a (t + 1)` and goes
    to position `n t`. -/
structure Appending (a : Nat → NDArray) (n : Nat → Nat) (v : Nat → Value) (steps : Nat) : Prop where
  wellFormed : (a 0).WellFormed
  form : (a 0).dims.isVector = true ∨ (a 0).size ≤ 1
  set : ∀ t < steps, (a t).set [n t] (v t) = .ok (a (t + 1))

def moves (a : Nat → NDArray) (t : Nat) : Nat :=
  ((Finset.range t).filter fun i => (a (i + 1)).capacity ≠ (a i).capacity).card

namespace Appending

variable {a : Nat → NDArray} {n : Nat → Nat} {v : Nat → Value} {steps s t : Nat}

theorem wellFormed_at (h : Appending a n v steps) (ht : t ≤ steps) : (a t).WellFormed := by
  induction t with
  | zero => exact h.wellFormed
  | succ t ih => exact set_wellFormed (ih (by omega)) (h.set t ht)

theorem extension (h : Appending a n v steps) (ht : t < steps) :
    1 ≤ n t ∧ (a t).Extension (n t) (a (t + 1)) :=
  extension_of_set (h.wellFormed_at ht.le) (h.set t ht)

theorem form_at (h : Appending a n v steps) (ht : t ≤ steps) :
    (a t).dims.isVector = true ∨ (a t).size ≤ 1 := by
  induction t with
  | zero => exact h.form
  | succ t ih =>
    exact .inl (isVector_of_set (h.wellFormed_at (by omega)) (ih (by omega)) (h.set t ht))

theorem isVector (h : Appending a n v steps) (ht : t < steps) : (a (t + 1)).dims.isVector = true :=
  isVector_of_set (h.wellFormed_at ht.le) (h.form_at ht.le) (h.set t ht)

theorem one_le_size (h : Appending a n v steps) (ht : t < steps) : 1 ≤ (a (t + 1)).size := by
  obtain ⟨hn, hext⟩ := h.extension ht
  exact (hext.size_le (h.wellFormed_at ht.le) hn).2

/-- After the first write the capacity changes in one way only. -/
theorem moved_of_ne (h : Appending a n v steps) (ht : t < steps) (hpos : t ≠ 0)
    (hne : (a (t + 1)).capacity ≠ (a t).capacity) :
    (a t).capacity < n t ∧ (a (t + 1)).capacity = 2 * n t := by
  obtain ⟨t, rfl⟩ := Nat.exists_eq_add_one_of_ne_zero hpos
  have hsize := h.one_le_size (t := t) (by omega)
  cases (h.extension ht).2 with
  | held _ _ hcap | room _ _ _ hcap => contradiction
  | fresh h0 => omega
  | moved _ hn _ hcap => exact ⟨hn, hcap⟩

/-- The capacity changes only where it does not suffice, or on the first write, if the array was empty and
    had room nevertheless. -/
theorem lt_of_ne (h : Appending a n v steps) (ht : t < steps)
    (hne : (a (t + 1)).capacity ≠ (a t).capacity) :
    (a t).capacity < n t ∨ (t = 0 ∧ (a t).size = 0 ∧ (a t).capacity ≠ 0) := by
  by_cases h0 : t = 0
  · obtain ⟨hn, hext⟩ := h.extension ht
    cases hext with
    | held _ _ hcap | room _ _ _ hcap => contradiction
    | fresh hempty _ hcap =>
      by_cases hc : (a t).capacity = 0
      · exact .inl (by omega)
      · exact .inr ⟨h0, hempty, hc⟩
    | moved _ hn => exact .inl hn
  · exact .inl (h.moved_of_ne ht h0 hne).1

theorem capacity_le (h : Appending a n v steps) (ht : t ≤ steps) :
    (a t).capacity ≤ max (a 0).capacity (2 * (a t).size) := by
  induction t with
  | zero => exact le_max_left _ _
  | succ t ih =>
    have hle := ih (by omega)
    obtain ⟨hn, hext⟩ := h.extension ht
    have hsize := (hext.size_le (h.wellFormed_at (Nat.le_of_succ_le ht)) hn).1
    cases hext <;> omega

/-- After the first write the capacity does not fall. -/
theorem capacity_mono (h : Appending a n v steps) (hst : s ≤ t) (ht : t < steps) :
    (a (s + 1)).capacity ≤ (a (t + 1)).capacity := by
  induction t, hst using Nat.le_induction with
  | base => exact le_rfl
  | succ t hst ih =>
    have hle := ih (by omega)
    by_cases hne : (a (t + 1 + 1)).capacity = (a (t + 1)).capacity
    · rwa [hne]
    · obtain ⟨hlt, hcap⟩ := h.moved_of_ne ht (by omega) hne
      omega

/-- The capacity after a change is more than twice that after any change before. -/
theorem two_mul_capacity_lt (h : Appending a n v steps) (hst : s < t) (ht : t < steps)
    (hne : (a (t + 1)).capacity ≠ (a t).capacity) :
    2 * (a (s + 1)).capacity < (a (t + 1)).capacity := by
  obtain ⟨hlt, hcap⟩ := h.moved_of_ne ht (by omega) hne
  obtain ⟨t, rfl⟩ := Nat.exists_eq_add_one_of_ne_zero (by omega : t ≠ 0)
  have hle := h.capacity_mono (Nat.lt_succ_iff.mp hst) (Nat.lt_of_succ_lt ht)
  omega

theorem moves_succ (a : Nat → NDArray) (t : Nat) :
    moves a (t + 1) = moves a t + if (a (t + 1)).capacity ≠ (a t).capacity then 1 else 0 := by
  unfold moves
  rw [Finset.range_add_one, Finset.filter_insert]
  split
  · rw [Finset.card_insert_of_notMem (by simp)]
  · rfl

/-- The potential of the capacity: each change after the first one doubles it. -/
theorem two_pow_moves_le (h : Appending a n v steps) {M : Nat} (hM : ∀ t < steps, n t ≤ M)
    (ht : t ≤ steps) :
    moves a t = 0 ∨ (2 ^ (moves a t - 1) ≤ (a t).capacity ∧ (a t).capacity ≤ 2 * M) := by
  induction t with
  | zero => exact .inl rfl
  | succ t ih =>
    have hmoves := moves_succ a t
    have hprev := ih (by omega)
    have hle := hM t ht
    by_cases hne : (a (t + 1)).capacity = (a t).capacity
    · rw [if_neg (not_not.mpr hne), Nat.add_zero] at hmoves
      rwa [hmoves, hne]
    · rw [if_pos hne] at hmoves
      rw [hmoves]
      refine .inr ?_
      by_cases hzero : moves a t = 0
      · obtain ⟨hn, hext⟩ := h.extension ht
        rw [hzero, Nat.zero_add, Nat.sub_self, pow_zero]
        cases hext with
        | held _ _ hcap | room _ _ _ hcap => contradiction
        | fresh _ _ hcap | moved _ _ _ hcap => constructor <;> omega
      · -- there was a change before, so this write is not the first one
        have h0 : t ≠ 0 := by
          rintro rfl
          exact hzero rfl
        obtain ⟨hlow, -⟩ := hprev.resolve_left hzero
        obtain ⟨hlt, hcap⟩ := h.moved_of_ne ht h0 hne
        obtain ⟨k, hk⟩ := Nat.exists_eq_add_one_of_ne_zero hzero
        rw [hk, Nat.add_sub_cancel] at hlow
        rw [hk, Nat.add_sub_cancel, pow_succ]
        constructor <;> omega

theorem moves_le (h : Appending a n v steps) {M : Nat} (hpos : 1 ≤ M) (hM : ∀ t < steps, n t ≤ M) :
    moves a steps ≤ 2 + Nat.log 2 M := by
  rcases h.two_pow_moves_le hM le_rfl with h0 | ⟨hlow, hhigh⟩
  · omega
  · have hlog : moves a steps - 1 ≤ Nat.log 2 (M * 2) :=
      Nat.le_log_of_pow_le one_lt_two (by omega)
    rw [Nat.log_mul_base one_lt_two (by omega)] at hlog
    omega

end Appending
end NumericArrays.NDArray
