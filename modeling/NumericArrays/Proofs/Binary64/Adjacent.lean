import NumericArrays.Proofs.Binary64.Value

/-! The neighbour of a number is at the next place on the way. -/
namespace NumericArrays.Binary64

variable {x y : Float} {m : ℕ}

theorem signOf_withMagnitude (h : m ≤ infinityMagnitude) : signOf (withMagnitude x m) = signOf x := by
  unfold signOf
  rw [isNegative_withMagnitude h]

theorem rank_withMagnitude (h : m ≤ infinityMagnitude) : rank (withMagnitude x m) = (signOf x).apply m := by
  rw [rank_eq, signOf_withMagnitude h, magnitude_withMagnitude h]

theorem withMagnitude_ne_nan (h : m ≤ infinityMagnitude) : withMagnitude x m ≠ nan := by
  rw [ne_nan_iff, magnitude_withMagnitude h]
  exact h

theorem withMagnitude_eq (x : Float) (m : ℕ) : withMagnitude x m = .ofBits (.ofNat (signPart x + m)) := rfl

theorem toBits_eq (x : Float) : x.toBits = .ofNat (signPart x + magnitude x) := by
  rw [← toNat_toBits, UInt64.ofNat_toNat]

/-- Counting the pattern up raises the magnitude by one. -/
theorem ofBits_toBits_add_one (x : Float) : Float.ofBits (x.toBits + 1) = withMagnitude x (magnitude x + 1) := by
  rw [withMagnitude_eq, toBits_eq, ← Nat.add_assoc, UInt64.ofNat_add _ 1]
  rfl

/-- Counting the pattern down lowers the magnitude by one; the sign bit is not reached. -/
theorem ofBits_toBits_sub_one (h : 0 < magnitude x) :
    Float.ofBits (x.toBits - 1) = withMagnitude x (magnitude x - 1) := by
  obtain ⟨m, hm⟩ := Nat.exists_eq_add_one_of_ne_zero h.ne'
  rw [withMagnitude_eq, toBits_eq, hm, ← Nat.add_assoc, UInt64.ofNat_add _ 1, Nat.add_sub_cancel]
  congr 1
  exact UInt64.add_sub_cancel _ _

theorem not_isNaN (hx : x ≠ nan) : x.isNaN = false := by
  rw [Float.isNaN_eq_decide_eq_nan]
  exact decide_eq_false hx

theorem adjacent_of_rank_eq (hx : x ≠ nan) (hy : y ≠ nan) (h : rank x = rank y) : adjacent x y = y := by
  unfold adjacent
  rw [not_isNaN hx, not_isNaN hy, if_neg (by simp), if_pos ((beq_iff_rank hx hy).mpr h)]

theorem apply_signOf_of_pos (h : 0 < rank x) (m : ℤ) : (signOf x).apply m = m := by
  rw [rank_eq] at h
  cases hs : signOf x with
  | positive => rfl
  | negative =>
    rw [hs] at h
    simp only [Float.Model.UnpackedFloat.Sign.apply] at h
    omega

theorem apply_signOf_of_neg (h : rank x < 0) (m : ℤ) : (signOf x).apply m = -m := by
  rw [rank_eq] at h
  cases hs : signOf x with
  | negative => rfl
  | positive =>
    rw [hs] at h
    simp only [Float.Model.UnpackedFloat.Sign.apply] at h
    omega

theorem apply_signOf (h : rank x ≠ 0) (m : ℤ) : (signOf x).apply m = if 0 < rank x then m else -m := by
  rcases Int.lt_or_gt_of_ne h with hneg | hpos
  · rw [apply_signOf_of_neg hneg, if_neg (not_lt.mpr hneg.le)]
  · rw [apply_signOf_of_pos hpos, if_pos hpos]

/-- The neighbour is a number, and it is one place from `x` towards `y`. Only from zero the sign can
    change. -/
theorem rank_adjacent (hx : x ≠ nan) (hy : y ≠ nan) (h : rank x ≠ rank y) :
    adjacent x y ≠ nan ∧ rank (adjacent x y) = (if rank x < rank y then rank x + 1 else rank x - 1) ∧
      (rank x ≠ 0 → signOf (adjacent x y) = signOf x) := by
  have hlex := magnitude_le hx
  have hley := magnitude_le hy
  have hxabs := natAbs_rank x
  have hyabs := natAbs_rank y
  have hzero : (0 : Float) ≠ nan := by decide
  unfold adjacent
  rw [not_isNaN hx, not_isNaN hy, if_neg (by simp), if_neg (mt (beq_iff_rank hx hy).mp h)]
  by_cases hx0 : rank x = 0
  · rw [if_pos ((beq_zero_iff_rank hx).mpr hx0), hx0]
    by_cases hpos : 0 < rank y
    · rw [if_pos ((lt_iff_rank hzero hy).mpr (rank_zero ▸ hpos)), if_pos hpos]
      exact ⟨by decide, by decide, fun hne => absurd rfl hne⟩
    · rw [if_neg (mt (fun hlt => rank_zero ▸ (lt_iff_rank hzero hy).mp hlt) hpos), if_neg hpos]
      exact ⟨by decide, by decide, fun hne => absurd rfl hne⟩
  · have hxpos : 0 < magnitude x := by omega
    rw [if_neg (mt (beq_zero_iff_rank hx).mp hx0)]
    have haway : (decide (x < y) == decide (0 < x)) = true ↔ (rank x < rank y ↔ 0 < rank x) := by
      rw [beq_iff_eq, decide_eq_decide, lt_iff_rank hx hy, lt_iff_rank hzero hx, rank_zero]
    by_cases hdir : rank x < rank y ↔ 0 < rank x
    · have hm : magnitude x + 1 ≤ infinityMagnitude := by omega
      rw [if_pos (haway.mpr hdir), ofBits_toBits_add_one, rank_withMagnitude hm, signOf_withMagnitude hm]
      refine ⟨withMagnitude_ne_nan hm, ?_, fun _ => rfl⟩
      rw [apply_signOf hx0]
      split <;> split <;> omega
    · have hm : magnitude x - 1 ≤ infinityMagnitude := by omega
      rw [if_neg (mt haway.mp hdir), ofBits_toBits_sub_one hxpos, rank_withMagnitude hm, signOf_withMagnitude hm]
      refine ⟨withMagnitude_ne_nan hm, ?_, fun _ => rfl⟩
      rw [apply_signOf hx0]
      split <;> split <;> omega

/-! ### Neighbours -/

/-- Nothing is above or below NaN. -/
theorem ne_nan_of_lt (h : x < y) : x ≠ nan ∧ y ≠ nan := by
  have hcompare : (x.toModel.unpack.compare y.toModel.unpack == some .lt) = true := of_decide_eq_true h
  constructor
  · rintro rfl
    exact absurd hcompare Bool.false_ne_true
  · rintro rfl
    have hnan : x.toModel.unpack.compare nan.toModel.unpack = none := by
      cases x.toModel.unpack <;> rfl
    rw [hnan] at hcompare
    exact absurd hcompare Bool.false_ne_true

theorem isNegative_eq_of_signOf (h : signOf x = signOf y) : isNegative x = isNegative y := by
  unfold signOf at h
  cases hx : isNegative x <;> cases hy : isNegative y <;> simp [hx, hy] at h ⊢

/-- With the sign kept, the pattern goes with the place: up on the way from zero, down on the way to it. -/
theorem toNat_toBits_of_rank (hsign : signOf y = signOf x) :
    (y.toBits.toNat : ℤ) = x.toBits.toNat + ((rank y).natAbs - (rank x).natAbs) := by
  rw [toNat_toBits, toNat_toBits, natAbs_rank, natAbs_rank, signPart, signPart, isNegative_eq_of_signOf hsign]
  push_cast
  ring

/-- `r` is the first number after `x` on the way to `y`, and unless `x` is zero its pattern is the one after
    that of `x`, or the one before it on the way to zero. -/
structure Neighbour (x y r : Float) : Prop where
  ne_nan : r ≠ nan
  toward : x < y ∧ x < r ∧ r ≤ y ∨ y < x ∧ y ≤ r ∧ r < x
  /-- Not even a number far from both could lie between them. -/
  between : ∀ z, ¬ (x < z ∧ z < r) ∧ ¬ (r < z ∧ z < x)
  sign : ¬ (x == 0) = true → isNegative r = isNegative x
  /-- Taken as natural numbers the patterns differ by one, so the word has not wrapped. -/
  pattern : ¬ (x == 0) = true →
    if x < y ↔ 0 < x then r.toBits.toNat = x.toBits.toNat + 1 else r.toBits.toNat + 1 = x.toBits.toNat

/-- What is next on the way to another number is its neighbour, over infinities, zeros and subnormals as
    well. -/
theorem adjacent_neighbour (hx : x ≠ nan) (hy : y ≠ nan) (h : ¬ (x == y) = true) :
    Neighbour x y (adjacent x y) := by
  have hne : rank x ≠ rank y := mt (beq_iff_rank hx hy).mpr h
  have hzero : (0 : Float) ≠ nan := by decide
  obtain ⟨hnan, hrank, hsign⟩ := rank_adjacent hx hy hne
  have hkept (h0 : ¬ (x == 0) = true) : rank x ≠ 0 ∧ signOf (adjacent x y) = signOf x := by
    have hx0 := mt (beq_zero_iff_rank hx).mpr h0
    exact ⟨hx0, hsign hx0⟩
  refine ⟨hnan, ?_, fun z => ⟨?_, ?_⟩, fun h0 => isNegative_eq_of_signOf (hkept h0).2, fun h0 => ?_⟩
  · rw [lt_iff_rank hx hy, lt_iff_rank hx hnan, le_iff_rank hnan hy, lt_iff_rank hy hx, le_iff_rank hy hnan,
      lt_iff_rank hnan hx]
    split at hrank <;> omega
  · rintro ⟨hlower, hupper⟩
    rw [lt_iff_rank hx (ne_nan_of_lt hlower).2] at hlower
    rw [lt_iff_rank (ne_nan_of_lt hupper).1 hnan] at hupper
    split at hrank <;> omega
  · rintro ⟨hlower, hupper⟩
    rw [lt_iff_rank hnan (ne_nan_of_lt hlower).2] at hlower
    rw [lt_iff_rank (ne_nan_of_lt hupper).1 hx] at hupper
    split at hrank <;> omega
  · obtain ⟨hx0, hsame⟩ := hkept h0
    have hpattern := toNat_toBits_of_rank hsame
    simp only [lt_iff_rank hx hy, lt_iff_rank hzero hx, rank_zero]
    split at hrank <;> split <;> omega

/-- From the last number below zero upwards, and past the greatest finite number. -/
theorem adjacent_neighbour_edges :
    (Neighbour (.ofBits 0x8000000000000001) infinity (-0) ∧
      adjacent (.ofBits 0x8000000000000001) infinity = -0) ∧
      Neighbour (.ofBits 0x7FEFFFFFFFFFFFFF) infinity infinity := by
  have hzero : adjacent (.ofBits 0x8000000000000001) infinity = -0 := by decide
  have htop : adjacent (.ofBits 0x7FEFFFFFFFFFFFFF) infinity = infinity := by decide
  refine ⟨⟨?_, hzero⟩, ?_⟩
  · rw [← hzero]
    exact adjacent_neighbour (by decide) (by decide) (by decide)
  · have h := adjacent_neighbour (x := .ofBits 0x7FEFFFFFFFFFFFFF) (y := infinity) (by decide) (by decide) (by decide)
    rwa [htop] at h

end NumericArrays.Binary64
