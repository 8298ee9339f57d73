import NumericArrays.Proofs.Range.Order

/-! A range against the exact number of its steps: how many elements it has, and which way they run. -/
namespace NumericArrays.Range

open Binary64
open Float.Model.UnpackedFloat (Sign)

variable {start step stop x y : Float}

/-- One neighbour of the span and of the step is a small change: the span is not so long that it or its
    neighbour overflows, and the step is long against the least number. Steps of at least `2 ^ (-1022)`
    always are. -/
structure Estimable (start step stop : Float) : Prop where
  span : |Binary64.value stop - Binary64.value start| ≤ 2 ^ 1024 - 3 * 2 ^ 970
  step : 3 * (exactSteps start step stop + 1) * 2 ^ (-1074 : ℤ) ≤ |Binary64.value step|

/-- The longest span that is not rounded to the greatest finite number. -/
theorem middle_eq : middle (infinityMagnitude - 2) = 2 ^ 1024 - 3 * 2 ^ 970 := by
  have hgrid (c : ℕ) (hc : c < exponentStep) :
      grid (2045 * exponentStep + (exponentStep + c) : ℕ) = (exponentStep + c : ℕ) * (2 * 2 ^ 970) := by
    rw [grid_significand (by omega) (.inr (by omega)), show ((2045 : ℕ) : ℤ) - 1074 = ((970 : ℕ) : ℤ) + 1 by norm_num,
      zpow_add_one₀ two_ne_zero, zpow_natCast]
    ring
  have hlow : (infinityMagnitude : ℤ) - 2 = (2045 * exponentStep + (exponentStep + 4503599627370494) : ℕ) := rfl
  have hhigh : (infinityMagnitude : ℤ) - 2 + 1 = (2045 * exponentStep + (exponentStep + 4503599627370495) : ℕ) := rfl
  have hpow : (2 : ℚ) ^ 1024 = 2 ^ 54 * 2 ^ 970 := by rw [← pow_add]
  rw [middle, hhigh, hlow, hgrid _ (by decide), hgrid _ (by decide), exponentStep_eq, hpow]
  push_cast
  ring

theorem abs_apply_one_mul (s : Sign) (r : ℚ) : |(s.apply 1 : ℚ) * r| = |r| := by
  cases s <;> simp [Sign.apply]

theorem Estimable.distance_le (h : Estimable start step stop) :
    distance start step stop ≤ middle (infinityMagnitude - 2) := by
  rw [middle_eq]
  refine le_trans (le_abs_self _) ?_
  rw [distance, abs_apply_one_mul]
  exact h.span

theorem Estimable.long (h : Estimable start step stop) (h0 : rank step ≠ 0) :
    3 * (exactSteps start step stop + 1) * least ≤ grid (magnitude step) := by
  rw [← abs_of_pos (grid_magnitude_pos h0), ← apply_mul_value, abs_apply_one_mul]
  exact h.step

/-- Steps that are not subnormal are long enough. -/
theorem Estimable.of_normal (hspan : |Binary64.value stop - Binary64.value start| ≤ 2 ^ 1024 - 3 * 2 ^ 970)
    (hstep : 2 ^ (-1022 : ℤ) ≤ |Binary64.value step|) (hle : exactSteps start step stop ≤ 2 ^ 50) :
    Estimable start step stop := by
  refine ⟨hspan, le_trans ?_ hstep⟩
  have hscale : (2 : ℚ) ^ (-1022 : ℤ) = 2 ^ 52 * 2 ^ (-1074 : ℤ) := by
    rw [← zpow_natCast, ← zpow_add₀ two_ne_zero]
    norm_num
  rw [hscale]
  refine mul_le_mul_of_nonneg_right ?_ least_pos.le
  linarith

/-- Order along the direction of the step is that of the numbers, or its opposite. -/
theorem along_le_iff (hx : x ≠ nan) (hy : y ≠ nan) (hstep : step ≠ nan) (h0 : rank step ≠ 0) :
    along (signOf step) x ≤ along (signOf step) y ↔ if 0 < step then x ≤ y else y ≤ x := by
  have hdir : 0 < step ↔ 0 < rank step := by rw [lt_iff_rank (by decide) hstep, rank_zero]
  rw [along, along]
  rcases Int.lt_or_gt_of_ne h0 with hneg | hpos
  · rw [if_neg (mt hdir.mp (by omega)), apply_signOf_of_neg hneg, apply_signOf_of_neg hneg, neg_le_neg_iff,
      le_iff_rank hy hx]
  · rw [if_pos (hdir.mpr hpos), apply_signOf_of_pos hpos, apply_signOf_of_pos hpos, le_iff_rank hx hy]

/-- As many elements as the upper estimate leaves room for are at most two more than there are steps. -/
theorem room_le_of_value_le {most : Float} {q : ℚ} (hq : 0 ≤ q) (hle : q ≤ 2 ^ 50) (hfinite : most.isFinite = true)
    (h : Binary64.value most ≤ q + 7 / 8) :
    room most < 2 * exponentStep ∧ (room most : ℤ) ≤ ⌊q⌋ + 2 ∧ (room most : ℚ) ≤ q + 15 / 8 := by
  have hbelow : (⌊Binary64.value most⌋₊ : ℚ) ≤ q + 7 / 8 := by
    rcases le_total 0 (Binary64.value most) with hnonneg | hneg
    · exact (Nat.floor_le hnonneg).trans h
    · rw [Nat.floor_of_nonpos hneg, Nat.cast_zero]
      linarith
  have hsmall : ⌊Binary64.value most⌋₊ + 1 < 2 * exponentStep :=
    lt_two_mul_exponentStep (by push_cast; linarith) hle
  have hroom := room_le hsmall (.inr (.inr ⟨hfinite, by push_cast; exact Nat.lt_floor_add_one _⟩))
  have hcount : (room most : ℚ) ≤ q + 15 / 8 := by
    have hcast : (room most : ℚ) ≤ ⌊Binary64.value most⌋₊ + 1 := by exact_mod_cast hroom
    linarith
  have hint : ((room most : ℤ) : ℚ) < ((⌊q⌋ + 3 : ℤ) : ℚ) := by
    have hfloor := Int.lt_floor_add_one q
    push_cast
    linarith
  have hlt : (room most : ℤ) < ⌊q⌋ + 3 := by exact_mod_cast hint
  exact ⟨hroom.trans_lt hsmall, by omega, hcount⟩

/-- Besides the start a range has an element for each whole step of the exact span. There is at most one
    more, and all elements run the way of the step, as long as one neighbour of the span and of the step is a
    small change. -/
theorem ofStep_count_and_order (hstart : start.isFinite = true) (hstep : step.isFinite = true)
    (hstop : stop.isFinite = true) (hzero : (step == 0) = false) (hle : exactSteps start step stop ≤ 2 ^ 50) :
    ∃ r, ofStep start step stop = .ok r ∧ r.start = start ∧ r.step = step ∧ r.stop = stop ∧
      max 0 (⌊exactSteps start step stop⌋ + 1) ≤ (r.count : ℤ) ∧
      (exactSteps start step stop < 0 ∨ Estimable start step stop →
        (r.count : ℤ) ≤ max 0 (⌊exactSteps start step stop⌋ + 2) ∧
        ∀ i, i + 1 < r.count →
          if 0 < step then r.value i ≤ r.value (i + 1) else r.value (i + 1) ≤ r.value i) := by
  have hnan := ne_nan_of_magnitude_lt (isFinite_iff.mp hstep)
  have h0 : rank step ≠ 0 := fun h => Bool.false_ne_true (hzero.symm.trans ((beq_zero_iff_rank hnan).mpr h))
  obtain ⟨r, hr, rfl, rfl, rfl, hcount⟩ := ofStep_eq hzero hstart hstep hstop
  refine ⟨r, hr, rfl, rfl, rfl, ?_, fun hcond => ?_⟩
  · rcases le_or_gt 0 (exactSteps r.start r.step r.stop) with hsteps | hneg
    · have hlower := floor_lt_room hstart hstep hstop h0 hsteps hle
      rw [← hcount] at hlower
      rw [← Int.natCast_floor_eq_floor hsteps]
      omega
    · have hfloor := Int.floor_lt.mpr (show exactSteps r.start r.step r.stop < ((0 : ℤ) : ℚ) by exact_mod_cast hneg)
      omega
  · rcases le_or_gt 0 (exactSteps r.start r.step r.stop) with hsteps | hneg
    · have hgood := hcond.resolve_left (not_lt.mpr hsteps)
      have hdistance := hgood.distance_le
      obtain ⟨hfinite, hmost⟩ := mostSteps_le hstart hstep hstop h0 hsteps hle hdistance (hgood.long h0)
      obtain ⟨hsmall, hupper, hroom⟩ := room_le_of_value_le hsteps hle hfinite hmost
      rw [← hcount] at hsmall hupper hroom
      refine ⟨by omega, fun i hi => ?_⟩
      rw [← along_le_iff (value_ne_nan hstart hstep hstop hsmall (by omega))
        (value_ne_nan hstart hstep hstop hsmall hi) hnan h0]
      exact along_value_le hstart hstep hstop h0 hle hdistance hroom hi
    · have hroom := room_le_of_neg hstart hstep hstop h0 hneg
      rw [← hcount] at hroom
      have hfloor := Int.floor_lt.mpr (show exactSteps r.start r.step r.stop < ((0 : ℤ) : ℚ) by exact_mod_cast hneg)
      exact ⟨by omega, fun i hi => by omega⟩

theorem exactSteps_zero_ten : exactSteps 0 1 10 = 10 := by
  have hten : Binary64.value 10 = 10 := (value_ofNat (n := 10) (by decide)).2.trans (by norm_num)
  rw [exactSteps, hten, value_zero, value_one]
  norm_num

theorem ofStep_zero_ten : Estimable 0 1 10 ∧ ∃ r, ofStep 0 1 10 = .ok r ∧ 11 ≤ r.count ∧ r.count ≤ 12 ∧
    ∀ i, i + 1 < r.count → r.value i ≤ r.value (i + 1) := by
  have hten : Binary64.value 10 = 10 := (value_ofNat (n := 10) (by decide)).2.trans (by norm_num)
  have hle : exactSteps 0 1 10 ≤ 2 ^ 50 := by
    rw [exactSteps_zero_ten]
    norm_num
  have hgood : Estimable 0 1 10 := by
    refine .of_normal ?_ ?_ hle
    · have hpow : (2 : ℚ) ^ 1024 = 2 ^ 54 * 2 ^ 970 := by rw [← pow_add]
      have hone : (1 : ℚ) ≤ 2 ^ 970 := one_le_pow₀ one_le_two
      rw [hten, value_zero, sub_zero, abs_of_pos (by norm_num), hpow]
      generalize (2 : ℚ) ^ 970 = z at hone
      linarith
    · rw [value_one, abs_one]
      exact zpow_le_one_of_nonpos₀ one_le_two (by norm_num)
  obtain ⟨r, hr, -, -, -, hlower, hrest⟩ :=
    ofStep_count_and_order (by decide) (by decide) (by decide) (by decide) hle
  obtain ⟨hupper, horder⟩ := hrest (.inr hgood)
  rw [exactSteps_zero_ten] at hlower hupper
  have hfloor : ⌊(10 : ℚ)⌋ = 10 := Int.floor_ofNat 10
  rw [hfloor] at hlower hupper
  exact ⟨hgood, r, hr, by omega, by omega, fun i hi => (if_pos (by decide)).mp (horder i hi)⟩

/-- A step of a few least numbers loses half of itself with one neighbour, so that from 0 to 4 of them in
    steps of 2 there are six elements instead of three, and they turn back. From the least finite number to
    the greatest in two steps the span is infinite, and so would be the number of elements. -/
theorem ofStep_not_estimable :
    (exactSteps 0 (.ofBits 2) (.ofBits 4) = 2 ∧
      ofStep 0 (.ofBits 2) (.ofBits 4) = .ok ⟨0, .ofBits 2, .ofBits 4, 6, true⟩ ∧
      Range.value ⟨0, .ofBits 2, .ofBits 4, 6, true⟩ 3 < Range.value ⟨0, .ofBits 2, .ofBits 4, 6, true⟩ 2) ∧
    exactSteps (-.ofBits 0x7FEFFFFFFFFFFFFF) (.ofBits 0x7FEFFFFFFFFFFFFF) (.ofBits 0x7FEFFFFFFFFFFFFF) = 2 ∧
      ofStep (-.ofBits 0x7FEFFFFFFFFFFFFF) (.ofBits 0x7FEFFFFFFFFFFFFF) (.ofBits 0x7FEFFFFFFFFFFFFF) =
        .ok ⟨-.ofBits 0x7FEFFFFFFFFFFFFF, .ofBits 0x7FEFFFFFFFFFFFFF, .ofBits 0x7FEFFFFFFFFFFFFF,
          18446744073709551615, true⟩ := by
  have hvalue {x : Float} {n : ℤ} (hrank : rank x = n) (hn : n.natAbs ≤ 2 * exponentStep) :
      Binary64.value x = n * least := by
    rw [value_eq_grid, hrank, grid_of_natAbs_le hn]
  have hleast := least_pos
  have htop : Binary64.value (.ofBits 0x7FEFFFFFFFFFFFFF) ≠ 0 := by
    have hrank : 0 < rank (.ofBits 0x7FEFFFFFFFFFFFFF) := by decide
    rw [value_eq_grid]
    exact (grid_pos_iff.mpr hrank).ne'
  refine ⟨⟨?_, by decide +kernel, by decide +kernel⟩, ?_, by decide +kernel⟩
  · rw [exactSteps, value_zero, hvalue (n := 4) (by decide) (by decide), hvalue (n := 2) (by decide) (by decide), div_eq_iff (by
      push_cast
      positivity)]
    push_cast
    ring
  · rw [exactSteps, value_neg (by decide)]
    field_simp
    norm_num

end NumericArrays.Range
