import NumericArrays.Proofs.Range.Estimate

/-! How many elements a range has: no element is missed, and at most one is added for rounding. -/
namespace NumericArrays.Range

open Binary64
open Float.Model.UnpackedFloat (Sign)

variable {start step stop : Float}

def exactSteps (start step stop : Float) : ℚ :=
  (Binary64.value stop - Binary64.value start) / Binary64.value step

/-! ### Exact quantities -/

theorem grid_magnitude_pos (h0 : rank step ≠ 0) : 0 < grid (magnitude step) := by
  rw [grid_pos_iff, ← natAbs_rank]
  omega

theorem least_le_grid_magnitude (h0 : rank step ≠ 0) : least ≤ grid (magnitude step) := by
  have hone : grid 1 = least := by
    rw [grid_of_natAbs_le (by decide), Int.cast_one, one_mul]
  rw [← hone, grid_le_grid_iff, ← natAbs_rank]
  omega

theorem distance_eq (start stop : Float) (h0 : rank step ≠ 0) :
    distance start step stop = exactSteps start step stop * grid (magnitude step) := by
  have hpos := grid_magnitude_pos h0
  have hsquare := apply_one_mul_self (signOf step)
  have hvalue : Binary64.value step ≠ 0 := by
    intro h
    rw [← apply_mul_value, h, mul_zero] at hpos
    exact hpos.false
  unfold distance exactSteps
  rw [← apply_mul_value]
  field_simp

theorem distance_nonneg (h0 : rank step ≠ 0) (hsteps : 0 ≤ exactSteps start step stop) :
    0 ≤ distance start step stop :=
  distance_eq start stop h0 ▸ mul_nonneg hsteps (grid_magnitude_pos h0).le

theorem exists_distance_eq_mul (start step stop : Float) : ∃ n : ℤ, distance start step stop = n * least := by
  obtain ⟨m, hm⟩ := exists_grid_eq_mul (rank stop)
  obtain ⟨n, hn⟩ := exists_grid_eq_mul (rank start)
  refine ⟨(signOf step).apply 1 * (m - n), ?_⟩
  unfold distance
  rw [value_eq_grid, value_eq_grid, hm, hn]
  push_cast
  ring

/-- Counts near a number of steps up to `2 ^ 50` are exact. -/
theorem lt_two_mul_exponentStep {n : ℕ} {q : ℚ} (h : (n : ℚ) ≤ q + 2) (hq : q ≤ 2 ^ 50) :
    n < 2 * exponentStep := by
  have hcast : (n : ℚ) ≤ (2 ^ 50 + 2 : ℕ) := by
    push_cast
    linarith
  have hnat : n ≤ 2 ^ 50 + 2 := by exact_mod_cast hcast
  rw [exponentStep_eq]
  omega

theorem ulp_eq : ulp = 1 / 4503599627370496 := by
  unfold ulp
  norm_num

/-- Rounding a span, which is a multiple of the least number, makes it larger by half a unit in the last place
    at most. -/
theorem grid_le_of_nearest_distance {k : ℤ} (hk : Nearest (distance start step stop) k)
    (hdist : 0 ≤ distance start step stop) : grid k ≤ distance start step stop * (1 + ulp / 2) := by
  obtain ⟨n, hn⟩ := exists_distance_eq_mul start step stop
  have herror := (abs_le.mp (hk.abs_sub_le_of_multiple hn)).2
  rw [abs_of_nonneg hdist] at herror
  linarith

/-- The step is at least as long as a unit in the last place of the span if there are at most `2 ^ 50` of
    them. -/
theorem max_le_grid_magnitude {k : ℤ} (hk : Nearest (distance start step stop) k) (h0 : rank step ≠ 0)
    (hdist : 0 ≤ distance start step stop) (hle : exactSteps start step stop ≤ 2 ^ 50) :
    max least (grid k * ulp) ≤ grid (magnitude step) := by
  refine max_le (least_le_grid_magnitude h0) ?_
  have hpos := grid_magnitude_pos h0
  have hspan := grid_le_of_nearest_distance hk hdist
  have hsteps := mul_le_mul_of_nonneg_right hle hpos.le
  rw [← distance_eq start stop h0] at hsteps
  rw [ulp_eq] at *
  linarith

/-- Going back one place loses no more than a unit in the last place. -/
theorem sub_le_grid_pred {m : ℤ} (hm : 1 ≤ m) : grid m - max least (grid m * ulp) ≤ grid (m - 1) := by
  have hgap := grid_succ_le (show 0 ≤ m - 1 by omega)
  rw [sub_add_cancel] at hgap
  have hbefore : grid (m - 1) ≤ grid m := grid_le_grid_iff.mpr (by omega)
  have hmax := max_le_max_left least (mul_le_mul_of_nonneg_right hbefore ulp_pos.le)
  linarith

/-- The number after a rounded span. `Y` bounds the distance of neighbours near zero. -/
theorem grid_succ_le_of_nearest_distance {k : ℤ} {Y : ℚ} (hk : Nearest (distance start step stop) k)
    (hdist : 0 ≤ distance start step stop) (hY : least ≤ Y) :
    grid (k + 1) ≤ distance start step stop * (1 + ulp / 2) * (1 + ulp) + Y := by
  have hk0 := hk.nonneg hdist
  have hunit : 0 ≤ grid k * ulp := mul_nonneg (grid_nonneg_iff.mpr hk0) ulp_pos.le
  have hY0 : 0 ≤ Y := least_pos.le.trans hY
  have hmax : max least (grid k * ulp) ≤ Y + grid k * ulp := max_le (by linarith) (by linarith)
  calc grid (k + 1) ≤ grid k + max least (grid k * ulp) := grid_succ_le hk0
    _ ≤ grid k * (1 + ulp) + Y := by linarith
    _ ≤ distance start step stop * (1 + ulp / 2) * (1 + ulp) + Y := by
      have hspan := grid_le_of_nearest_distance hk hdist
      have hfactor : 0 ≤ 1 + ulp := by linarith [ulp_pos]
      exact add_le_add_left (mul_le_mul_of_nonneg_right hspan hfactor) Y

/-- A number at or before a finite place is finite or the negative infinity. -/
theorem value_le_of_rank_le {x : Float} {j : ℤ} (hx : x ≠ nan) (h : rank x ≤ j) (hj : j < infinityMagnitude) :
    rank x = -infinityMagnitude ∨ x.isFinite = true ∧ Binary64.value x ≤ grid j := by
  rcases (magnitude_le hx).lt_or_eq with hlt | heq
  · rw [value_eq_grid, grid_le_grid_iff]
    exact .inr ⟨isFinite_iff.mpr hlt, h⟩
  · rw [← natAbs_rank] at heq
    exact .inl (by omega)

/-- A number at or after a finite place is finite or infinity. -/
theorem le_value_of_le_rank {x : Float} {j : ℤ} (hx : x ≠ nan) (h : j ≤ rank x) (hj : -infinityMagnitude < j) :
    rank x = infinityMagnitude ∨ x.isFinite = true ∧ grid j ≤ Binary64.value x := by
  rcases (magnitude_le hx).lt_or_eq with hlt | heq
  · rw [value_eq_grid, grid_le_grid_iff]
    exact .inr ⟨isFinite_iff.mpr hlt, h⟩
  · rw [← natAbs_rank] at heq
    exact .inl (by omega)

/-- A quotient in the direction of the range that is `n` or more leaves room for `n + 1` elements. -/
theorem lt_room_of_ratio {p d : ℤ} {most : Float} {n : ℕ} (h : Ratio p d most) (hp : 0 < p)
    (hn : n + 1 < 2 * exponentStep) (hle : p < infinityMagnitude → 0 < d → n * grid d ≤ grid p) :
    n < room most := by
  refine lt_room hn ?_
  cases h with
  | undefined hp | low hp => omega
  | high _ _ h => exact .inl h
  | rounded habs hd h =>
    have hn' : n < 2 * exponentStep := by omega
    have hquot : (n : ℚ) ≤ grid p / grid d := (le_div_iff₀ (grid_pos_iff.mpr hd)).mpr (hle (by omega) hd)
    have hnonneg : 0 ≤ rank (Float.ofNat n) := by
      rw [← grid_nonneg_iff, grid_rank_ofNat hn']
      exact Nat.cast_nonneg n
    have hrank := (rounds_ofNat hn').mono h (by exact_mod_cast hquot)
    have hvalue := le_value_of_le_rank h.ne_nan hrank (by rw [infinityMagnitude_eq]; omega)
    rwa [grid_rank_ofNat hn'] at hvalue

/-- A quotient against the direction of the range, at most the number `z`, leaves room for as many elements
    as `z` does. -/
theorem room_le_of_ratio {p d : ℤ} {most z : Float} {n : ℕ} (h : Ratio p d most) (hp : p ≤ 0)
    (hz : z.isFinite = true) (hle : 0 < d → grid p ≤ Binary64.value z * grid d) (hlt : Binary64.value z < n)
    (hn : n < 2 * exponentStep) : room most ≤ n := by
  refine room_le hn ?_
  cases h with
  | undefined hp hd h => exact .inl h
  | high hpos => omega
  | low hp hd h => exact .inr (.inl h)
  | rounded habs hd h =>
    have hfinite := isFinite_iff.mp hz
    have hquot := (div_le_iff₀ (grid_pos_iff.mpr hd)).mpr (hle hd)
    have hrank := h.mono (Rounds.of_value (ne_nan_of_magnitude_lt hfinite)) hquot
    rw [← natAbs_rank] at hfinite
    refine .inr ((value_le_of_rank_le h.ne_nan hrank (by omega)).imp_right fun ⟨hmost, hvalue⟩ => ⟨hmost, ?_⟩)
    rw [← value_eq_grid] at hvalue
    exact hvalue.trans_lt hlt

section Finite

variable (hstart : start.isFinite = true) (hstep : step.isFinite = true) (hstop : stop.isFinite = true)
  (h0 : rank step ≠ 0)

include hstart hstop in
theorem exists_span (step : Float) :
    ∃ k, Nearest (distance start step stop) k ∧ along (signOf step) (stop - start) = clamp k :=
  exists_nearest_along (rounds_sub hstop hstart) _

include hstart hstep hstop in
theorem reach_le : reach start step stop ≤ along (signOf step) (stop - start) + 1 :=
  along_adjacent_le _ (sub_ne_nan hstart hstop) (span_add_step_ne_nan hstart hstep hstop)

include hstart hstep hstop in
/-- An infinite span is not left. -/
theorem reach_of_infinity (h : along (signOf step) (stop - start) = infinityMagnitude) :
    reach start step stop = infinityMagnitude := by
  have hspan := sub_ne_nan hstart hstop
  have hcomm : stop - start + step = step + (stop - start) := commutative_add.comm _ _
  have hmagnitude : magnitude (stop - start) = infinityMagnitude := by
    rw [← natAbs_along (signOf step), h, Int.natAbs_natCast]
  obtain ⟨hnan, hrank⟩ := rank_add_infinity hstep hmagnitude
  unfold reach
  rw [hcomm, adjacent_of_rank_eq hspan hnan hrank.symm, along, hrank]
  exact h

include hstart hstep hstop h0 in
/-- The number after a finite span is one place further: the step is large enough for that if there are at
    most `2 ^ 50` steps. -/
theorem reach_of_finite {k : ℤ} (hk : Nearest (distance start step stop) k)
    (halong : along (signOf step) (stop - start) = clamp k) (hlt : k < infinityMagnitude)
    (hdist : 0 ≤ distance start step stop) (hle : exactSteps start step stop ≤ 2 ^ 50) :
    reach start step stop = k + 1 := by
  have hspan := sub_ne_nan hstart hstop
  have hk0 := hk.nonneg hdist
  have hclamp : clamp k = k := by
    unfold clamp
    omega
  rw [hclamp] at halong
  have hfinite : (stop - start).isFinite = true := by
    rw [isFinite_iff, ← natAbs_along (signOf step)]
    omega
  obtain ⟨j, hj, hjalong⟩ := exists_nearest_along (rounds_add hfinite hstep) (signOf step)
  rw [mul_add, apply_mul_value_eq_grid, apply_mul_value, halong] at hj
  have hgap : grid (k + 1) ≤ grid k + grid (magnitude step) :=
    (grid_succ_le hk0).trans (add_le_add_right (max_le_grid_magnitude hk h0 hdist hle) _)
  have hjk := hj.le_of_grid_le hgap
  have hnext : along (signOf step) (stop - start) < along (signOf step) (stop - start + step) := by
    rw [halong, hjalong]
    unfold clamp
    omega
  rw [reach, along_adjacent_of_lt _ hspan (span_add_step_ne_nan hstart hstep hstop) hnext, halong]

include hstart hstep hstop h0 in
/-- The number after the span is not before the stop. -/
theorem distance_le_reach (hdist : 0 ≤ distance start step stop) (hle : exactSteps start step stop ≤ 2 ^ 50) :
    0 < reach start step stop ∧
      (reach start step stop < infinityMagnitude → distance start step stop ≤ grid (reach start step stop)) := by
  obtain ⟨k, hk, halong⟩ := exists_span hstart hstop step
  have hk0 := hk.nonneg hdist
  rcases lt_or_ge k infinityMagnitude with hlt | hge
  · rw [reach_of_finite hstart hstep hstop h0 hk halong hlt hdist hle]
    exact ⟨by omega, fun _ => hk.le_middle.trans (middle_lt_grid k).le⟩
  · have hclamp : clamp k = infinityMagnitude := by
      unfold clamp
      omega
    rw [reach_of_infinity hstart hstep hstop (halong.trans hclamp), infinityMagnitude_eq]
    exact ⟨by norm_num, fun h => absurd h (lt_irrefl _)⟩

include hstart hstep hstop h0 in
/-- With the exact number of steps at hand, no element is missed. -/
theorem floor_lt_room (hsteps : 0 ≤ exactSteps start step stop) (hle : exactSteps start step stop ≤ 2 ^ 50) :
    ⌊exactSteps start step stop⌋₊ < room (mostSteps (stop - start) step) := by
  have hfloor : ⌊exactSteps start step stop⌋₊ ≤ 2 ^ 50 := Nat.floor_le_of_le (by exact_mod_cast hle)
  obtain ⟨hpos, hreach⟩ := distance_le_reach hstart hstep hstop h0 (distance_nonneg h0 hsteps) hle
  refine lt_room_of_ratio (ratio_mostSteps hstart hstep hstop h0) hpos ?_ fun hlt hd => ?_
  · rw [exponentStep_eq]
    omega
  calc (⌊exactSteps start step stop⌋₊ : ℚ) * grid (magnitude step - 1)
      ≤ exactSteps start step stop * grid (magnitude step) :=
        mul_le_mul (Nat.floor_le hsteps) (grid_le_grid_iff.mpr (by omega)) (grid_pos_iff.mpr hd).le hsteps
    _ = distance start step stop := (distance_eq start stop h0).symm
    _ ≤ grid (reach start step stop) := hreach hlt

include hstart hstep hstop h0 in
/-- Where the stop is more than a step before the start there are no elements: the quotient is at most -1. -/
theorem room_eq_zero_of_lt (hsteps : exactSteps start step stop < -1) :
    room (mostSteps (stop - start) step) = 0 := by
  have hpos := grid_magnitude_pos h0
  have hinf := infinityMagnitude_eq
  have hmagnitude := isFinite_iff.mp hstep
  have hnonzero : 0 < magnitude step := by
    rw [← natAbs_rank]
    omega
  obtain ⟨k, hk, halong⟩ := exists_span hstart hstop step
  have hk1 : k ≤ -magnitude step := by
    refine hk.le_of_le_grid ?_
    rw [grid_neg, distance_eq start stop h0]
    nlinarith
  have hreach : reach start step stop ≤ -((magnitude step : ℤ) - 1) := by
    have hreach := reach_le hstart hstep hstop
    rw [halong] at hreach
    unfold clamp at hreach
    omega
  have hone : Binary64.value (-1) = -1 := by rw [value_neg (by decide), value_one]
  refine Nat.le_zero.mp (room_le_of_ratio (ratio_mostSteps hstart hstep hstop h0) (z := -1) (by omega)
    (by decide) (fun _ => ?_) ?_ (by decide))
  · rw [hone, neg_one_mul, ← grid_neg, grid_le_grid_iff]
    exact hreach
  · rw [hone]
    norm_num

include hstart hstep hstop h0 in
/-- Where the stop is before the start there is at most one element: the quotient is not positive. -/
theorem room_le_one_of_neg (hsteps : exactSteps start step stop < 0) :
    room (mostSteps (stop - start) step) ≤ 1 := by
  have hleast := least_pos
  have hinf := infinityMagnitude_eq
  obtain ⟨n, hn⟩ := exists_distance_eq_mul start step stop
  have hdist : distance start step stop < 0 :=
    distance_eq start stop h0 ▸ mul_neg_of_neg_of_pos hsteps (grid_magnitude_pos h0)
  have hn1 : n ≤ -1 := by
    by_contra hge
    have hcast : (0 : ℚ) ≤ n := by exact_mod_cast (show 0 ≤ n by omega)
    exact absurd (hn ▸ hdist) (not_lt.mpr (mul_nonneg hcast hleast.le))
  obtain ⟨k, hk, halong⟩ := exists_span hstart hstop step
  have hk1 : k ≤ -1 := by
    refine hk.le_of_le_grid ?_
    rw [hn, grid_of_natAbs_le (by decide)]
    exact mul_le_mul_of_nonneg_right (by exact_mod_cast hn1) hleast.le
  have hreach : reach start step stop ≤ 0 := by
    have hreach := reach_le hstart hstep hstop
    rw [halong] at hreach
    unfold clamp at hreach
    omega
  refine room_le_of_ratio (z := 0) (n := 1) (ratio_mostSteps hstart hstep hstop h0) hreach (by decide)
    (fun _ => ?_) ?_ (by decide)
  · rw [value_zero, zero_mul, ← grid_zero, grid_le_grid_iff]
    exact hreach
  · rw [value_zero]
    norm_num

include hstart hstep hstop h0 in
/-- Against the direction of the range there is no element but the first. -/
theorem room_le_of_neg (hsteps : exactSteps start step stop < 0) :
    room (mostSteps (stop - start) step) ≤ (⌊exactSteps start step stop⌋ + 2).toNat := by
  by_cases hfew : exactSteps start step stop < -1
  · rw [room_eq_zero_of_lt hstart hstep hstop h0 hfew]
    exact Nat.zero_le _
  · have hfloor : -1 ≤ ⌊exactSteps start step stop⌋ := Int.le_floor.mpr (by push_cast; linarith)
    have hroom := room_le_one_of_neg hstart hstep hstop h0 hsteps
    omega

/-- The relative errors of the span, its neighbour, the neighbour of the step and the quotient add up to less
    than one step. `Y` bounds the distances of neighbours below the step `G`. -/
theorem quotient_le {q G Y P Q : ℚ} (hq0 : 0 ≤ q) (hq : q ≤ 2 ^ 50) (hY0 : 0 ≤ Y)
    (hY : 3 * (q + 1) * Y ≤ G) (hP : P ≤ q * G * (1 + ulp / 2) * (1 + ulp) + Y) (hQ : G - Y ≤ Q) :
    P * (1 + ulp / 2) ≤ (q + 7 / 8 - ulp) * Q := by
  have hqY := mul_nonneg hq0 hY0
  have hG0 : 0 ≤ G := by linarith
  have hqG := mul_nonneg hq0 hG0
  have hscale : (0 : ℚ) ≤ q + 7 / 8 - ulp := by
    rw [ulp_eq]
    linarith
  refine le_trans ?_ (mul_le_mul_of_nonneg_left hQ hscale)
  rw [ulp_eq] at *
  -- with few steps the distances count, with many the unit in the last place does
  rcases le_or_gt q (2 ^ 48) with hfew | hmany
  · have hA := mul_le_mul_of_nonneg_right hfew hG0
    linarith
  · have hA := mul_le_mul_of_nonneg_right hq hG0
    have hB := mul_le_mul_of_nonneg_right hmany.le hY0
    linarith

/-- A quotient that is less than `q + 7 / 8` by more than its own error is so when rounded, too. -/
theorem value_le_of_rounds {r q : ℚ} {z : Float} (h : Rounds r z) (hr : 0 ≤ r) (hq : q ≤ 2 ^ 50)
    (hle : r * (1 + ulp / 2) ≤ q + 7 / 8 - ulp) : z.isFinite = true ∧ Binary64.value z ≤ q + 7 / 8 := by
  have hscaled : 0 ≤ r * ulp := mul_nonneg hr ulp_pos.le
  have hfinite := h.isFinite_of_le (n := 2 ^ 51) hr (by rw [exponentStep_eq]; norm_num) (by
    push_cast
    linarith [ulp_pos])
  have herror := (abs_le.mp (h.nearest_rank hfinite).abs_sub_le).2
  rw [← value_eq_grid, abs_of_nonneg hr] at herror
  have hmax : max least (r * ulp) ≤ least + r * ulp := max_le (by linarith) (by linarith [least_pos])
  have hsmall : least ≤ ulp := zpow_le_zpow_right₀ one_le_two (by norm_num)
  exact ⟨hfinite, by linarith [ulp_pos]⟩

include hstart hstep hstop h0 in
/-- The upper estimate is less than one step off, if neither the span nor its neighbour overflows and the
    neighbour of the step is a good approximation. -/
theorem mostSteps_le (hsteps : 0 ≤ exactSteps start step stop) (hle : exactSteps start step stop ≤ 2 ^ 50)
    (hspan : distance start step stop ≤ middle (infinityMagnitude - 2))
    (hlong : 3 * (exactSteps start step stop + 1) * least ≤ grid (magnitude step)) :
    (mostSteps (stop - start) step).isFinite = true ∧
      Binary64.value (mostSteps (stop - start) step) ≤ exactSteps start step stop + 7 / 8 := by
  have hpos := grid_magnitude_pos h0
  have hdist := distance_nonneg h0 hsteps
  obtain ⟨k, hk, halong⟩ := exists_span hstart hstop step
  have hinf := infinityMagnitude_eq
  have hk2 : k ≤ infinityMagnitude - 2 :=
    hk.mono (nearest_middle ⟨4609434218613702655, by omega⟩) hspan
  have hk0 := hk.nonneg hdist
  have hreach := reach_of_finite hstart hstep hstop h0 hk halong (by omega) hdist hle
  have hmagnitude : 1 ≤ (magnitude step : ℤ) := by
    rw [← natAbs_rank]
    omega
  -- neighbours of the step are at most `Y` apart
  obtain ⟨Y, hY⟩ : ∃ Y, Y = max least (grid (magnitude step) * ulp) := ⟨_, rfl⟩
  have hleast : least ≤ Y := hY ▸ le_max_left _ _
  have hY0 : 0 ≤ Y := least_pos.le.trans hleast
  have hYsmall : 3 * (exactSteps start step stop + 1) * Y ≤ grid (magnitude step) := by
    rw [hY, mul_max_of_nonneg _ _ (by linarith)]
    refine max_le hlong ?_
    have hunits : 3 * (exactSteps start step stop + 1) * ulp ≤ 1 := by
      rw [ulp_eq]
      linarith
    have hscaled := mul_le_mul_of_nonneg_right hunits hpos.le
    linarith
  have hP := grid_succ_le_of_nearest_distance hk hdist hleast
  rw [distance_eq start stop h0] at hP
  have hQ := hY ▸ sub_le_grid_pred hmagnitude
  have hquot := quotient_le hsteps hle hY0 hYsmall hP hQ
  have hQpos : 0 < grid (magnitude step - 1) := by
    have hqY := mul_nonneg hsteps hY0
    linarith
  cases ratio_mostSteps hstart hstep hstop h0 with
  | undefined hp | low hp => omega
  | high hp hd =>
    rw [grid_pos_iff] at hQpos
    omega
  | rounded hp hd h =>
    rw [hreach] at h
    refine value_le_of_rounds h (div_nonneg (grid_nonneg_iff.mpr (by omega)) hQpos.le) hle ?_
    rw [div_mul_eq_mul_div, div_le_iff₀ hQpos]
    exact hquot

end Finite

end NumericArrays.Range
