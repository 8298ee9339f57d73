import NumericArrays.Proofs.Range.Count

/-! The elements of a range run in one direction, also where the elements counted from the start meet those
    counted back from the stop. -/
namespace NumericArrays.Range

open Binary64
open Float.Model.UnpackedFloat (Sign)

variable {start step stop x y y' : Float} {i j : ℕ}

/-! ### Operations along a direction -/

theorem along_add_mono (s : Sign) (hx : x.isFinite = true) (hy : y ≠ nan) (hy' : y' ≠ nan)
    (h : along s y ≤ along s y') : along s (x + y) ≤ along s (x + y') := by
  unfold along at *
  cases s with
  | positive => exact rank_add_mono hx hy hy' h
  | negative => exact neg_le_neg (rank_add_mono hx hy' hy (neg_le_neg_iff.mp h))

theorem along_sub_anti (s : Sign) (hx : x.isFinite = true) (hy : y ≠ nan) (hy' : y' ≠ nan)
    (h : along s y ≤ along s y') : along s (x - y') ≤ along s (x - y) := by
  unfold along at *
  cases s with
  | positive => exact rank_sub_anti hx hy hy' h
  | negative => exact neg_le_neg (rank_sub_anti hx hy' hy (neg_le_neg_iff.mp h))

/-! ### Multiples of the step -/

section Finite

variable (hstart : start.isFinite = true) (hstep : step.isFinite = true) (hstop : stop.isFinite = true)
  (h0 : rank step ≠ 0)

include hstep in
theorem rounds_multiple (hi : i < 2 * exponentStep) :
    Rounds (i * Binary64.value step) (Float.ofNat i * step) := by
  obtain ⟨hfinite, hvalue⟩ := value_ofNat hi
  exact hvalue ▸ rounds_mul hfinite hstep

include hstep in
theorem exists_multiple (hi : i < 2 * exponentStep) :
    ∃ k, Nearest (i * grid (magnitude step)) k ∧ along (signOf step) (Float.ofNat i * step) = clamp k := by
  have hnearest := exists_nearest_along (rounds_multiple hstep hi) (signOf step)
  rwa [mul_left_comm, apply_mul_value] at hnearest

include hstep in
theorem along_multiple_mono (hij : i ≤ j) (hj : j < 2 * exponentStep) :
    along (signOf step) (Float.ofNat i * step) ≤ along (signOf step) (Float.ofNat j * step) := by
  obtain ⟨k, hk, hik⟩ := exists_multiple hstep (show i < 2 * exponentStep by omega)
  obtain ⟨l, hl, hjl⟩ := exists_multiple hstep hj
  rw [hik, hjl]
  refine clamp_mono (hk.mono hl (mul_le_mul_of_nonneg_right (by exact_mod_cast hij) ?_))
  exact grid_nonneg_iff.mpr (Int.natCast_nonneg _)

include hstep in
/-- A multiple of the step within a finite span is finite, and rounding makes it larger by half a unit in the
    last place at most. -/
theorem multiple_le (hi : i < 2 * exponentStep)
    (hle : i * grid (magnitude step) ≤ middle (infinityMagnitude - 2)) :
    (Float.ofNat i * step).isFinite = true ∧
      grid (along (signOf step) (Float.ofNat i * step)) ≤ i * grid (magnitude step) * (1 + ulp / 2) := by
  obtain ⟨k, hk, halong⟩ := exists_multiple hstep hi
  have hinf := infinityMagnitude_eq
  have hnonneg : 0 ≤ (i : ℚ) * grid (magnitude step) :=
    mul_nonneg (Nat.cast_nonneg i) (grid_nonneg_iff.mpr (Int.natCast_nonneg _))
  have hk0 := hk.nonneg hnonneg
  have hk2 := hk.mono (nearest_middle ⟨4609434218613702655, by omega⟩) hle
  have hclamp : clamp k = k := by
    unfold clamp
    omega
  rw [hclamp] at halong
  obtain ⟨n, hn⟩ := exists_grid_eq_mul (magnitude step)
  have herror := (abs_le.mp (hk.abs_sub_le_of_multiple (n := i * n) (by rw [hn]; push_cast; ring))).2
  rw [abs_of_nonneg hnonneg] at herror
  rw [isFinite_iff, ← natAbs_along (signOf step), halong]
  exact ⟨by omega, by linarith⟩

include hstart hstep hstop h0 in
/-- Where an element counted from the start is followed by one counted back from the stop, they are in
    order: at least an eighth of a step is left for the errors of both. -/
theorem along_meet (hij : (i : ℚ) + j ≤ exactSteps start step stop - 1 / 8) (hle : exactSteps start step stop ≤ 2 ^ 50)
    (hspan : distance start step stop ≤ middle (infinityMagnitude - 2)) :
    along (signOf step) (start + Float.ofNat i * step) ≤ along (signOf step) (stop - Float.ofNat j * step) := by
  have hpos := grid_magnitude_pos h0
  have hdistance := distance_eq start stop h0
  have hi0 : (0 : ℚ) ≤ i := Nat.cast_nonneg i
  have hj0 : (0 : ℚ) ≤ j := Nat.cast_nonneg j
  have hsmall {n : ℕ} (hn : (n : ℚ) ≤ exactSteps start step stop) : n < 2 * exponentStep :=
    lt_two_mul_exponentStep (by linarith) hle
  have hwithin {n : ℕ} (hn : (n : ℚ) ≤ exactSteps start step stop) :
      n * grid (magnitude step) ≤ middle (infinityMagnitude - 2) :=
    (mul_le_mul_of_nonneg_right hn hpos.le).trans (hdistance ▸ hspan)
  obtain ⟨hifinite, hile⟩ := multiple_le hstep (hsmall (n := i) (by linarith)) (hwithin (by linarith))
  obtain ⟨hjfinite, hjle⟩ := multiple_le hstep (hsmall (n := j) (by linarith)) (hwithin (by linarith))
  obtain ⟨k, hk, hkalong⟩ := exists_nearest_along (rounds_add hstart hifinite) (signOf step)
  obtain ⟨l, hl, hlalong⟩ := exists_nearest_along (rounds_sub hstop hjfinite) (signOf step)
  rw [hkalong, hlalong]
  refine clamp_mono (hk.mono hl ?_)
  rw [mul_add, mul_sub, apply_mul_value_eq_grid _ (Float.ofNat i * step), apply_mul_value_eq_grid _ (Float.ofNat j * step)]
  have hexact : (signOf step).apply 1 * Binary64.value stop - (signOf step).apply 1 * Binary64.value start =
      exactSteps start step stop * grid (magnitude step) := by
    rw [← hdistance, distance, mul_sub]
  have htotal : ((i : ℚ) + j) * grid (magnitude step) * (1 + ulp / 2) ≤
      exactSteps start step stop * grid (magnitude step) := by
    have hscaled := mul_le_mul_of_nonneg_right hij hpos.le
    have hsteps := mul_le_mul_of_nonneg_right hle hpos.le
    rw [ulp_eq]
    linarith
  linarith

end Finite

/-! ### The whole range -/

section Elements

variable {r : Range} (hstart : r.start.isFinite = true) (hstep : r.step.isFinite = true) (hstop : r.stop.isFinite = true)
  (h0 : rank r.step ≠ 0)

include hstart hstep in
theorem forward_ne_nan (hi : i < 2 * exponentStep) : r.start + Float.ofNat i * r.step ≠ nan :=
  add_ne_nan hstart (rounds_multiple hstep hi).ne_nan

include hstep hstop in
theorem backward_ne_nan (hi : i < 2 * exponentStep) : r.stop - Float.ofNat i * r.step ≠ nan := by
  have hnan := (rounds_multiple hstep hi).ne_nan
  rw [sub_eq_add_opposite _ hnan]
  exact add_ne_nan hstop (ne_nan_iff.mpr ((magnitude_and_sign_neg hnan).1 ▸ magnitude_le hnan))

include hstart hstep hstop in
theorem value_ne_nan (hcount : r.count < 2 * exponentStep) (hi : i < r.count) : r.value i ≠ nan := by
  unfold Range.value
  split
  · exact backward_ne_nan hstep hstop (by omega)
  · exact forward_ne_nan hstart hstep (by omega)

include hstart hstep hstop h0 in
/-- Each element is followed by one that is not behind it. -/
theorem along_value_le (hle : exactSteps r.start r.step r.stop ≤ 2 ^ 50)
    (hspan : distance r.start r.step r.stop ≤ middle (infinityMagnitude - 2))
    (hcount : (r.count : ℚ) ≤ exactSteps r.start r.step r.stop + 15 / 8) (hi : i + 1 < r.count) :
    along (signOf r.step) (r.value i) ≤ along (signOf r.step) (r.value (i + 1)) := by
  have hsmall : r.count < 2 * exponentStep := lt_two_mul_exponentStep (by linarith) hle
  unfold Range.value
  by_cases hback : r.twoSided = true ∧ r.count ≤ 2 * (i + 1)
  · rw [if_pos (show (r.twoSided && decide (r.count ≤ 2 * (i + 1))) = true by simpa using hback)]
    by_cases hback' : r.count ≤ 2 * i
    · rw [if_pos (show (r.twoSided && decide (r.count ≤ 2 * i)) = true by simpa using ⟨hback.1, hback'⟩)]
      refine along_sub_anti _ hstop ?_ ?_ (along_multiple_mono hstep (by omega) (by omega))
      · exact (rounds_multiple hstep (by omega)).ne_nan
      · exact (rounds_multiple hstep (by omega)).ne_nan
    · rw [if_neg (show ¬ (r.twoSided && decide (r.count ≤ 2 * i)) = true by simp [hback'])]
      refine along_meet hstart hstep hstop h0 ?_ hle hspan
      have hsum : (i : ℚ) + (r.count - 1 - (i + 1) : ℕ) = r.count - 2 := by
        have hnat : i + (r.count - 1 - (i + 1)) + 2 = r.count := by omega
        have hcast : (i : ℚ) + (r.count - 1 - (i + 1) : ℕ) + 2 = r.count := by exact_mod_cast hnat
        linarith
      rw [hsum]
      linarith
  · have hnext : ¬ (r.twoSided && decide (r.count ≤ 2 * (i + 1))) = true := by simpa using hback
    have hthis : ¬ (r.twoSided && decide (r.count ≤ 2 * i)) = true := by
      simp only [Bool.and_eq_true, decide_eq_true_eq] at hnext ⊢
      exact fun h => hnext ⟨h.1, by omega⟩
    rw [if_neg hnext, if_neg hthis]
    refine along_add_mono _ hstart ?_ ?_ (along_multiple_mono hstep (Nat.le_succ i) (by omega))
    · exact (rounds_multiple hstep (by omega)).ne_nan
    · exact (rounds_multiple hstep (by omega)).ne_nan

end Elements

end NumericArrays.Range
