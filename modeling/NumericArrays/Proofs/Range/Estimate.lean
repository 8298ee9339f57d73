import NumericArrays.Range
import NumericArrays.Proofs.Binary64.Integral

/-! From a span and a step to a number of elements: the neighbours that the estimate of the steps is taken
    from, their quotient, and the number of elements an estimate leaves room for. -/
namespace NumericArrays.Range

open Binary64
open Float.Model.UnpackedFloat (Sign)

variable {x y start step stop most : Float} {n : ℕ}

/-! ### Elements for an estimate of the steps -/

/-- Number of elements if there are at most so many steps. -/
def room (most : Float) : ℕ :=
  let count := floor most + 1
  if 0 < count then count.toUInt64.toNat else 0

theorem ofStep_eq (hstep : (step == 0) = false) (hstart : start.isFinite = true) (hfinite : step.isFinite = true)
    (hstop : stop.isFinite = true) :
    ∃ r, ofStep start step stop = .ok r ∧ r.start = start ∧ r.step = step ∧ r.stop = stop ∧
      r.count = room (mostSteps (stop - start) step) := by
  unfold ofStep
  rw [hstep, hstart, hfinite, hstop]
  exact ⟨_, rfl, rfl, rfl, rfl, rfl⟩

theorem floor_add_one (h : most.isFinite = true) :
    Rounds ((⌊Binary64.value most⌋ + 1 : ℤ) : ℚ) (floor most + 1) := by
  obtain ⟨hfinite, hvalue⟩ := value_floor h
  have hsum := rounds_add hfinite (show (1 : Float).isFinite = true by decide)
  rw [hvalue, value_one] at hsum
  exact_mod_cast hsum

theorem floor_add_one_of_infinity (h : magnitude most = infinityMagnitude) :
    floor most + 1 ≠ nan ∧ rank (floor most + 1) = rank most := by
  have hcomm : most + 1 = 1 + most := commutative_add.comm most 1
  rw [floor_infinity h, hcomm]
  exact rank_add_infinity (by decide) h

theorem grid_rank_ofNat (hn : n < 2 * exponentStep) : grid (rank (Float.ofNat n)) = n := by
  rw [← value_eq_grid, (value_ofNat hn).2]

theorem rounds_ofNat (hn : n < 2 * exponentStep) : Rounds ((n : ℤ) : ℚ) (Float.ofNat n) := by
  obtain ⟨hfinite, hvalue⟩ := value_ofNat hn
  have hself := Rounds.of_value (ne_nan_of_magnitude_lt (isFinite_iff.mp hfinite))
  rwa [hvalue, ← Int.cast_natCast] at hself

theorem room_of_rank_pos (hnan : floor most + 1 ≠ nan) (h : 0 < rank (floor most + 1)) :
    room most = (floor most + 1).toUInt64.toNat :=
  if_pos ((lt_iff_rank (by decide) hnan).mpr (rank_zero ▸ h))

theorem room_of_rank_nonpos (hnan : floor most + 1 ≠ nan) (h : rank (floor most + 1) ≤ 0) : room most = 0 :=
  if_neg (by rw [lt_iff_rank (by decide) hnan, rank_zero]; omega)

/-- An estimate of `n` steps or more leaves room for `n + 1` elements. -/
theorem lt_room (hn : n + 1 < 2 * exponentStep)
    (h : rank most = infinityMagnitude ∨ most.isFinite = true ∧ n ≤ Binary64.value most) : n < room most := by
  rw [exponentStep_eq] at hn
  have hinf : (infinityMagnitude : ℤ) = 9218868437227405312 := rfl
  rcases h with hrank | ⟨hfinite, hle⟩
  · obtain ⟨hnan, hsum⟩ := floor_add_one_of_infinity
      (show magnitude most = infinityMagnitude by rw [← natAbs_rank, hrank, Int.natAbs_natCast])
    rw [room_of_rank_pos hnan (by omega), toNat_toUInt64_infinity (hsum.trans hrank)]
    omega
  · have hsum := floor_add_one hfinite
    have hn' : n + 1 < 2 * exponentStep := by rwa [exponentStep_eq]
    have hrank := (rounds_ofNat hn').mono hsum (by
      have hfloor := Int.le_floor.mpr (show ((n : ℤ) : ℚ) ≤ Binary64.value most from hle)
      exact_mod_cast (show ((n + 1 : ℕ) : ℤ) ≤ ⌊Binary64.value most⌋ + 1 by push_cast; omega))
    have hpos : 0 < rank (Float.ofNat (n + 1)) := by
      rw [← grid_pos_iff, grid_rank_ofNat hn']
      positivity
    rw [room_of_rank_pos hsum.ne_nan (by omega)]
    rcases (magnitude_le hsum.ne_nan).lt_or_eq with hlt | heq
    · have hvalue : ((n + 1 : ℕ) : ℚ) ≤ Binary64.value (floor most + 1) := by
        rw [value_eq_grid, ← grid_rank_ofNat hn', grid_le_grid_iff]
        exact hrank
      rw [toNat_toUInt64 (isFinite_iff.mpr hlt)]
      have hfloor := Nat.le_floor hvalue
      omega
    · rw [← natAbs_rank] at heq
      rw [toNat_toUInt64_infinity (by omega)]
      omega

/-- An estimate of less than `n` steps leaves room for at most `n` elements. -/
theorem room_le (hn : n < 2 * exponentStep)
    (h : most = nan ∨ rank most = -infinityMagnitude ∨ most.isFinite = true ∧ Binary64.value most < n) :
    room most ≤ n := by
  rcases h with rfl | hrank | ⟨hfinite, hlt⟩
  · have hzero : room nan = 0 := by decide
    omega
  · obtain ⟨hnan, hsum⟩ := floor_add_one_of_infinity
      (show magnitude most = infinityMagnitude by rw [← natAbs_rank, hrank, Int.natAbs_neg, Int.natAbs_natCast])
    rw [room_of_rank_nonpos hnan (by omega)]
    exact Nat.zero_le n
  · have hsum := floor_add_one hfinite
    have hrank := hsum.mono (rounds_ofNat hn) (by
      have hfloor := Int.floor_lt.mpr (show Binary64.value most < ((n : ℤ) : ℚ) from hlt)
      exact_mod_cast (show ⌊Binary64.value most⌋ + 1 ≤ (n : ℤ) by omega))
    rcases le_or_gt (rank (floor most + 1)) 0 with hnonpos | hpos
    · rw [room_of_rank_nonpos hsum.ne_nan hnonpos]
      exact Nat.zero_le n
    · have hfinite' : (floor most + 1).isFinite = true := by
        have hsmall := isFinite_iff.mp (value_ofNat hn).1
        rw [isFinite_iff]
        rw [← natAbs_rank] at hsmall ⊢
        omega
      rw [room_of_rank_pos hsum.ne_nan hpos, toNat_toUInt64 hfinite']
      have hvalue : Binary64.value (floor most + 1) ≤ n := by
        rw [value_eq_grid, ← grid_rank_ofNat hn, grid_le_grid_iff]
        exact hrank
      exact (min_le_left _ _).trans (Nat.floor_le_of_le hvalue)

/-! ### Quotients of places -/

/-- What a quotient is, by the place `p` of its dividend and the place `d` of its divisor, both taken with
    the sign of the divisor. -/
inductive Ratio (p d : ℤ) (z : Float) : Prop where
  | undefined (hp : p = 0) (hd : d = 0) (h : z = nan)
  | high (hp : 0 < p) (hd : p = infinityMagnitude ∨ d = 0) (h : rank z = infinityMagnitude)
  | low (hp : p < 0) (hd : p = -infinityMagnitude ∨ d = 0) (h : rank z = -infinityMagnitude)
  | rounded (hp : p.natAbs < infinityMagnitude) (hd : 0 < d) (h : Rounds (grid p / grid d) z)

theorem ratio_div (hx : x ≠ nan) (hy : y.isFinite = true) :
    Ratio ((signOf y).apply (rank x)) (magnitude y) (x / y) := by
  have hsigns : (signOf y).apply (rank x) = (signOf x / signOf y).apply (magnitude x) := by
    rw [rank_eq]
    cases signOf x <;> cases signOf y <;> simp only [Sign.apply] <;> first | rfl | exact neg_neg _
  have hle := magnitude_le hx
  have hlt := isFinite_iff.mp hy
  rw [hsigns]
  by_cases hundefined : magnitude x = 0 ∧ magnitude y = 0
  · obtain ⟨hx0, hy0⟩ := hundefined
    refine .undefined ?_ (by rw [hy0]; rfl) (zero_div_zero hx0 hy0)
    rw [hx0]
    cases signOf x / signOf y <;> rfl
  by_cases hinfinite : magnitude x = infinityMagnitude ∨ magnitude y = 0
  · have hinf := infinityMagnitude_eq
    obtain ⟨-, hrank⟩ := rank_div_infinity hx (by omega) hy hinfinite
    cases hs : signOf x / signOf y with
    | positive =>
      rw [hs] at hrank
      exact .high (by simp only [Sign.apply]; omega) (by simp only [Sign.apply]; omega) hrank
    | negative =>
      rw [hs] at hrank
      exact .low (by simp only [Sign.apply]; omega) (by simp only [Sign.apply]; omega) hrank
  · have hrounds := rounds_div (x := x) (isFinite_iff.mpr (by omega)) hy (by rw [← Int.natAbs_ne_zero, natAbs_rank]; omega)
    refine .rounded ?_ (by omega) ?_
    · cases signOf x / signOf y <;> simp only [Sign.apply] <;> omega
    · have hvalue : Binary64.value x / Binary64.value y =
          grid ((signOf x / signOf y).apply (magnitude x)) / grid (magnitude y) := by
        rw [value_eq_apply x, value_eq_apply y, grid_apply, apply_div, mul_div_mul_comm, ← mul_div_assoc]
      rwa [hvalue] at hrounds

/-! ### The span and its neighbour -/

section Span

/-- Place with the direction of the range. -/
def along (s : Sign) (x : Float) : ℤ := s.apply (rank x)

theorem natAbs_along (s : Sign) (x : Float) : (along s x).natAbs = magnitude x := by
  rw [← natAbs_rank]
  unfold along
  cases s with
  | positive => rfl
  | negative => exact Int.natAbs_neg _

theorem exists_nearest_along {r : ℚ} (h : Rounds r x) (s : Sign) :
    ∃ k, Nearest (s.apply 1 * r) k ∧ along s x = clamp k := by
  obtain ⟨k, hk, hrank⟩ := h.nearest
  refine ⟨s.apply k, hk.apply s, ?_⟩
  rw [along, hrank]
  cases s with
  | positive => rfl
  | negative => exact (clamp_neg k).symm

theorem apply_one_mul_self (s : Sign) : (s.apply 1 : ℚ) * s.apply 1 = 1 := by
  cases s <;> simp [Sign.apply]

theorem apply_mul_value (x : Float) : (signOf x).apply 1 * Binary64.value x = grid (magnitude x) := by
  rw [value_eq_apply, ← mul_assoc, apply_one_mul_self, one_mul]

theorem apply_mul_value_eq_grid (s : Sign) (x : Float) : s.apply 1 * Binary64.value x = grid (along s x) := by
  rw [along, grid_apply, value_eq_grid]

/-- The neighbour on the way to `y` is at most one place further in the direction of the range. -/
theorem along_adjacent_le (s : Sign) (hx : x ≠ nan) (hy : y ≠ nan) : along s (adjacent x y) ≤ along s x + 1 := by
  unfold along
  by_cases h : rank x = rank y
  · rw [adjacent_of_rank_eq hx hy h, h]
    omega
  · rw [(rank_adjacent hx hy h).2.1]
    cases s <;> simp only [Sign.apply] <;> split <;> omega

theorem along_adjacent_of_lt (s : Sign) (hx : x ≠ nan) (hy : y ≠ nan) (h : along s x < along s y) :
    along s (adjacent x y) = along s x + 1 := by
  unfold along at h ⊢
  rw [(rank_adjacent hx hy (by rintro heq; rw [heq] at h; omega)).2.1]
  cases s <;> simp only [Sign.apply] at h ⊢ <;> split <;> omega

theorem down_step (hstep : step.isFinite = true) (h0 : rank step ≠ 0) :
    (adjacent step 0).isFinite = true ∧ signOf (adjacent step 0) = signOf step ∧
      (magnitude (adjacent step 0) : ℤ) = magnitude step - 1 := by
  have hfinite := isFinite_iff.mp hstep
  have hnan := ne_nan_of_magnitude_lt hfinite
  obtain ⟨-, hrank, hsign⟩ := rank_adjacent hnan (by decide : (0 : Float) ≠ nan) (by rwa [rank_zero])
  rw [rank_zero] at hrank
  have hmagnitude := natAbs_rank step
  have hdown : (magnitude (adjacent step 0) : ℤ) = magnitude step - 1 := by
    rw [← natAbs_rank, hrank]
    split <;> omega
  exact ⟨isFinite_iff.mpr (by omega), hsign h0, hdown⟩

variable (start step stop) in
def reach : ℤ := along (signOf step) (adjacent (stop - start) (stop - start + step))

variable (start step stop) in
def distance : ℚ := (signOf step).apply 1 * (Binary64.value stop - Binary64.value start)

theorem sub_ne_nan (hstart : start.isFinite = true) (hstop : stop.isFinite = true) : stop - start ≠ nan :=
  (rounds_sub hstop hstart).ne_nan

theorem span_add_step_ne_nan (hstart : start.isFinite = true) (hstep : step.isFinite = true)
    (hstop : stop.isFinite = true) : stop - start + step ≠ nan := by
  have hcomm : stop - start + step = step + (stop - start) := commutative_add.comm _ _
  rw [hcomm]
  exact add_ne_nan hstep (sub_ne_nan hstart hstop)

/-- The upper estimate divides the place after the span by the place before the step. -/
theorem ratio_mostSteps (hstart : start.isFinite = true) (hstep : step.isFinite = true) (hstop : stop.isFinite = true)
    (h0 : rank step ≠ 0) :
    Ratio (reach start step stop) (magnitude step - 1) (mostSteps (stop - start) step) := by
  obtain ⟨hfinite, hsign, hmagnitude⟩ := down_step hstep h0
  have hspan := sub_ne_nan hstart hstop
  have hnext := span_add_step_ne_nan hstart hstep hstop
  have hup : adjacent (stop - start) (stop - start + step) ≠ nan := by
    by_cases h : rank (stop - start) = rank (stop - start + step)
    · rwa [adjacent_of_rank_eq hspan hnext h]
    · exact (rank_adjacent hspan hnext h).1
  have hratio := ratio_div hup hfinite
  rwa [hsign, hmagnitude] at hratio

end Span

end NumericArrays.Range
