import NumericArrays.Proofs.Binary64.Narrow

/-! The numbers of the format in order: where each of them lies among the rational numbers, how far apart
    neighbours are, and which one is nearest. -/
namespace NumericArrays.Binary64

/-! ### Magnitudes -/

section Units

variable {k m n t : ℕ}

/-- The magnitude with this pattern, in multiples of the least one that is not zero. -/
def units (m : ℕ) : ℕ :=
  if m < exponentStep then m else (exponentStep + m % exponentStep) * 2 ^ (m / exponentStep - 1)

/-- A pattern as a significand and a power of two. A significand that has outgrown the power is that of
    the next one. -/
theorem units_add (hk : k ≤ 2 * exponentStep) (h : t = 0 ∨ exponentStep ≤ k) :
    units (t * exponentStep + k) = k * 2 ^ t := by
  rw [exponentStep_eq] at hk h
  unfold units
  rw [exponentStep_eq]
  rcases Nat.lt_or_ge k 4503599627370496 with hlt | hge
  · obtain rfl : t = 0 := by omega
    rw [if_pos (by omega)]
    omega
  · rw [if_neg (by omega)]
    rcases Nat.lt_or_ge k (2 * 4503599627370496) with hlt | htop
    · have hdiv : (t * 4503599627370496 + k) / 4503599627370496 - 1 = t := by omega
      have hmod : 4503599627370496 + (t * 4503599627370496 + k) % 4503599627370496 = k := by omega
      rw [hdiv, hmod]
    · have hdiv : (t * 4503599627370496 + k) / 4503599627370496 - 1 = t + 1 := by omega
      have hmod : (t * 4503599627370496 + k) % 4503599627370496 = 0 := by omega
      rw [hdiv, hmod, Nat.add_zero, show k = 2 * 4503599627370496 by omega, pow_succ]
      ring

theorem exists_significand (m : ℕ) :
    ∃ t k, m = t * exponentStep + k ∧ k < 2 * exponentStep ∧ (t = 0 ∨ exponentStep ≤ k) := by
  rw [exponentStep_eq]
  rcases Nat.lt_or_ge m 4503599627370496 with hlt | hge
  · exact ⟨0, m, by omega, by omega, .inl rfl⟩
  · refine ⟨m / 4503599627370496 - 1, 4503599627370496 + m % 4503599627370496, ?_, ?_, .inr ?_⟩ <;> omega

theorem units_zero : units 0 = 0 := rfl

/-- The next magnitude is one unit off below the first power of two of the format, and from there on off
    by the last bit of the significand. -/
theorem units_succ (m : ℕ) :
    ∃ d, units (m + 1) = units m + d ∧ 0 < d ∧ (d = 1 ∨ exponentStep * d ≤ units m) := by
  obtain ⟨t, k, rfl, hk, h⟩ := exists_significand m
  refine ⟨2 ^ t, ?_, by positivity, ?_⟩
  · rw [Nat.add_assoc, units_add (by omega) (by omega), units_add (by omega) h, Nat.succ_mul]
  · rw [units_add (by omega) h]
    rcases h with rfl | h
    · exact .inl rfl
    · exact .inr (Nat.mul_le_mul_right _ h)

theorem units_strictMono : StrictMono units := by
  refine strictMono_nat_of_lt_succ fun m => ?_
  obtain ⟨d, hd, hpos, -⟩ := units_succ m
  omega

theorem units_of_le (h : k ≤ 2 * exponentStep) : units k = k := by
  have hunits := units_add (t := 0) h (.inl rfl)
  simpa using hunits

end Units

/-! ### Both signs -/

section Grid

variable {j k l : ℤ} {n : ℕ}

def least : ℚ := 2 ^ (-1074 : ℤ)

/-- Distance from 1 to the next number, as a rational number. -/
def ulp : ℚ := 2 ^ (-52 : ℤ)

theorem least_pos : 0 < least := by
  unfold least
  positivity

theorem ulp_pos : 0 < ulp := by
  unfold ulp
  positivity

theorem exponentStep_mul_ulp : (exponentStep : ℚ) * ulp = 1 := by
  rw [exponentStep_eq, ulp]
  norm_num

/-- The numbers in order, with zero at place 0. -/
def grid (k : ℤ) : ℚ := k.sign * units k.natAbs * least

theorem grid_natCast (n : ℕ) : grid n = units n * least := by
  unfold grid
  rcases Nat.eq_zero_or_pos n with rfl | hn
  · simp [units_zero]
  · rw [Int.sign_eq_one_of_pos (by exact_mod_cast hn), Int.natAbs_natCast, Int.cast_one, one_mul]

/-- Where a place lies that is split into an exponent and a significand. -/
theorem grid_place {m t : ℕ} (hm : m ≤ 2 * exponentStep) (hn : t = 0 ∨ exponentStep ≤ m) :
    grid (t * exponentStep + m : ℕ) = m * (2 ^ t * least) := by
  rw [grid_natCast, units_add hm hn]
  push_cast
  ring

theorem grid_significand {m t : ℕ} (hm : m ≤ 2 * exponentStep) (hn : t = 0 ∨ exponentStep ≤ m) :
    grid (t * exponentStep + m : ℕ) = m * 2 ^ ((t : ℤ) - 1074) := by
  rw [grid_place hm hn, least, zpow_sub₀ two_ne_zero, zpow_natCast, zpow_neg, div_eq_mul_inv]

theorem grid_zero : grid 0 = 0 := by simp [grid]

theorem grid_neg (k : ℤ) : grid (-k) = -grid k := by
  simp [grid, Int.sign_neg]

theorem grid_strictMono : StrictMono grid := by
  have hnat : ∀ m n : ℕ, m < n → grid m < grid n := by
    intro m n h
    rw [grid_natCast, grid_natCast]
    have hunits : (units m : ℚ) < units n := by exact_mod_cast units_strictMono h
    exact mul_lt_mul_of_pos_right hunits least_pos
  refine strictMono_int_of_lt_succ fun k => ?_
  rcases le_or_gt 0 k with hk | hk
  · obtain ⟨n, rfl⟩ := Int.eq_ofNat_of_zero_le hk
    exact_mod_cast hnat n (n + 1) (Nat.lt_succ_self n)
  · obtain ⟨n, hn⟩ := Int.eq_ofNat_of_zero_le (show 0 ≤ -(k + 1) by omega)
    obtain rfl : k = -((n + 1 : ℕ) : ℤ) := by push_cast; omega
    have hnext : -((n + 1 : ℕ) : ℤ) + 1 = -(n : ℤ) := by push_cast; omega
    rw [hnext, grid_neg, grid_neg]
    exact neg_lt_neg (hnat n (n + 1) (Nat.lt_succ_self n))

theorem grid_le_grid_iff : grid j ≤ grid k ↔ j ≤ k := grid_strictMono.le_iff_le

theorem grid_lt_grid_iff : grid j < grid k ↔ j < k := grid_strictMono.lt_iff_lt

theorem grid_nonneg_iff : 0 ≤ grid k ↔ 0 ≤ k := by
  rw [← grid_zero, grid_le_grid_iff]

theorem grid_pos_iff : 0 < grid k ↔ 0 < k := by
  rw [← grid_zero, grid_lt_grid_iff]

/-- Every number is a multiple of the least one. -/
theorem exists_grid_eq_mul (k : ℤ) : ∃ n : ℤ, grid k = n * least := by
  refine ⟨k.sign * units k.natAbs, ?_⟩
  unfold grid
  push_cast
  rfl

/-- Multiples of the least number are numbers themselves as long as they fit the significand. -/
theorem grid_of_natAbs_le (h : k.natAbs ≤ 2 * exponentStep) : grid k = k * least := by
  rw [grid, units_of_le h, ← Int.cast_natCast, ← Int.cast_mul, Int.sign_mul_natAbs]

/-- How far apart neighbours are above zero. -/
theorem grid_succ_le (hk : 0 ≤ k) : grid (k + 1) ≤ grid k + max least (grid k * ulp) := by
  obtain ⟨n, rfl⟩ := Int.eq_ofNat_of_zero_le hk
  obtain ⟨d, hd, -, hsmall⟩ := units_succ n
  have hcast : grid ((n : ℤ) + 1) = grid n + d * least := by
    have hnext := grid_natCast (n + 1)
    push_cast at hnext
    rw [hnext, grid_natCast, hd]
    push_cast
    ring
  rw [hcast]
  refine add_le_add_right ?_ _
  rcases hsmall with rfl | hsmall
  · rw [Nat.cast_one, one_mul]
    exact le_max_left _ _
  · refine le_max_of_le_right ?_
    have hunits : (exponentStep : ℚ) * d ≤ units n := by exact_mod_cast hsmall
    have hscaled := mul_le_mul_of_nonneg_right hunits (mul_pos ulp_pos least_pos).le
    have hstep := exponentStep_mul_ulp
    calc (d : ℚ) * least = exponentStep * ulp * (d * least) := by rw [hstep, one_mul]
      _ = exponentStep * d * (ulp * least) := by ring
      _ ≤ units n * (ulp * least) := hscaled
      _ = grid n * ulp := by rw [grid_natCast]; ring

/-- A natural number shifted up until it fills the significand, with a power of two that makes up for the
    shift. -/
theorem grid_shifted {c : ℕ} (hc : c ≤ 1074) (hlow : exponentStep ≤ n * 2 ^ c) (hhigh : n * 2 ^ c ≤ 2 * exponentStep) :
    grid ((1074 - c) * exponentStep + n * 2 ^ c : ℕ) = n := by
  rw [grid_significand hhigh (.inr hlow), show ((1074 - c : ℕ) : ℤ) - 1074 = -(c : ℤ) by omega, zpow_neg,
    zpow_natCast]
  push_cast
  exact mul_inv_cancel_right₀ (by positivity) _

/-- A natural number of at most 53 bits is a number of the format. -/
theorem exists_grid_eq_natCast (h : n ≤ 2 * exponentStep) : ∃ k : ℤ, 0 ≤ k ∧ grid k = n := by
  rcases Nat.eq_zero_or_pos n with rfl | hn
  · exact ⟨0, le_rfl, by simp [grid_zero]⟩
  obtain ⟨c, hc, hlow, hhigh⟩ : ∃ c ≤ 1074, exponentStep ≤ n * 2 ^ c ∧ n * 2 ^ c ≤ 2 * exponentStep := by
    rcases Nat.lt_or_ge n exponentStep with hlt | hge
    · have hself : 2 ^ n.log2 ≤ n := Nat.log2_self_le hn.ne'
      have hnext : n < 2 ^ (n.log2 + 1) := Nat.lt_log2_self
      have hlog : n.log2 < 52 := (Nat.log2_lt hn.ne').mpr (by rwa [exponentStep_eq] at hlt)
      have hstep : 2 ^ n.log2 * 2 ^ (52 - n.log2) = exponentStep := by
        rw [← pow_add, Nat.add_sub_cancel' hlog.le, exponentStep_eq]
        norm_num
      have hmul := Nat.mul_le_mul_right (2 ^ (52 - n.log2)) hnext.le
      rw [pow_succ, mul_right_comm, hstep] at hmul
      exact ⟨52 - n.log2, by omega, hstep ▸ Nat.mul_le_mul_right _ hself, by omega⟩
    · exact ⟨0, by omega, by omega, by omega⟩
  exact ⟨_, Int.natCast_nonneg _, grid_shifted hc hlow hhigh⟩

end Grid

/-! ### The nearest number -/

section Nearest

variable {j k l : ℤ} {r s : ℚ}

def middle (k : ℤ) : ℚ := (grid k + grid (k + 1)) / 2

theorem grid_lt_middle (k : ℤ) : grid k < middle k := by
  have hlt := grid_lt_grid_iff.mpr (Int.lt_succ k)
  unfold middle
  linarith

theorem middle_lt_grid (k : ℤ) : middle k < grid (k + 1) := by
  have hlt := grid_lt_grid_iff.mpr (Int.lt_succ k)
  unfold middle
  linarith

theorem middle_mono (h : j ≤ k) : middle j ≤ middle k := by
  have hleft := grid_le_grid_iff.mpr h
  have hright := grid_le_grid_iff.mpr (show j + 1 ≤ k + 1 by omega)
  unfold middle
  linarith

theorem middle_neg (k : ℤ) : middle (-k) = -middle (k - 1) := by
  unfold middle
  rw [grid_neg, show -k + 1 = -(k - 1) by ring, grid_neg, sub_add_cancel]
  ring

/-- The number at place `k` is nearest to `r`; halfway between two it is the one at an even place, whose
    last bit is zero. -/
structure Nearest (r : ℚ) (k : ℤ) : Prop where
  lower : middle (k - 1) < r ∨ (middle (k - 1) = r ∧ Even k)
  upper : r < middle k ∨ (r = middle k ∧ Even k)

namespace Nearest

theorem middle_le (h : Nearest r k) : middle (k - 1) ≤ r := by
  rcases h.lower with hlt | ⟨heq, -⟩
  · exact hlt.le
  · exact heq.le

theorem le_middle (h : Nearest r k) : r ≤ middle k := by
  rcases h.upper with hlt | ⟨heq, -⟩
  · exact hlt.le
  · exact heq.le

theorem neg (h : Nearest r k) : Nearest (-r) (-k) := by
  have hleft : middle (-k - 1) = -middle k := by
    rw [show -k - 1 = -(k + 1) by ring, middle_neg, add_sub_cancel_right]
  constructor
  · rw [hleft, neg_lt_neg_iff, neg_inj, even_neg]
    exact h.upper.imp id fun ⟨heq, he⟩ => ⟨heq.symm, he⟩
  · rw [middle_neg, neg_lt_neg_iff, neg_inj, even_neg]
    exact h.lower.imp id fun ⟨heq, he⟩ => ⟨heq.symm, he⟩

/-- What is nearest to a larger number is not smaller. -/
theorem mono (hj : Nearest r j) (hk : Nearest s k) (h : r ≤ s) : j ≤ k := by
  by_contra hlt
  have hmiddle : middle k ≤ middle (j - 1) := middle_mono (by omega)
  rcases hj.lower with hrlt | ⟨hreq, heven⟩
  · have hs := hk.le_middle
    linarith
  · rcases hk.upper with hslt | ⟨hseq, heven'⟩
    · linarith
    · -- both ends lie halfway between the same two neighbours, of which one is odd
      have hmid : middle k = middle (j - 1) := by linarith
      have hkj : k = j - 1 := by
        by_contra hne
        have hstrict : middle k < middle (j - 1) := by
          have h1 := grid_lt_grid_iff.mpr (show k < j - 1 by omega)
          have h2 := grid_lt_grid_iff.mpr (show k + 1 < j - 1 + 1 by omega)
          unfold middle
          linarith
        exact hstrict.ne hmid
      rw [Int.even_iff] at heven heven'
      omega

theorem unique (hj : Nearest r j) (hk : Nearest r k) : j = k :=
  le_antisymm (hj.mono hk le_rfl) (hk.mono hj le_rfl)

end Nearest

theorem nearest_grid (k : ℤ) : Nearest (grid k) k := by
  constructor
  · have hlt := middle_lt_grid (k - 1)
    rw [sub_add_cancel] at hlt
    exact .inl hlt
  · exact .inl (grid_lt_middle k)

theorem nearest_middle {k : ℤ} (h : Even k) : Nearest (middle k) k :=
  ⟨.inl ((nearest_grid k).lower.elim (fun hlt => hlt.trans (grid_lt_middle k))
    fun ⟨heq, _⟩ => heq.trans_lt (grid_lt_middle k)), .inr ⟨rfl, h⟩⟩

namespace Nearest

theorem le_of_le_grid (h : Nearest r k) (hr : r ≤ grid j) : k ≤ j := h.mono (nearest_grid j) hr

theorem le_of_grid_le (h : Nearest r k) (hr : grid j ≤ r) : j ≤ k := (nearest_grid j).mono h hr

theorem eq_of_grid (h : Nearest (grid j) k) : k = j := h.unique (nearest_grid j)

theorem nonneg (h : Nearest r k) (hr : 0 ≤ r) : 0 ≤ k := h.le_of_grid_le (by rwa [grid_zero])

/-- Half the distance of neighbours bounds the error. -/
theorem abs_sub_le (h : Nearest r k) : |grid k - r| ≤ max least (|r| * ulp) / 2 := by
  have hmain : ∀ {r : ℚ} {k : ℤ}, Nearest r k → 0 ≤ r → |grid k - r| ≤ max least (|r| * ulp) / 2 := by
    intro r k h hr
    have hk := h.nonneg hr
    rw [abs_of_nonneg hr]
    rcases le_total (grid k) r with hle | hle
    · have hgap := grid_succ_le hk
      have hup := h.le_middle
      have hscale := mul_le_mul_of_nonneg_right hle ulp_pos.le
      have hmax := max_le_max_left least hscale
      unfold middle at hup
      rw [abs_of_nonpos (by linarith)]
      linarith
    · rcases hk.eq_or_lt with rfl | hpos
      · rw [grid_zero] at hle ⊢
        obtain rfl : r = 0 := le_antisymm hle hr
        have hmax := le_max_left least (0 * ulp)
        have hleast := least_pos
        rw [sub_self, abs_zero]
        linarith
      · have hgap := grid_succ_le (show 0 ≤ k - 1 by omega)
        have hlow := h.middle_le
        have hprev := (grid_lt_middle (k - 1)).le.trans hlow
        have hscale := mul_le_mul_of_nonneg_right hprev ulp_pos.le
        have hmax := max_le_max_left least hscale
        unfold middle at hlow
        rw [sub_add_cancel] at hgap hlow
        rw [abs_of_nonneg (by linarith)]
        linarith
  rcases le_total 0 r with hr | hr
  · exact hmain h hr
  · have hneg := hmain h.neg (neg_nonneg.mpr hr)
    rwa [grid_neg, abs_neg, ← neg_sub', abs_neg] at hneg

/-- Multiples of the least number are rounded only where the significand is too short for them. -/
theorem abs_sub_le_of_multiple (h : Nearest r k) {n : ℤ} (hr : r = n * least) :
    |grid k - r| ≤ |r| * (ulp / 2) := by
  rcases le_or_gt n.natAbs (2 * exponentStep) with hn | hn
  · obtain rfl : k = n := by
      rw [hr, ← grid_of_natAbs_le hn] at h
      exact h.eq_of_grid
    rw [hr, ← grid_of_natAbs_le hn, sub_self, abs_zero]
    exact mul_nonneg (abs_nonneg _) (by linarith [ulp_pos])
  · have herr := h.abs_sub_le
    have hbig : least ≤ |r| * ulp := by
      have hcast : (2 * exponentStep : ℚ) ≤ |(n : ℚ)| := by
        rw [← Int.cast_abs, ← Int.natCast_natAbs]
        exact_mod_cast hn.le
      have hscaled := mul_le_mul_of_nonneg_right hcast (mul_pos least_pos ulp_pos).le
      have hstep := exponentStep_mul_ulp
      have hleast := least_pos
      rw [hr, abs_mul, abs_of_pos hleast]
      nlinarith
    rw [max_eq_right hbig] at herr
    linarith

end Nearest

end Nearest

end NumericArrays.Binary64
