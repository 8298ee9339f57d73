import NumericArrays.Proofs.Binary64.Value

/-! Rounding: a significand of any length becomes the nearest number of the format. -/
namespace NumericArrays.Binary64

open Float.Model
open Float.Model.UnpackedFloat (ExtendedMantissa Accuracy Sign)

variable {x y : Float} {r r' z : ℚ} {k : ℕ}

/-! ### Numbers that are the nearest ones -/

/-- Beyond the greatest finite numbers lie the infinities. -/
def clamp (k : ℤ) : ℤ := max (-infinityMagnitude) (min k infinityMagnitude)

theorem clamp_mono {j k : ℤ} (h : j ≤ k) : clamp j ≤ clamp k := by
  unfold clamp
  omega

theorem clamp_neg (k : ℤ) : clamp (-k) = -clamp k := by
  unfold clamp
  omega

theorem clamp_rank (h : x ≠ nan) : clamp (rank x) = rank x := by
  have hle := magnitude_le h
  rw [← natAbs_rank] at hle
  unfold clamp
  omega

structure Rounds (r : ℚ) (x : Float) : Prop where
  ne_nan : x ≠ nan
  nearest : ∃ k, Nearest r k ∧ rank x = clamp k

namespace Rounds

theorem mono (hx : Rounds r x) (hy : Rounds r' y) (h : r ≤ r') : rank x ≤ rank y := by
  obtain ⟨j, hj, hxj⟩ := hx.nearest
  obtain ⟨k, hk, hyk⟩ := hy.nearest
  rw [hxj, hyk]
  exact clamp_mono (hj.mono hk h)

/-- Numbers of the format are not rounded. -/
theorem of_value (h : x ≠ nan) : Rounds (value x) x :=
  ⟨h, rank x, value_eq_grid x ▸ nearest_grid (rank x), (clamp_rank h).symm⟩

/-- Up to the greatest finite number the nearest place is that of the number. -/
theorem nearest_rank (h : Rounds r x) (hfinite : x.isFinite = true) : Nearest r (rank x) := by
  obtain ⟨k, hk, hxk⟩ := h.nearest
  rw [isFinite_iff, ← natAbs_rank, hxk] at hfinite
  rw [hxk]
  unfold clamp at hfinite ⊢
  rwa [show max (-(infinityMagnitude : ℤ)) (min k infinityMagnitude) = k by omega]

end Rounds

/-! ### Rounding a significand -/

/-- What a significand stands for of which the lower digits are kept in two bits only. -/
def Holds (em : ExtendedMantissa) (z : ℚ) : Prop :=
  match em.roundBit, em.stickyBit with
  | false, false => z = em.mantissa
  | false, true => em.mantissa < z ∧ z < em.mantissa + 1 / 2
  | true, false => z = em.mantissa + 1 / 2
  | true, true => em.mantissa + 1 / 2 < z ∧ z < em.mantissa + 1

/-- The natural number is nearest to `z`; halfway between two it is the even one. -/
structure Rounded (z : ℚ) (k : ℕ) : Prop where
  lower : (k : ℚ) - 1 / 2 < z ∨ ((k : ℚ) - 1 / 2 = z ∧ Even k)
  upper : z < (k : ℚ) + 1 / 2 ∨ (z = (k : ℚ) + 1 / 2 ∧ Even k)

namespace Holds

variable {em : ExtendedMantissa}

theorem bounds (h : Holds em z) : em.mantissa ≤ z ∧ z < em.mantissa + 1 := by
  obtain ⟨m, round, sticky⟩ := em
  cases round <;> cases sticky <;> simp only [Holds] at h ⊢ <;> constructor <;> linarith

theorem rounded (h : Holds em z) : Rounded z em.roundedMantissa := by
  obtain ⟨m, round, sticky⟩ := em
  cases round <;> cases sticky <;> simp only [Holds] at h
  case false.false => exact ⟨.inl (by change (m : ℚ) - _ < _; linarith), .inl (by change _ < (m : ℚ) + _; linarith)⟩
  case false.true => exact ⟨.inl (by change (m : ℚ) - _ < _; linarith), .inl (by change _ < (m : ℚ) + _; linarith)⟩
  case true.true =>
    have hcast : ((m + 1 : ℕ) : ℚ) = m + 1 := by push_cast; rfl
    exact ⟨.inl (by change ((m + 1 : ℕ) : ℚ) - _ < _; linarith), .inl (by change _ < ((m + 1 : ℕ) : ℚ) + _; linarith)⟩
  case true.false =>
    change Rounded z (m + m % 2)
    rcases Nat.even_or_odd m with heven | hodd
    · rw [Nat.even_iff.mp heven]
      exact ⟨.inl (by push_cast; linarith), .inr ⟨h, heven⟩⟩
    · rw [Nat.odd_iff.mp hodd]
      exact ⟨.inr ⟨by push_cast; linarith, hodd.add_one⟩, .inl (by push_cast; linarith)⟩

theorem shiftRightOne (h : Holds em z) : Holds em.shiftRightOne (z / 2) := by
  obtain ⟨m, round, sticky⟩ := em
  have hm : (m : ℚ) = 2 * (m / 2 : ℕ) + (m % 2 : ℕ) := by exact_mod_cast (Nat.div_add_mod m 2).symm
  rcases Nat.mod_two_eq_zero_or_one m with hmod | hmod <;> rw [hmod] at hm <;>
    cases round <;> cases sticky <;> simp [Holds, ExtendedMantissa.shiftRightOne, hmod] at h ⊢ <;>
    (try constructor) <;> push_cast at hm <;> linarith

theorem shiftRight (h : Holds em z) (n : ℕ) : Holds (em >>> n) (z / 2 ^ n) := by
  change Holds (n.repeat ExtendedMantissa.shiftRightOne em) _
  induction n with
  | zero => simpa [Nat.repeat] using h
  | succ n ih =>
    rw [Nat.repeat, pow_succ, ← div_div]
    exact ih.shiftRightOne

theorem ofMantissa_exact (m : ℕ) : Holds (.ofMantissaAndAccuracy m .exact) m := rfl

end Holds

/-- Halfway to the place above, which has the same power of two. -/
theorem middle_place {t m : ℕ} (hm : m + 1 ≤ 2 * exponentStep) (hn : t = 0 ∨ exponentStep ≤ m) :
    middle (t * exponentStep + m : ℕ) = (m + 1 / 2) * (2 ^ t * least) := by
  have hnext : ((t * exponentStep + m : ℕ) : ℤ) + 1 = (t * exponentStep + (m + 1) : ℕ) := by
    push_cast
    ring
  rw [middle, hnext, grid_place (by omega) hn, grid_place hm (by omega)]
  push_cast
  ring

namespace Rounded

theorem le_of_lt (h : Rounded z k) {n : ℕ} (hz : z < n) : k ≤ n := by
  have hlt : (k : ℚ) < n + 1 := by rcases h.lower with hl | ⟨hl, -⟩ <;> linarith
  exact Nat.lt_succ_iff.mp (by exact_mod_cast hlt)

theorem ge_of_ge (h : Rounded z k) {n : ℕ} (hz : n ≤ z) : n ≤ k := by
  have hlt : (n : ℚ) < k + 1 := by rcases h.upper with hu | ⟨hu, -⟩ <;> linarith
  exact Nat.lt_succ_iff.mp (by exact_mod_cast hlt)

/-- A rounded significand, with a power of two, is the nearest place if it has all its bits or the power is
    the least one. -/
theorem nearest {t : ℕ} (h : Rounded z k) (hz : 0 ≤ z) (hlt : z < (2 * exponentStep : ℕ))
    (hn : t = 0 ∨ exponentStep ≤ z) : Nearest (z * (2 ^ t * least)) (t * exponentStep + k : ℕ) := by
  have hscale : (0 : ℚ) < 2 ^ t * least := mul_pos (by positivity) least_pos
  have hplace := grid_place (h.le_of_lt hlt) (hn.imp_right h.ge_of_ge)
  have heven : Even ((t * exponentStep + k : ℕ) : ℤ) ↔ Even k := by
    have hstep : Even exponentStep := ⟨2251799813685248, exponentStep_eq⟩
    rw [Int.even_coe_nat, Nat.even_add, iff_true_left (hstep.mul_left t)]
  constructor
  · rw [heven]
    rcases le_or_gt (k : ℚ) z with hle | hgt
    · have hbelow := middle_lt_grid ((t * exponentStep + k : ℕ) - 1 : ℤ)
      rw [sub_add_cancel, hplace] at hbelow
      exact .inl (hbelow.trans_le (mul_le_mul_of_nonneg_right hle hscale.le))
    · -- the place below has the same power of two
      obtain ⟨j, rfl⟩ : ∃ j, k = j + 1 := Nat.exists_eq_add_one_of_ne_zero (by rintro rfl; simp at hgt; linarith)
      have hj : t = 0 ∨ exponentStep ≤ j := hn.imp_right fun hge =>
        Nat.lt_succ_iff.mp (by exact_mod_cast hge.trans_lt hgt)
      have hprev : ((t * exponentStep + (j + 1) : ℕ) : ℤ) - 1 = (t * exponentStep + j : ℕ) := by
        push_cast
        ring
      have hhalf : (j : ℚ) + 1 / 2 = ((j + 1 : ℕ) : ℚ) - 1 / 2 := by
        push_cast
        ring
      rw [hprev, middle_place (h.le_of_lt hlt) hj, hhalf, mul_lt_mul_iff_left₀ hscale, mul_left_inj' hscale.ne']
      exact h.lower
  · rw [heven]
    rcases le_or_gt z (k : ℚ) with hle | hgt
    · have habove := grid_lt_middle (t * exponentStep + k : ℕ)
      rw [hplace] at habove
      exact .inl ((mul_le_mul_of_nonneg_right hle hscale.le).trans_lt habove)
    · -- the place above has the same power of two
      have hk : k + 1 ≤ 2 * exponentStep := by exact_mod_cast hgt.trans hlt
      rw [middle_place hk (hn.imp_right h.ge_of_ge), mul_lt_mul_iff_left₀ hscale, mul_left_inj' hscale.ne']
      exact h.upper

end Rounded

/-! ### Packing -/

theorem rank_of_components {s : Sign} {e : BitVec Format.binary64.exponentBits}
    {f : BitVec Format.binary64.mantissaBitsWithoutImplicit}
    (h : x.toBits.toBitVec = UnpackedFloat.packComponents .binary64 s e f) :
    rank x = s.apply (e.toNat * exponentStep + f.toNat : ℕ) := by
  have hbits : x.toBits.toNat = _ := congrArg BitVec.toNat h
  rw [toNat_packComponents] at hbits
  have he : e.toNat < 2048 := e.isLt
  have hf : f.toNat < 4503599627370496 := f.isLt
  have hlow : e.toNat * exponentStep + f.toNat < signPattern := by
    rw [exponentStep_eq, signPattern_eq]
    omega
  unfold rank isNegative magnitude
  rw [hbits]
  cases s with
  | positive =>
    rw [show (Sign.toBitVec .positive).toNat = 0 from rfl, Nat.zero_mul, Nat.zero_add, Nat.mod_eq_of_lt hlow,
      if_neg (by rw [decide_eq_true_eq]; omega)]
    rfl
  | negative =>
    rw [show (Sign.toBitVec .negative).toNat = 1 from rfl, Nat.one_mul, Nat.add_mod_left, Nat.mod_eq_of_lt hlow,
      if_pos (by rw [decide_eq_true_eq]; omega)]
    rfl

theorem clamp_apply (s : Sign) (k : ℕ) : clamp (s.apply k) = s.apply (min k infinityMagnitude : ℕ) := by
  unfold clamp
  cases s <;> simp only [Sign.apply] <;> omega

theorem rank_pack_zero (s : Sign) : rank (.ofModel (.pack (.zero s))) = 0 := by
  cases s <;> decide

/-- A significand of the format has all its bits from `exponentStep` on. -/
theorem log2_eq_iff {m : ℕ} (hpos : 0 < m) (hm : m < 2 * exponentStep) : m.log2 = 52 ↔ exponentStep ≤ m := by
  rw [exponentStep_eq] at *
  have hlow : m.log2 < 52 ↔ m < 2 ^ 52 := Nat.log2_lt hpos.ne'
  have hhigh : m.log2 < 53 ↔ m < 2 ^ 53 := Nat.log2_lt hpos.ne'
  omega

/-- The place of a packed number is that of its significand and exponent. -/
theorem rank_pack_finite (s : Sign) {m t : ℕ} (hpos : 0 < m) (hm : m < 2 * exponentStep)
    (hn : t = 0 ∨ exponentStep ≤ m) :
    rank (.ofModel (.pack (.finite s m (t - 1074) hpos))) = clamp (s.apply (t * exponentStep + m : ℕ)) := by
  have hinf := infinityMagnitude_eq
  have hlog2 := log2_eq_iff hpos hm
  have hbias : (Format.binary64.exponentBias : ℤ) = 1023 := by decide
  have hexponent : ((t : ℤ) - 1074 + Format.binary64.exponentBias +
      Format.binary64.mantissaBitsWithoutImplicit).toNat = t + 1 := by
    rw [hbias]
    change ((t : ℤ) - 1074 + 1023 + 52).toNat = t + 1
    omega
  have hpack : ∀ {x : Float}, x = .ofModel (.pack (.finite s m (t - 1074) hpos)) →
      x.toBits.toBitVec = UnpackedFloat.pack .binary64 (.finite s m (t - 1074) hpos) := by
    rintro _ rfl
    rfl
  rw [clamp_apply]
  generalize hx : Float.ofModel (.pack (.finite s m (t - 1074) hpos)) = x
  have hbits := hpack hx.symm
  simp only [UnpackedFloat.pack, hexponent] at hbits
  rw [exponentStep_eq] at hm hn hlog2 ⊢
  split at hbits
  · rename_i htop
    change 2048 ≤ t + 1 + 1 at htop
    have hones : (-1#11).toNat * exponentStep + (0#52).toNat = infinityMagnitude := by decide
    have hmin : min (t * 4503599627370496 + m) infinityMagnitude = infinityMagnitude := by omega
    rw [rank_of_components hbits, hmin, ← hones]
    rfl
  · rename_i htop
    change ¬ 2048 ≤ t + 1 + 1 at htop
    split at hbits
    · rename_i hfull
      change m.log2 + 1 = 53 at hfull
      rw [rank_of_components hbits, BitVec.toNat_ofNat, BitVec.toNat_ofNat, exponentStep_eq]
      change s.apply ((t + 1) % 2048 * 4503599627370496 + m % 4503599627370496 : ℕ) = _
      have hplace : (t + 1) % 2048 * 4503599627370496 + m % 4503599627370496 =
          min (t * 4503599627370496 + m) infinityMagnitude := by omega
      rw [hplace]
    · rename_i hsubnormal
      change ¬ m.log2 + 1 = 53 at hsubnormal
      have hlt : m < 4503599627370496 := by omega
      have hzero : (BitVec.ofNat Format.binary64.exponentBits 0).toNat = 0 := rfl
      have hfraction : (BitVec.ofNat Format.binary64.mantissaBitsWithoutImplicit m).toNat = m :=
        (BitVec.toNat_ofNat _ _).trans (Nat.mod_eq_of_lt hlt)
      have hplace : 0 * 4503599627370496 + m = min (t * 4503599627370496 + m) infinityMagnitude := by omega
      rw [rank_of_components hbits, hzero, hfraction, exponentStep_eq, hplace]

/-! ### Rounding and packing -/

theorem shiftToTargetExponent_eq {m n : ℕ} {e : ℤ} (a : Accuracy)
    (h : (max ((m.log2 : ℤ) + 1 + e - 53) (-1074) - e).toNat = n) :
    UnpackedFloat.shiftToTargetExponent .binary64 m e a = (ExtendedMantissa.ofMantissaAndAccuracy m a >>> n, e + n) := by
  subst h
  rfl

/-- A significand that has grown by one digit in rounding loses its last digit, which is zero. -/
theorem exists_carried {t : ℕ} (hk : k ≤ 2 * exponentStep) (hn : t = 0 ∨ exponentStep ≤ k) :
    ∃ (em : ExtendedMantissa) (t' : ℕ),
      UnpackedFloat.shiftToTargetExponent .binary64 k (t - 1074) .exact = (em, (t' : ℤ) - 1074) ∧
      em.mantissa < 2 * exponentStep ∧ (t' = 0 ∨ exponentStep ≤ em.mantissa) ∧
      t' * exponentStep + em.mantissa = t * exponentStep + k := by
  rcases hk.lt_or_eq with hlt | rfl
  · have hlog : k.log2 < 53 := by
      rcases Nat.eq_zero_or_pos k with rfl | hpos
      · decide
      · exact (Nat.log2_lt hpos.ne').mpr (by rwa [exponentStep_eq] at hlt)
    refine ⟨.ofMantissaAndAccuracy k .exact, t, ?_, hlt, hn, rfl⟩
    rw [shiftToTargetExponent_eq (n := 0) _ (by omega), Nat.cast_zero, add_zero]
    rfl
  · have hlog : (2 * exponentStep).log2 = 53 := by
      have hpow : 2 * exponentStep = 2 ^ 53 := by rw [exponentStep_eq]; norm_num
      rw [hpow, Nat.log2_two_pow]
    have hhalf : (ExtendedMantissa.ofMantissaAndAccuracy (2 * exponentStep) .exact >>> 1).mantissa = exponentStep :=
      Nat.mul_div_cancel_left _ two_pos
    refine ⟨_, t + 1, (shiftToTargetExponent_eq (n := 1) _ (by rw [hlog]; omega)).trans ?_, ?_, .inr hhalf.ge, ?_⟩
    · refine Prod.ext rfl ?_
      push_cast
      ring
    · rw [hhalf, exponentStep_eq]
      norm_num
    · rw [hhalf]
      ring

theorem apply_eq_mul (s : Sign) (n : ℤ) : s.apply n = s.apply 1 * n := by
  cases s <;> simp [Sign.apply]

theorem Nearest.apply {j : ℤ} (h : Nearest r j) (s : Sign) : Nearest (s.apply 1 * r) (s.apply j) := by
  cases s with
  | positive => simpa [Sign.apply] using h
  | negative => simpa [Sign.apply] using h.neg

/-- Shifted to its final exponent a significand fits the format, and fills it if the exponent is not the
    least one. -/
theorem shifted_bounds {m n t : ℕ} (hlow : m ≤ z) (hhigh : z < m + 1) (hlog : m.log2 + 1 ≤ 53 + n)
    (hfull : t = 0 ∨ m.log2 = 52 + n) :
    z / 2 ^ n < (2 * exponentStep : ℕ) ∧ (t = 0 ∨ (exponentStep : ℚ) ≤ z / 2 ^ n) := by
  have hstep : (exponentStep : ℚ) * 2 ^ n = 2 ^ (52 + n) := by
    rw [exponentStep_eq, pow_add]
    norm_num
  constructor
  · have hpow : m + 1 ≤ 2 ^ (53 + n) :=
      (Nat.lt_log2_self (n := m)).trans_le (Nat.pow_le_pow_right two_pos hlog)
    have hcast : (m : ℚ) + 1 ≤ 2 ^ (53 + n) := by exact_mod_cast hpow
    rw [div_lt_iff₀ (by positivity), Nat.cast_mul, mul_assoc, hstep, Nat.cast_ofNat, ← pow_succ']
    exact hhigh.trans_le (hcast.trans_eq (by rw [show 53 + n = 52 + n + 1 by omega]))
  · refine hfull.imp_right fun hlog => ?_
    have hm : m ≠ 0 := by
      rintro rfl
      rw [Nat.log2_zero] at hlog
      omega
    have hpow : 2 ^ (52 + n) ≤ m := hlog ▸ Nat.log2_self_le hm
    have hcast : (2 : ℚ) ^ (52 + n) ≤ m := by exact_mod_cast hpow
    rw [le_div_iff₀ (by positivity), hstep]
    exact hcast.trans hlow

/-- A significand that has at least the digits of the format is rounded to the nearest number. -/
theorem rounds_roundWithAccuracy (s : Sign) {m : ℕ} {e : ℤ} {a : Accuracy}
    (h : Holds (.ofMantissaAndAccuracy m a) z) (he : e ≤ max ((m.log2 : ℤ) + 1 + e - 53) (-1074)) :
    Rounds (s.apply 1 * (z * 2 ^ e)) (.ofModel (.pack (UnpackedFloat.roundWithAccuracy .binary64 s m e a))) := by
  obtain ⟨n, hn⟩ := Int.eq_ofNat_of_zero_le (sub_nonneg.mpr he)
  obtain ⟨t, ht⟩ : ∃ t : ℕ, e + n = (t : ℤ) - 1074 := ⟨(e + n + 1074).toNat, by omega⟩
  have hmantissa : (ExtendedMantissa.ofMantissaAndAccuracy m a).mantissa = m := by
    cases a with
    | exact => rfl
    | inexact o => cases o <;> rfl
  obtain ⟨hlow, hhigh⟩ := h.bounds
  rw [hmantissa] at hlow hhigh
  obtain ⟨hlt, hfull⟩ := shifted_bounds (n := n) (t := t) hlow hhigh (by omega) (by omega)
  have hrounded := (h.shiftRight n).rounded
  have hnearest := hrounded.nearest (div_nonneg ((Nat.cast_nonneg m).trans hlow) (by positivity)) hlt hfull
  have hvalue : z / 2 ^ n * (2 ^ t * least) = z * 2 ^ e := by
    rw [show e = (t : ℤ) + -1074 + -n by omega, zpow_add₀ two_ne_zero, zpow_add₀ two_ne_zero, zpow_natCast,
      ← least, zpow_neg 2 (n : ℤ), zpow_natCast]
    ring
  rw [hvalue] at hnearest
  -- the carry of rounding does not change the place
  obtain ⟨em, t', hcarried, hem, hem', hplace⟩ :=
    exists_carried (hrounded.le_of_lt hlt) (hfull.imp_right hrounded.ge_of_ge)
  refine ⟨pack_ne_nan (roundWithAccuracy_ne_notANumber _ _ _ _), _, hnearest.apply s, ?_⟩
  unfold UnpackedFloat.roundWithAccuracy
  rw [shiftToTargetExponent_eq (n := n) _ (by omega), ht]
  simp only [hcarried]
  rw [← hplace]
  split
  · rename_i hzero
    rw [hzero] at hem' ⊢
    rw [hem'.resolve_right (by decide), rank_pack_zero]
    cases s <;> decide
  · exact rank_pack_finite s _ hem hem'

theorem log2_shiftLeft {m : ℕ} (hm : 0 < m) (n : ℕ) : (m <<< n).log2 = m.log2 + n := by
  rw [Nat.shiftLeft_eq, Nat.log2_eq_iff (by positivity), add_right_comm, pow_add, pow_add _ _ n]
  exact ⟨Nat.mul_le_mul_right _ (Nat.log2_self_le hm.ne'), Nat.mul_lt_mul_of_pos_right Nat.lt_log2_self (by positivity)⟩

/-- Rounding appends the digits that a short significand lacks. -/
theorem rounds_round (s : Sign) {m : ℕ} (hm : 0 < m) (e : ℤ) :
    Rounds (s.apply 1 * (m * 2 ^ e)) (.ofModel (.pack (UnpackedFloat.round .binary64 s m e))) := by
  obtain ⟨n, hn⟩ : ∃ n : ℕ, (e - max ((m.log2 : ℤ) + 1 + e - 53) (-1074)).toNat = n := ⟨_, rfl⟩
  have hround : UnpackedFloat.round .binary64 s m e =
      UnpackedFloat.roundWithAccuracy .binary64 s (m <<< n) (e - n) .exact := by
    subst hn
    rfl
  have hvalue : ((m <<< n : ℕ) : ℚ) * 2 ^ (e - n) = m * 2 ^ e := by
    rw [Nat.shiftLeft_eq, Nat.cast_mul, Nat.cast_pow, Nat.cast_ofNat, zpow_sub₀ two_ne_zero, zpow_natCast]
    field_simp
  rw [hround, ← hvalue]
  refine rounds_roundWithAccuracy s (Holds.ofMantissa_exact _) ?_
  rw [log2_shiftLeft hm]
  push_cast
  omega

theorem rounds_zero (s : Sign) : Rounds 0 (.ofModel (.pack (.zero s))) :=
  ⟨pack_ne_nan nofun, 0, grid_zero ▸ nearest_grid 0, rank_pack_zero s⟩

/-- Integers times powers of two are rounded to the nearest number. -/
theorem rounds_normalize (m : ℤ) (e : ℤ) (s : Sign) :
    Rounds (m * 2 ^ e) (.ofModel (.pack (UnpackedFloat.normalize .binary64 m e s))) := by
  unfold UnpackedFloat.normalize
  rcases lt_trichotomy m 0 with h | rfl | h
  · rw [Int.compare_eq_lt.mpr h]
    obtain ⟨n, rfl⟩ := Int.eq_negSucc_of_lt_zero h
    have hvalue : ((Int.negSucc n : ℤ) : ℚ) * 2 ^ e = (Sign.negative.apply 1 : ℤ) * ((n + 1 : ℕ) * 2 ^ e) := by
      simp only [Sign.apply, Int.cast_negSucc]
      push_cast
      ring
    rw [hvalue]
    exact rounds_round .negative (Nat.succ_pos n) e
  · rw [Int.compare_eq_eq.mpr rfl, Int.cast_zero, zero_mul]
    exact rounds_zero s
  · rw [Int.compare_eq_gt.mpr h]
    obtain ⟨n, rfl⟩ := Int.eq_ofNat_of_zero_le h.le
    simpa [Sign.apply] using rounds_round .positive (by exact_mod_cast h) e

end NumericArrays.Binary64
