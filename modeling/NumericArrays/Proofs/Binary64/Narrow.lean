import Mathlib
import NumericArrays.Number

/-! Rounding to 32-bit precision: what is rounded once is not changed again, and the sign plays no part. -/
namespace NumericArrays.Binary64

open Float.Model

variable {x y : Float} {m n : Nat}

/-! ### Magnitude and sign -/

theorem signPattern_eq : signPattern = 9223372036854775808 := rfl

theorem exponentStep_eq : exponentStep = 4503599627370496 := rfl

theorem infinityMagnitude_eq : infinityMagnitude = 9218868437227405312 := rfl

/-- A pattern is that of NaN if its magnitude is above that of infinity. -/
theorem isNaNBits_iff (w : BitVec 64) :
    @UnpackedFloat.isNaNBits Format.binary64 w = true ↔
      infinityMagnitude < w.toNat % signPattern := by
  have hexponent : (@UnpackedFloat.unpackExponent Format.binary64 w).toNat =
      w.toNat / 4503599627370496 % 2048 := by
    rw [UnpackedFloat.unpackExponent_def, BitVec.extractLsb'_toNat, Nat.shiftRight_eq_div_pow]
    rfl
  have hmantissa : (@UnpackedFloat.unpackMantissa Format.binary64 w).toNat =
      w.toNat % 4503599627370496 := by
    rw [UnpackedFloat.unpackMantissa_def, BitVec.extractLsb'_toNat, Nat.shiftRight_zero]
    rfl
  have hlt := w.isLt
  rw [infinityMagnitude_eq, signPattern_eq]
  simp only [UnpackedFloat.isNaNBits, decide_eq_true_eq, ne_eq, ← BitVec.toNat_inj, hexponent, hmantissa]
  have hones : (-BitVec.ofNat Format.binary64.exponentBits 1).toNat = 2047 := by decide
  have hzero : (BitVec.ofNat Format.binary64.mantissaBitsWithoutImplicit 0).toNat = 0 := by decide
  rw [hones, hzero]
  omega

theorem toBits_ofBits {w : UInt64} (h : w.toNat % signPattern ≤ infinityMagnitude) :
    (Float.ofBits w).toBits = w := by
  have hbits : (Float.ofBits w).toBits.toBitVec =
      if @UnpackedFloat.isNaNBits Format.binary64 w.toBitVec then
        UnpackedFloat.packedNaN .binary64
      else w.toBitVec := @UnpackedFloat.pack_unpack Format.binary64 w.toBitVec (by decide)
  rw [if_neg] at hbits
  · exact UInt64.toBitVec_inj.mp hbits
  · rw [isNaNBits_iff]
    exact Nat.not_lt.mpr h

/-- All patterns of NaN are one number. -/
theorem magnitude_le (h : x ≠ nan) : magnitude x ≤ infinityMagnitude := by
  by_contra hm
  apply h
  have hnan : @UnpackedFloat.isNaNBits Format.binary64 x.toBits.toBitVec = true := by
    rw [isNaNBits_iff]
    exact Nat.not_le.mp hm
  simp only [UnpackedFloat.isNaNBits, decide_eq_true_eq] at hnan
  have hpacked := x.toModel.valid.eq_packedNaN hnan.1 hnan.2
  have hsame : x.toBits = nan.toBits := by
    apply UInt64.toBitVec_inj.mp
    rw [show x.toBits.toBitVec = _ from hpacked]
    decide
  exact Float.toBits_inj.mp hsame

theorem isNegative_iff : isNegative x = true ↔ signPattern ≤ x.toBits.toNat := decide_eq_true_iff

def signPart (x : Float) : Nat := if isNegative x then signPattern else 0

theorem toNat_toBits (x : Float) : x.toBits.toNat = signPart x + magnitude x := by
  have hlt := x.toBits.toNat_lt
  unfold signPart magnitude
  simp only [isNegative_iff, signPattern_eq]
  split
  · omega
  · omega

/-- Magnitude and sign determine a number. -/
theorem ext_magnitude (hm : magnitude x = magnitude y) (hs : isNegative x = isNegative y) : x = y := by
  apply Float.toBits_inj.mp
  apply UInt64.toNat_inj.mp
  rw [toNat_toBits, toNat_toBits, hm, signPart, signPart, hs]

theorem toNat_toBits_withMagnitude (h : m ≤ infinityMagnitude) :
    (withMagnitude x m).toBits.toNat = signPart x + m := by
  have hsign : signPart x = 0 ∨ signPart x = signPattern := by
    unfold signPart
    split
    · exact .inr rfl
    · exact .inl rfl
  rw [signPattern_eq] at hsign
  rw [infinityMagnitude_eq] at h
  have hword : (UInt64.ofNat (signPart x + m)).toNat = signPart x + m := by
    rw [UInt64.toNat_ofNat']
    exact Nat.mod_eq_of_lt (by omega)
  change (Float.ofBits (UInt64.ofNat (signPart x + m))).toBits.toNat = _
  rw [toBits_ofBits]
  · exact hword
  · rw [hword, signPattern_eq, infinityMagnitude_eq]
    omega

theorem magnitude_withMagnitude (h : m ≤ infinityMagnitude) : magnitude (withMagnitude x m) = m := by
  rw [magnitude, toNat_toBits_withMagnitude h, signPart]
  rw [infinityMagnitude_eq] at h
  rw [signPattern_eq]
  split
  · omega
  · omega

theorem isNegative_withMagnitude (h : m ≤ infinityMagnitude) :
    isNegative (withMagnitude x m) = isNegative x := by
  rw [Bool.eq_iff_iff, isNegative_iff, toNat_toBits_withMagnitude h, signPart]
  rw [infinityMagnitude_eq] at h
  rw [signPattern_eq]
  split
  · rename_i hs
    exact iff_of_true (by omega) hs
  · rename_i hs
    exact iff_of_false (by omega) hs

/-! ### Magnitudes of 32-bit precision -/

theorem divNearest_mul (q : Nat) {d : Nat} (hd : 0 < d) : divNearest (q * d) d = q := by
  unfold divNearest
  simp [Nat.mul_div_cancel _ hd, hd]

/-- Rounding a quotient stays above every whole number that the quotient is not below. -/
theorem le_divNearest {q n d : Nat} (hd : 0 < d) (h : q * d ≤ n) : q ≤ divNearest n d := by
  have hq : q ≤ n / d := (Nat.le_div_iff_mul_le hd).mpr h
  unfold divNearest
  dsimp only
  split
  · exact hq
  · omega

theorem divNearest_le {q n d : Nat} (hd : 0 < d) (h : n ≤ q * d) : divNearest n d ≤ q := by
  have hq : n / d ≤ q := Nat.div_le_of_le_mul (by rwa [Nat.mul_comm] at h)
  unfold divNearest
  dsimp only
  split
  · exact hq
  · rename_i hup
    -- a quotient that is rounded up is not whole, so it is below `q`
    rcases Nat.lt_or_eq_of_le hq with hlt | heq
    · exact hlt
    · have hdecomp := Nat.div_add_mod n d
      have hmod : n % d = 0 := by
        rw [heq, Nat.mul_comm] at hdecomp
        omega
      simp [hmod, hd] at hup

/-- A small number of 32-bit precision keeps its place among the multiples of `2 ^ (-149)`. -/
theorem multipleOfLeastSingle_eq {k : Nat} (h0 : k ≠ 0) (hk : k ≤ 2 ^ 23) :
    ∃ l ≤ 23, 2 ^ l ≤ k ∧ k < 2 ^ (l + 1) ∧
      multipleOfLeastSingle k = (l + 874) * exponentStep + (k - 2 ^ l) * 2 ^ (52 - l) ∧
      (k - 2 ^ l) * 2 ^ (52 - l) < exponentStep := by
  have hlow : 2 ^ k.log2 ≤ k := Nat.log2_self_le h0
  have hhigh : k < 2 ^ (k.log2 + 1) := Nat.lt_log2_self
  have hl : k.log2 ≤ 23 := by
    by_contra h
    have hpow : 2 ^ 24 ≤ 2 ^ k.log2 := Nat.pow_le_pow_right (by decide) (by omega)
    omega
  refine ⟨k.log2, hl, hlow, hhigh, ?_, ?_⟩
  · rw [multipleOfLeastSingle, if_neg h0]
    simp only [Nat.pow_eq]
  · have hfraction : k - 2 ^ k.log2 < 2 ^ k.log2 := by
      rw [pow_succ] at hhigh
      omega
    calc (k - 2 ^ k.log2) * 2 ^ (52 - k.log2) < 2 ^ k.log2 * 2 ^ (52 - k.log2) :=
          Nat.mul_lt_mul_of_pos_right hfraction (by positivity)
      _ = 2 ^ 52 := by rw [← pow_add]; congr 1; omega
      _ = exponentStep := rfl

theorem narrowMagnitude_zero : narrowMagnitude 0 = 0 := by
  have hpos : 0 < Nat.pow 2 (926 - max (0 / exponentStep) 1) := by
    rw [Nat.pow_eq]
    positivity
  have hzero := divNearest_mul 0 hpos
  rw [Nat.zero_mul] at hzero
  unfold narrowMagnitude
  dsimp only
  rw [if_neg (by decide), if_neg (by decide), if_pos (by decide), hzero]
  rfl

theorem narrowMagnitude_of_special (h : 2047 ≤ m / exponentStep) : narrowMagnitude m = m := if_pos h

/-- Multiples of `2 ^ 29` are rounded to themselves. -/
theorem narrowMagnitude_of_multiple {q : Nat} (hlow : 897 ≤ q * 0x20000000 / exponentStep)
    (hhigh : q * 0x20000000 < 1151 * exponentStep) :
    narrowMagnitude (q * 0x20000000) = q * 0x20000000 := by
  have hspecial : ¬ 2047 ≤ q * 0x20000000 / exponentStep := by
    rw [exponentStep_eq] at hhigh ⊢
    omega
  unfold narrowMagnitude
  dsimp only
  rw [if_neg hspecial, if_pos hlow, divNearest_mul q (by decide), if_neg (by omega)]

/-- Multiples of `2 ^ (-149)` up to `2 ^ (-126)` are rounded to themselves. -/
theorem narrowMagnitude_multipleOfLeastSingle {k : Nat} (hk : k ≤ 2 ^ 23) :
    narrowMagnitude (multipleOfLeastSingle k) = multipleOfLeastSingle k := by
  by_cases h0 : k = 0
  · rw [h0, multipleOfLeastSingle, if_pos rfl, narrowMagnitude_zero]
  obtain ⟨l, hl, hlow, hhigh, heq, hfraction⟩ := multipleOfLeastSingle_eq h0 hk
  have hfield : multipleOfLeastSingle k / exponentStep = l + 874 := by
    rw [heq, Nat.add_comm, Nat.add_mul_div_right _ _ (by decide), Nat.div_eq_of_lt hfraction, Nat.zero_add]
  have hrest : multipleOfLeastSingle k % exponentStep = (k - 2 ^ l) * 2 ^ (52 - l) := by
    rw [heq, Nat.add_comm, Nat.add_mul_mod_self_right, Nat.mod_eq_of_lt hfraction]
  by_cases hl23 : l = 23
  · -- `2 ^ (-126)` itself is rounded as the numbers above it are
    subst hl23
    have hk23 : k = 2 ^ 23 := le_antisymm hk hlow
    subst hk23
    decide
  · have hsignificand : exponentStep + (k - 2 ^ l) * 2 ^ (52 - l) = k * 2 ^ (52 - l) := by
      have hstep : exponentStep = 2 ^ l * 2 ^ (52 - l) := by
        rw [← pow_add, Nat.add_sub_cancel' (by omega)]
        rfl
      rw [hstep, ← Nat.add_mul, Nat.add_sub_cancel' hlow]
    have hshift : 926 - max (l + 874) 1 = 52 - l := by omega
    unfold narrowMagnitude
    dsimp only
    rw [hfield, if_neg (by omega), if_neg (by omega), if_neg (by omega), hrest, hsignificand, hshift,
      Nat.pow_eq, divNearest_mul k (by positivity)]

/-- Below `2 ^ (-126)` the multiples of `2 ^ (-149)` are what remains. -/
theorem narrowMagnitude_of_small (h : m / exponentStep < 897) :
    ∃ k ≤ 2 ^ 23, narrowMagnitude m = multipleOfLeastSingle k := by
  have hlarge : 2 ^ 30 ≤ 2 ^ (926 - max (m / exponentStep) 1) :=
    Nat.pow_le_pow_right (by decide) (by omega)
  have hsignificand : (if m / exponentStep = 0 then m else exponentStep + m % exponentStep) ≤
      2 ^ 23 * 2 ^ 30 := by
    rw [exponentStep_eq]
    split
    · omega
    · omega
  refine ⟨divNearest (if m / exponentStep = 0 then m else exponentStep + m % exponentStep)
    (2 ^ (926 - max (m / exponentStep) 1)), ?_, ?_⟩
  · exact divNearest_le (by positivity) (hsignificand.trans (Nat.mul_le_mul_left _ hlarge))
  · unfold narrowMagnitude
    dsimp only
    rw [if_neg (by omega), if_neg (by omega), Nat.pow_eq]

theorem narrowMagnitude_of_normal (hlow : 897 ≤ m / exponentStep) (hhigh : m / exponentStep < 2047) :
    narrowMagnitude m = infinityMagnitude ∨ ∃ q, 897 * 0x800000 ≤ q ∧
      q * 0x20000000 < 1151 * exponentStep ∧ narrowMagnitude m = q * 0x20000000 := by
  have hq : 897 * 0x800000 ≤ divNearest m 0x20000000 := by
    apply le_divNearest (by decide)
    rw [exponentStep_eq] at hlow
    omega
  unfold narrowMagnitude
  dsimp only
  rw [if_neg (by omega), if_pos hlow]
  split
  · exact .inl rfl
  · exact .inr ⟨_, hq, by omega, rfl⟩

theorem narrowMagnitude_narrowMagnitude (m : Nat) :
    narrowMagnitude (narrowMagnitude m) = narrowMagnitude m := by
  by_cases hspecial : 2047 ≤ m / exponentStep
  · rw [narrowMagnitude_of_special hspecial, narrowMagnitude_of_special hspecial]
  by_cases hnormal : 897 ≤ m / exponentStep
  · rcases narrowMagnitude_of_normal hnormal (by omega) with h | ⟨q, hq, hlt, h⟩
    · rw [h, narrowMagnitude_of_special (by decide)]
    · rw [h, narrowMagnitude_of_multiple _ hlt]
      rw [exponentStep_eq]
      omega
  · obtain ⟨k, hk, h⟩ := narrowMagnitude_of_small (Nat.not_le.mp hnormal)
    rw [h, narrowMagnitude_multipleOfLeastSingle hk]

theorem narrowMagnitude_le (h : m ≤ infinityMagnitude) : narrowMagnitude m ≤ infinityMagnitude := by
  by_cases hspecial : 2047 ≤ m / exponentStep
  · rwa [narrowMagnitude_of_special hspecial]
  by_cases hnormal : 897 ≤ m / exponentStep
  · rcases narrowMagnitude_of_normal hnormal (by omega) with hm | ⟨q, -, hlt, hm⟩
    · rw [hm]
    · rw [hm, infinityMagnitude_eq]
      rw [exponentStep_eq] at hlt
      omega
  · obtain ⟨k, hk, hm⟩ := narrowMagnitude_of_small (Nat.not_le.mp hnormal)
    rw [hm]
    by_cases h0 : k = 0
    · rw [h0, multipleOfLeastSingle, if_pos rfl]
      exact Nat.zero_le _
    · obtain ⟨l, hl, -, -, heq, hfraction⟩ := multipleOfLeastSingle_eq h0 hk
      rw [heq, infinityMagnitude_eq]
      rw [exponentStep_eq] at hfraction ⊢
      omega

/-! ### Numbers -/

theorem narrow_nan : narrow nan = nan := by
  decide

theorem magnitude_narrow (x : Float) : magnitude (narrow x) = narrowMagnitude (magnitude x) := by
  by_cases h : x = nan
  · subst h
    decide
  · exact magnitude_withMagnitude (narrowMagnitude_le (magnitude_le h))

theorem isNegative_narrow (x : Float) : isNegative (narrow x) = isNegative x := by
  by_cases h : x = nan
  · rw [h, narrow_nan]
  · exact isNegative_withMagnitude (narrowMagnitude_le (magnitude_le h))

theorem narrow_narrow (x : Float) : narrow (narrow x) = narrow x := by
  apply ext_magnitude
  · rw [magnitude_narrow, magnitude_narrow, narrowMagnitude_narrowMagnitude]
  · rw [isNegative_narrow]

/-! ### Opposite numbers -/

theorem toNat_packComponents (s : UnpackedFloat.Sign) (e : BitVec Format.binary64.exponentBits)
    (f : BitVec Format.binary64.mantissaBitsWithoutImplicit) :
    (UnpackedFloat.packComponents .binary64 s e f).toNat =
      s.toBitVec.toNat * signPattern + (e.toNat * exponentStep + f.toNat) := by
  have hpacked : (s.toBitVec ++ e ++ f).toNat =
      (s.toBitVec.toNat * 2 ^ 11 + e.toNat) * 2 ^ 52 + f.toNat := by
    rw [BitVec.toNat_append, BitVec.toNat_append, ← Nat.shiftLeft_add_eq_or_of_lt f.isLt,
      ← Nat.shiftLeft_add_eq_or_of_lt e.isLt, Nat.shiftLeft_eq, Nat.shiftLeft_eq]
  rw [signPattern_eq, exponentStep_eq]
  exact hpacked.trans (by ring)

/-- The opposite of a number differs from it in the sign bit. -/
theorem pack_neg {u : UnpackedFloat} (h : u ≠ .notANumber) :
    ∃ s e f, UnpackedFloat.pack .binary64 u = UnpackedFloat.packComponents .binary64 s e f ∧
      UnpackedFloat.pack .binary64 u.neg = UnpackedFloat.packComponents .binary64 (-s) e f := by
  cases u with
  | notANumber => exact absurd rfl h
  | infinity s => exact ⟨s, _, _, rfl, rfl⟩
  | zero s => exact ⟨s, _, _, rfl, rfl⟩
  | finite s m e hm =>
    simp only [UnpackedFloat.pack, UnpackedFloat.neg]
    split
    · exact ⟨s, _, _, rfl, rfl⟩
    · split
      · exact ⟨s, _, _, rfl, rfl⟩
      · exact ⟨s, _, _, rfl, rfl⟩

theorem unpack_ne_notANumber (h : x ≠ nan) : x.toModel.unpack ≠ .notANumber := by
  intro hnan
  have htrue : x.isNaN = true := by
    show x.toModel.unpack.isNaN = true
    rw [hnan]
    rfl
  rw [Float.isNaN_eq_decide_eq_nan, decide_eq_true_eq] at htrue
  exact h htrue

theorem magnitude_and_sign_neg (h : x ≠ nan) :
    magnitude (-x) = magnitude x ∧ (isNegative (-x) = true ↔ ¬ isNegative x = true) := by
  obtain ⟨s, e, f, hpack, hneg⟩ := pack_neg (unpack_ne_notANumber h)
  have hx : x.toBits.toNat = _ := congrArg BitVec.toNat
    ((UnpackedFloat.pack_unpack_of_valid x.toModel.valid (by decide)).symm.trans hpack)
  have hy : (-x).toBits.toNat = _ := congrArg BitVec.toNat hneg
  rw [toNat_packComponents, signPattern_eq, exponentStep_eq] at hx hy
  have he : e.toNat < 2048 := e.isLt
  have hf : f.toNat < 4503599627370496 := f.isLt
  have hsigns : (s.toBitVec.toNat = 0 ∧ (-s).toBitVec.toNat = 1) ∨
      (s.toBitVec.toNat = 1 ∧ (-s).toBitVec.toNat = 0) := by
    cases s with
    | positive => exact .inl ⟨rfl, rfl⟩
    | negative => exact .inr ⟨rfl, rfl⟩
  rw [magnitude, magnitude, isNegative_iff, isNegative_iff, signPattern_eq, hx, hy]
  rcases hsigns with ⟨h0, h1⟩ | ⟨h1, h0⟩
  · rw [h0, h1]
    omega
  · rw [h0, h1]
    omega

theorem narrow_neg (x : Float) : narrow (-x) = -narrow x := by
  by_cases h : x = nan
  · subst h
    decide
  have hnarrow : narrow x ≠ nan := by
    intro hn
    have hle := narrowMagnitude_le (magnitude_le h)
    rw [← magnitude_narrow, hn] at hle
    exact absurd hle (by decide)
  obtain ⟨hm, hs⟩ := magnitude_and_sign_neg h
  obtain ⟨hm', hs'⟩ := magnitude_and_sign_neg hnarrow
  apply ext_magnitude
  · rw [magnitude_narrow, hm, hm', magnitude_narrow]
  · rw [Bool.eq_iff_iff, isNegative_narrow, hs, hs', isNegative_narrow]

end NumericArrays.Binary64
