import NumericArrays.Proofs.Binary64.Zero

/-! Where NaN comes from: a product is NaN if a zero meets an infinity, a sum or a difference only if two
    infinities meet. -/
namespace NumericArrays.Binary64

open Float.Model

variable {x y : Float} {u v : UnpackedFloat}

/-! ### Packed numbers -/

theorem isNaNBits_packComponents {s : UnpackedFloat.Sign} {e : BitVec Format.binary64.exponentBits}
    {f : BitVec Format.binary64.mantissaBitsWithoutImplicit} (h : e = -1 → f = 0) :
    UnpackedFloat.isNaNBits (UnpackedFloat.packComponents .binary64 s e f) = false := by
  simpa [UnpackedFloat.isNaNBits] using h

/-- Packing makes numbers and infinities of numbers. -/
theorem isNaNBits_pack (h : u ≠ .notANumber) :
    UnpackedFloat.isNaNBits (UnpackedFloat.pack .binary64 u) = false := by
  cases u with
  | notANumber => exact absurd rfl h
  | infinity s => exact isNaNBits_packComponents fun _ => rfl
  | zero s => exact isNaNBits_packComponents fun _ => rfl
  | finite s m e hm =>
    simp only [UnpackedFloat.pack]
    split
    · exact isNaNBits_packComponents fun _ => rfl
    · rename_i hlt
      split
      · -- an exponent of ones is that of an infinity, which the first case has taken out
        apply isNaNBits_packComponents
        intro hexponent
        have hbits : 2 ^ Format.binary64.exponentBits = 2048 := by decide
        have hones : (-1 : BitVec Format.binary64.exponentBits).toNat = 2047 := by decide
        have htoNat := congrArg BitVec.toNat hexponent
        rw [BitVec.toNat_ofNat, hbits, hones] at htoNat
        omega
      · exact isNaNBits_packComponents fun hexponent => absurd hexponent (by decide)

theorem pack_ne_nan (h : u ≠ .notANumber) : Float.ofModel (.pack u) ≠ Float.nan := by
  intro hnan
  have hbits : UnpackedFloat.pack .binary64 u = UnpackedFloat.packedNaN .binary64 :=
    congrArg (fun x : Float => x.toModel.toBits.toBitVec) hnan
  have hfalse := isNaNBits_pack h
  rw [hbits, UnpackedFloat.isNaNBits_packedNaN] at hfalse
  cases hfalse

theorem pack_ne_nan_iff : Float.ofModel (.pack u) ≠ Float.nan ↔ u ≠ .notANumber := by
  refine ⟨?_, pack_ne_nan⟩
  rintro h rfl
  exact h rfl

/-! ### Products -/

theorem roundWithAccuracy_ne_notANumber (s : UnpackedFloat.Sign) (m : Nat) (e : Int)
    (a : UnpackedFloat.Accuracy) : UnpackedFloat.roundWithAccuracy .binary64 s m e a ≠ .notANumber := by
  unfold UnpackedFloat.roundWithAccuracy
  simp only
  split <;> nofun

theorem unpacked_mul_ne_notANumber_iff (hu : u ≠ .notANumber) (hv : v ≠ .notANumber) :
    UnpackedFloat.mul .binary64 u v ≠ .notANumber ↔
      (u.isFinite = true ∨ ∀ s, v ≠ .zero s) ∧ (v.isFinite = true ∨ ∀ s, u ≠ .zero s) := by
  cases u <;> cases v <;>
    simp_all [UnpackedFloat.mul, UnpackedFloat.isFinite, roundWithAccuracy_ne_notANumber]

theorem beq_zero_iff_unpack : (x == 0) = true ↔ ∃ s, x.toModel.unpack = .zero s :=
  ⟨unpack_of_beq_zero, fun ⟨_, hs⟩ => beq_zero_of_unpack hs⟩

theorem mul_ne_nan_iff (hx : x ≠ Float.nan) (hy : y ≠ Float.nan) :
    x * y ≠ Float.nan ↔
      (x.isFinite = true ∨ ¬ (y == 0) = true) ∧ (y.isFinite = true ∨ ¬ (x == 0) = true) := by
  have hmul := unpacked_mul_ne_notANumber_iff (unpack_ne_notANumber hx) (unpack_ne_notANumber hy)
  rw [beq_zero_iff_unpack, beq_zero_iff_unpack, not_exists, not_exists]
  exact pack_ne_nan_iff.trans hmul

theorem zero_mul_ne_nan_iff (hx : (x == 0) = true) (hy : y ≠ Float.nan) :
    x * y ≠ Float.nan ↔ y.isFinite = true := by
  have hfinite := isFinite_of_beq_zero hx
  rw [mul_ne_nan_iff (ne_nan_of_isFinite hfinite) hy]
  simp [hx, hfinite]

theorem mul_ne_nan_iff_of_ne_zero (hx : x ≠ Float.nan) (hzero : ¬ (x == 0) = true) (hy : y ≠ Float.nan) :
    x * y ≠ Float.nan ↔ x.isFinite = true ∨ ¬ (y == 0) = true := by
  rw [mul_ne_nan_iff hx hy]
  exact and_iff_left (.inr hzero)

/-- A zero times anything is a zero or NaN. -/
theorem isInf_zero_mul (hx : (x == 0) = true) (y : Float) : (x * y).isInf = false := by
  obtain ⟨s, hs⟩ := unpack_of_beq_zero hx
  change (Float.ofModel (.pack (.mul .binary64 x.toModel.unpack y.toModel.unpack))).isInf = false
  rw [hs]
  have hzero (s : UnpackedFloat.Sign) : (Float.ofModel (.pack (.zero s))).isInf = false := by
    cases s <;> decide
  cases y.toModel.unpack with
  | notANumber | infinity t => exact (by decide : Float.nan.isInf = false)
  | zero t | finite t m e hm => exact hzero (s * t)

/-! ### Sums and differences -/

theorem normalize_ne_notANumber (m e : Int) (s : UnpackedFloat.Sign) :
    UnpackedFloat.normalize .binary64 m e s ≠ .notANumber := by
  unfold UnpackedFloat.normalize UnpackedFloat.round
  split
  · exact roundWithAccuracy_ne_notANumber _ _ _ _
  · nofun
  · exact roundWithAccuracy_ne_notANumber _ _ _ _

theorem unpacked_add_ne_notANumber_iff (hu : u.isInf = false) :
    UnpackedFloat.add .binary64 u v ≠ .notANumber ↔ u ≠ .notANumber ∧ v ≠ .notANumber := by
  cases u <;> cases v <;>
    simp_all [UnpackedFloat.add, UnpackedFloat.isInf, normalize_ne_notANumber]
  case zero.zero s t => split <;> intro h <;> cases h

theorem unpacked_sub_ne_notANumber_iff (hu : u.isInf = false) :
    UnpackedFloat.sub .binary64 u v ≠ .notANumber ↔ u ≠ .notANumber ∧ v ≠ .notANumber := by
  have hneg : v.neg ≠ .notANumber ↔ v ≠ .notANumber := by cases v <;> simp [UnpackedFloat.neg]
  rw [unpacked_sub_eq_add_neg, unpacked_add_ne_notANumber_iff hu, hneg]

theorem ne_nan_iff_unpack : x ≠ Float.nan ↔ x.toModel.unpack ≠ .notANumber := by
  refine ⟨unpack_ne_notANumber, ?_⟩
  rintro h rfl
  exact h rfl

theorem add_ne_nan_iff (h : x.isInf = false) : x + y ≠ Float.nan ↔ x ≠ Float.nan ∧ y ≠ Float.nan := by
  rw [ne_nan_iff_unpack (x := x), ne_nan_iff_unpack (x := y)]
  exact pack_ne_nan_iff.trans (unpacked_add_ne_notANumber_iff h)

theorem sub_ne_nan_iff (h : x.isInf = false) : x - y ≠ Float.nan ↔ x ≠ Float.nan ∧ y ≠ Float.nan := by
  rw [ne_nan_iff_unpack (x := x), ne_nan_iff_unpack (x := y)]
  exact pack_ne_nan_iff.trans (unpacked_sub_ne_notANumber_iff h)

end NumericArrays.Binary64
