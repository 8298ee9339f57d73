import NumericArrays.Proofs.Binary64.Narrow

/-! Finite numbers and zeros: operands of finite results are finite, and the sign of a zero is seen by no
    result that is finite. -/
namespace NumericArrays.Binary64

open Float.Model

variable {x y z x' y' : Float} {u v : UnpackedFloat}

/-! ### Equality up to the sign of zero -/

/-- Zero and negative zero are equal to zero, and nothing else is. -/
theorem eq_of_beq_zero (hx : (x == 0) = true) : x = 0 ∨ x = -0 := by
  obtain ⟨-, -, h | ⟨h, -⟩ | ⟨h, -⟩⟩ := Float.beq_iff_ne_nan_and_eq.mp hx
  · exact .inl h
  · exact .inl h
  · exact .inr h

theorem beq_of_beq_zero (hx : (x == 0) = true) (hy : (y == 0) = true) : (x == y) = true := by
  obtain rfl | rfl := eq_of_beq_zero hx <;> obtain rfl | rfl := eq_of_beq_zero hy <;> decide

theorem not_lt_of_beq_zero (hx : (x == 0) = true) : ¬ x < 0 := by
  obtain rfl | rfl := eq_of_beq_zero hx <;> decide +kernel

theorem isNaN_of_beq_zero (hx : (x == 0) = true) : x.isNaN = false := by
  obtain rfl | rfl := eq_of_beq_zero hx <;> decide +kernel

theorem abs_of_beq_zero (hx : (x == 0) = true) : x.abs = 0 := by
  obtain rfl | rfl := eq_of_beq_zero hx <;> decide +kernel

/-- Equal numbers are the same, or they are zeros. -/
theorem eq_or_zero_of_beq (h : (x == y) = true) : x = y ∨ ((x == 0) = true ∧ (y == 0) = true) := by
  obtain ⟨-, -, h | ⟨rfl, rfl⟩ | ⟨rfl, rfl⟩⟩ := Float.beq_iff_ne_nan_and_eq.mp h
  · exact .inl h
  · exact .inr (by decide)
  · exact .inr (by decide)

theorem beq_symm (h : (x == y) = true) : (y == x) = true := by
  rcases eq_or_zero_of_beq h with rfl | ⟨hx, hy⟩
  · exact h
  · exact beq_of_beq_zero hy hx

theorem beq_zero_of_beq (hxy : (x == y) = true) (hy : (y == 0) = true) : (x == 0) = true := by
  rcases eq_or_zero_of_beq hxy with rfl | ⟨hx, -⟩
  · exact hy
  · exact hx

theorem beq_trans (hxy : (x == y) = true) (hyz : (y == z) = true) : (x == z) = true := by
  rcases eq_or_zero_of_beq hyz with rfl | ⟨hy, hz⟩
  · exact hxy
  · exact beq_of_beq_zero (beq_zero_of_beq hxy hy) hz

/-- Apart from zeros equal numbers are the same. -/
theorem eq_of_beq_of_ne_zero (h : (x == y) = true) (hy : ¬ (y == 0) = true) : x = y := by
  rcases eq_or_zero_of_beq h with rfl | ⟨-, hzero⟩
  · rfl
  · exact absurd hzero hy

theorem abs_congr (h : (x == y) = true) : x.abs = y.abs := by
  rcases eq_or_zero_of_beq h with rfl | ⟨hx, hy⟩
  · rfl
  · rw [abs_of_beq_zero hx, abs_of_beq_zero hy]

/-! ### Finite numbers -/

theorem ne_nan_of_isFinite (h : x.isFinite = true) : x ≠ Float.nan := by
  rintro rfl
  exact absurd h (by decide)

theorem isFinite_of_beq_zero (h : (x == 0) = true) : x.isFinite = true := by
  obtain rfl | rfl := eq_of_beq_zero h <;> decide

theorem isFinite_of_beq (h : (x == y) = true) (hy : y.isFinite = true) : x.isFinite = true := by
  rcases eq_or_zero_of_beq h with rfl | ⟨hx, -⟩
  · exact hy
  · exact isFinite_of_beq_zero hx

/-- Packing may turn a large number into an infinity, but never an infinity into a number. -/
theorem isFinite_of_pack (h : (Float.ofModel (.pack u)).isFinite = true) : u.isFinite = true := by
  cases u with
  | notANumber => exact absurd h (by decide)
  | infinity s => cases s <;> exact absurd h (by decide)
  | zero s | finite s m e hm => rfl

theorem isFinite_of_unpacked_sub (h : (UnpackedFloat.sub .binary64 u v).isFinite = true) :
    u.isFinite = true ∧ v.isFinite = true := by
  cases u with
  | notANumber => cases v <;> exact absurd h Bool.false_ne_true
  | infinity s =>
    cases v with
    | infinity t =>
      simp only [UnpackedFloat.sub] at h
      split at h <;> exact absurd h Bool.false_ne_true
    | _ => exact absurd h Bool.false_ne_true
  | zero s | finite s m e hm =>
    cases v with
    | zero t | finite t m e hm => exact ⟨rfl, rfl⟩
    | _ => exact absurd h Bool.false_ne_true

theorem isFinite_of_unpacked_mul (h : (UnpackedFloat.mul .binary64 u v).isFinite = true) :
    u.isFinite = true ∧ v.isFinite = true := by
  cases u with
  | notANumber | infinity s => cases v <;> exact absurd h Bool.false_ne_true
  | zero s | finite s m e hm =>
    cases v with
    | zero t | finite t m e hm => exact ⟨rfl, rfl⟩
    | _ => exact absurd h Bool.false_ne_true

/-- A denominator may be infinite. -/
theorem isFinite_of_unpacked_div (h : (UnpackedFloat.div .binary64 u v).isFinite = true) :
    u.isFinite = true ∧ v ≠ .notANumber ∧ ∀ s, v ≠ .zero s := by
  cases v with
  | notANumber | zero s => cases u <;> exact absurd h Bool.false_ne_true
  | infinity s | finite s m e hm =>
    refine ⟨?_, nofun, nofun⟩
    cases u with
    | notANumber | infinity t => exact absurd h Bool.false_ne_true
    | zero t | finite t m e hm => rfl

theorem isFinite_of_sub (h : (x - y).isFinite = true) : x.isFinite = true ∧ y.isFinite = true :=
  isFinite_of_unpacked_sub (isFinite_of_pack h)

theorem isFinite_of_mul (h : (x * y).isFinite = true) : x.isFinite = true ∧ y.isFinite = true :=
  isFinite_of_unpacked_mul (isFinite_of_pack h)

theorem isFinite_of_div (h : (x / y).isFinite = true) : x.isFinite = true :=
  (isFinite_of_unpacked_div (isFinite_of_pack h)).1

theorem ne_nan_of_div (h : (x / y).isFinite = true) : y ≠ Float.nan := by
  rintro rfl
  exact (isFinite_of_unpacked_div (isFinite_of_pack h)).2.1 rfl

/-! ### Operands in either order -/

theorem sign_mul_comm (s t : UnpackedFloat.Sign) : s * t = t * s := by
  cases s <;> cases t <;> rfl

theorem unpacked_mul_comm (u v : UnpackedFloat) :
    UnpackedFloat.mul .binary64 u v = UnpackedFloat.mul .binary64 v u := by
  cases u <;> cases v <;> simp [UnpackedFloat.mul, sign_mul_comm, Nat.mul_comm, Int.add_comm]

theorem unpacked_add_comm (u v : UnpackedFloat) :
    UnpackedFloat.add .binary64 u v = UnpackedFloat.add .binary64 v u := by
  cases u <;> cases v <;> try simp [UnpackedFloat.add, Int.add_comm, min_comm]
  case infinity.infinity s t => cases s <;> cases t <;> rfl
  case zero.zero s t => cases s <;> cases t <;> rfl

instance commutative_mul : Std.Commutative fun x y : Float => x * y where
  comm x y := congrArg (fun u => Float.ofModel (.pack u)) (unpacked_mul_comm x.toModel.unpack y.toModel.unpack)

instance commutative_add : Std.Commutative fun x y : Float => x + y where
  comm x y := congrArg (fun u => Float.ofModel (.pack u)) (unpacked_add_comm x.toModel.unpack y.toModel.unpack)

theorem unpacked_sub_eq_add_neg (u v : UnpackedFloat) :
    UnpackedFloat.sub .binary64 u v = UnpackedFloat.add .binary64 u v.neg := by
  cases u <;> cases v <;> try rfl
  case finite.finite s m e hm t n f hn =>
    have happly (n : Int) : (-t).apply n = -t.apply n := by
      cases t with
      | negative => exact (neg_neg n).symm
      | positive => rfl
    simp only [UnpackedFloat.sub, UnpackedFloat.add, UnpackedFloat.neg, happly, sub_eq_add_neg]

/-! ### Zeros -/

theorem pack_unpack (x : Float) : Float.ofModel (.pack x.toModel.unpack) = x := by
  obtain ⟨⟨bits, valid⟩⟩ := x
  have hpack := UnpackedFloat.pack_unpack_of_valid valid
  unfold Float.Model.pack Float.Model.unpack
  simp only [hpack]

theorem pack_zero_beq (s : UnpackedFloat.Sign) : (Float.ofModel (.pack (.zero s)) == 0) = true := by
  cases s <;> decide

theorem unpack_of_beq_zero (h : (x == 0) = true) : ∃ s, x.toModel.unpack = .zero s := by
  rcases eq_of_beq_zero h with rfl | rfl
  · exact ⟨.positive, rfl⟩
  · exact ⟨.negative, rfl⟩

theorem beq_zero_of_unpack {s : UnpackedFloat.Sign} (h : x.toModel.unpack = .zero s) : (x == 0) = true := by
  rw [← pack_unpack x, h]
  exact pack_zero_beq s

theorem ne_zero_of_div (h : (x / y).isFinite = true) : ¬ (y == 0) = true := by
  intro hy
  obtain ⟨s, hs⟩ := unpack_of_beq_zero hy
  exact (isFinite_of_unpacked_div (isFinite_of_pack h)).2.2 s hs

theorem mul_zero_beq (hx : x.isFinite = true) (hy : (y == 0) = true) : (x * y == 0) = true := by
  obtain ⟨t, ht⟩ := unpack_of_beq_zero hy
  change x.toModel.unpack.isFinite = true at hx
  change (Float.ofModel (.pack (.mul .binary64 x.toModel.unpack y.toModel.unpack)) == 0) = true
  rw [ht]
  cases hu : x.toModel.unpack with
  | zero s | finite s m e hm => exact pack_zero_beq (s * t)
  | notANumber | infinity s =>
    rw [hu] at hx
    exact absurd hx Bool.false_ne_true

theorem zero_mul_beq (hx : (x == 0) = true) (hy : y.isFinite = true) : (x * y == 0) = true := by
  have hcomm : x * y = y * x := commutative_mul.comm x y
  rw [hcomm]
  exact mul_zero_beq hy hx

theorem pack_add_zero_beq (hx : x ≠ Float.nan) (t : UnpackedFloat.Sign) :
    (Float.ofModel (.pack (.add .binary64 x.toModel.unpack (.zero t))) == x) = true := by
  cases hu : x.toModel.unpack with
  | zero s =>
    refine beq_of_beq_zero ?_ (beq_zero_of_unpack hu)
    cases s <;> cases t <;> decide
  | infinity s | finite s m e hm | notANumber =>
    simp only [UnpackedFloat.add]
    rw [← hu, pack_unpack]
    exact Float.beq_self_iff.mpr hx

theorem add_zero_beq (hx : x ≠ Float.nan) (hy : (y == 0) = true) : (x + y == x) = true := by
  obtain ⟨t, ht⟩ := unpack_of_beq_zero hy
  change (Float.ofModel (.pack (.add .binary64 x.toModel.unpack y.toModel.unpack)) == x) = true
  rw [ht]
  exact pack_add_zero_beq hx t

theorem sub_zero_beq (hx : x ≠ Float.nan) (hy : (y == 0) = true) : (x - y == x) = true := by
  obtain ⟨t, ht⟩ := unpack_of_beq_zero hy
  change (Float.ofModel (.pack (.sub .binary64 x.toModel.unpack y.toModel.unpack)) == x) = true
  rw [ht, unpacked_sub_eq_add_neg]
  exact pack_add_zero_beq hx (-t)

/-- Taken off a zero, a number loses its sign whatever that of the zero is. -/
theorem zero_sub_eq (hx : (x == 0) = true) (hx' : (x' == 0) = true) (hy : ¬ (y == 0) = true) :
    x' - y = x - y := by
  obtain ⟨s, hs⟩ := unpack_of_beq_zero hx
  obtain ⟨s', hs'⟩ := unpack_of_beq_zero hx'
  change Float.ofModel (.pack (.sub .binary64 x'.toModel.unpack y.toModel.unpack)) =
    Float.ofModel (.pack (.sub .binary64 x.toModel.unpack y.toModel.unpack))
  rw [hs, hs']
  cases hu : y.toModel.unpack with
  | zero t => exact absurd (beq_zero_of_unpack hu) hy
  | notANumber | infinity t | finite t m e hm => rfl

theorem zero_div_beq (hx : (x == 0) = true) (hy : ¬ (y == 0) = true) (hnan : y ≠ Float.nan) :
    (x / y == 0) = true := by
  obtain ⟨s, hs⟩ := unpack_of_beq_zero hx
  change (Float.ofModel (.pack (.div .binary64 x.toModel.unpack y.toModel.unpack)) == 0) = true
  rw [hs]
  cases hu : y.toModel.unpack with
  | zero t => exact absurd (beq_zero_of_unpack hu) hy
  | infinity t | finite t m e hm => exact pack_zero_beq (s / t)
  | notANumber =>
    rw [← pack_unpack y, hu] at hnan
    exact absurd rfl hnan

/-! ### Absolute values -/

theorem pack_abs (u : UnpackedFloat) : ∃ e f,
    UnpackedFloat.pack .binary64 u.abs = UnpackedFloat.packComponents .binary64 .positive e f := by
  cases u with
  | notANumber | infinity s | zero s => exact ⟨_, _, rfl⟩
  | finite s m e hm =>
    simp only [UnpackedFloat.abs, UnpackedFloat.pack]
    split
    · exact ⟨_, _, rfl⟩
    · split
      · exact ⟨_, _, rfl⟩
      · exact ⟨_, _, rfl⟩

theorem not_abs_lt_zero (x : Float) : ¬ x.abs < 0 := by
  obtain ⟨e, f, hpack⟩ := pack_abs x.toModel.unpack
  have hzero : (0 : Float).toModel.unpack = .zero .positive := rfl
  have hlt : UnpackedFloat.lt (UnpackedFloat.unpack .binary64
      (UnpackedFloat.packComponents .binary64 .positive e f)) (.zero .positive) = false := by
    unfold UnpackedFloat.unpack
    simp only [UnpackedFloat.unpackSign_packComponents, UnpackedFloat.Sign.ofBitVec_toBitVec]
    split_ifs <;> rfl
  rw [← hpack, ← hzero] at hlt
  intro h
  have htrue : UnpackedFloat.lt (UnpackedFloat.unpack .binary64
      (UnpackedFloat.pack .binary64 x.toModel.unpack.abs)) (0 : Float).toModel.unpack = true :=
    of_decide_eq_true h
  rw [hlt] at htrue
  cases htrue

theorem abs_eq_or_neg (x : Float) : x.abs = x ∨ x.abs = -x := by
  have habs : x.abs = Float.ofModel (.pack x.toModel.unpack.abs) := rfl
  have hneg : -x = Float.ofModel (.pack x.toModel.unpack.neg) := rfl
  have hself := pack_unpack x
  rw [habs, hneg]
  cases hu : x.toModel.unpack with
  | notANumber =>
    rw [hu] at hself
    exact .inl hself
  | infinity s | zero s | finite s m e hm =>
    rw [hu] at hself
    cases s with
    | positive => exact .inl hself
    | negative => exact .inr rfl

theorem neg_ne_nan (h : x ≠ Float.nan) : -x ≠ Float.nan := by
  intro hneg
  have hle := magnitude_le h
  rw [← (magnitude_and_sign_neg h).1, hneg] at hle
  exact absurd hle (by decide)

theorem abs_ne_nan (h : x ≠ Float.nan) : x.abs ≠ Float.nan := by
  rcases abs_eq_or_neg x with habs | habs
  · rwa [habs]
  · rw [habs]
    exact neg_ne_nan h

/-! ### Finite results do not depend on the signs of zeros -/

theorem sub_congr (hx : (x' == x) = true) (hy : (y' == y) = true) (h : (x - y).isFinite = true) :
    (x' - y' == x - y) = true := by
  have hxnan := ne_nan_of_isFinite (isFinite_of_sub h).1
  by_cases hzero : (y == 0) = true
  · have hx'nan := (Float.beq_iff_ne_nan_and_eq.mp hx).1
    have hleft := beq_trans (sub_zero_beq hx'nan (beq_zero_of_beq hy hzero)) hx
    exact beq_trans hleft (beq_symm (sub_zero_beq hxnan hzero))
  · have hself := Float.beq_self_iff.mpr (ne_nan_of_isFinite h)
    rw [eq_of_beq_of_ne_zero hy hzero]
    rcases eq_or_zero_of_beq hx with rfl | ⟨hx', hx⟩
    · exact hself
    · rwa [zero_sub_eq hx hx' hzero]

theorem mul_congr (hx : (x' == x) = true) (hy : (y' == y) = true) (h : (x * y).isFinite = true) :
    (x' * y' == x * y) = true := by
  obtain ⟨hxfin, hyfin⟩ := isFinite_of_mul h
  rcases eq_or_zero_of_beq hx with rfl | ⟨hx', hx⟩
  · rcases eq_or_zero_of_beq hy with rfl | ⟨hy', hy⟩
    · exact Float.beq_self_iff.mpr (ne_nan_of_isFinite h)
    · exact beq_of_beq_zero (mul_zero_beq hxfin hy') (mul_zero_beq hxfin hy)
  · exact beq_of_beq_zero (zero_mul_beq hx' (isFinite_of_beq hy hyfin)) (zero_mul_beq hx hyfin)

theorem div_congr_left (hx : (x' == x) = true) (hy : ¬ (y == 0) = true) (hnan : y ≠ Float.nan)
    (h : (x / y).isFinite = true) : (x' / y == x / y) = true := by
  rcases eq_or_zero_of_beq hx with rfl | ⟨hx', hx⟩
  · exact Float.beq_self_iff.mpr (ne_nan_of_isFinite h)
  · exact beq_of_beq_zero (zero_div_beq hx' hy hnan) (zero_div_beq hx hy hnan)

end NumericArrays.Binary64
