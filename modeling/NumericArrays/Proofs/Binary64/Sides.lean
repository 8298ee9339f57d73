import NumericArrays.Proofs.Binary64.Integral
import NumericArrays.Proofs.Binary64.Root

/-! The side of zero that results lie on. Numbers on the same side cannot cancel, so sums of them are as large
    as their terms and quotients of such sums do not vanish; only squares do, of numbers too small. -/
namespace NumericArrays.Binary64

open Float.Model

variable {x y z x' y' : Float} {u v : UnpackedFloat} {a b r r' : ℚ}

/-! ### Finite sums and rounded numbers in order -/

theorem isFinite_of_unpacked_add (h : (UnpackedFloat.add .binary64 u v).isFinite = true) :
    u.isFinite = true ∧ v.isFinite = true := by
  have hneg : v.neg.neg = v := by
    cases v with
    | notANumber => rfl
    | infinity s | zero s | finite s => cases s <;> rfl
  have hfinite : v.neg.isFinite = v.isFinite := by cases v <;> rfl
  rw [← hneg, ← unpacked_sub_eq_add_neg] at h
  exact hfinite ▸ isFinite_of_unpacked_sub h

theorem isFinite_of_add (h : (x + y).isFinite = true) : x.isFinite = true ∧ y.isFinite = true :=
  isFinite_of_unpacked_add (isFinite_of_pack h)

namespace Rounds

theorem value_mono (hx : Rounds r x) (hy : Rounds r' y) (h : r ≤ r') : value x ≤ value y :=
  value_le_iff.mpr (hx.mono hy h)

theorem nonneg (h : Rounds r x) (hr : 0 ≤ r) : 0 ≤ value x := by
  have hzero := Rounds.of_value (show (0 : Float) ≠ nan by decide)
  rw [value_zero] at hzero
  exact value_zero ▸ hzero.value_mono h hr

theorem nonpos (h : Rounds r x) (hr : r ≤ 0) : value x ≤ 0 := by
  have hzero := Rounds.of_value (show (0 : Float) ≠ nan by decide)
  rw [value_zero] at hzero
  exact value_zero ▸ h.value_mono hzero hr

/-- Rounding does not take a number to the other side of zero. -/
theorem same_side (h : Rounds r x) (hr : 0 ≤ a * r) : 0 ≤ a * value x := by
  rcases mul_nonneg_iff.mp hr with ⟨ha, hr⟩ | ⟨ha, hr⟩
  · exact mul_nonneg ha (h.nonneg hr)
  · exact mul_nonneg_of_nonpos_of_nonpos ha (h.nonpos hr)

/-- What is rounded from a number between zero and one that is rounded to a finite number is finite too. -/
theorem below (hx : Rounds r x) (hy : Rounds r' y) (hr : 0 ≤ r) (h : r ≤ r') (hfinite : y.isFinite = true) :
    x.isFinite = true ∧ 0 ≤ value x ∧ value x ≤ value y := by
  have hnonneg := value_nonneg_iff.mp (hx.nonneg hr)
  have hrank := hx.mono hy h
  refine ⟨?_, hx.nonneg hr, hx.value_mono hy h⟩
  rw [isFinite_iff, ← natAbs_rank] at hfinite ⊢
  omega

end Rounds

theorem value_congr (h : (x == y) = true) : value x = value y := by
  obtain ⟨hx, hy, -⟩ := Float.beq_iff_ne_nan_and_eq.mp h
  rw [value_eq_grid, value_eq_grid, (beq_iff_rank hx hy).mp h]

theorem value_of_beq_zero (h : (x == 0) = true) : value x = 0 := (value_congr h).trans value_zero

theorem beq_zero_iff_value (hx : x ≠ nan) : (x == 0) = true ↔ value x = 0 := by
  rw [beq_zero_iff_rank hx, value_eq_zero_iff]

/-- A finite quotient by an infinity is zero. -/
theorem div_beq_zero_of_infinite (h : (x / y).isFinite = true) (hy : ¬ y.isFinite = true) :
    (x / y == 0) = true := by
  obtain ⟨hu, hnan, -⟩ := isFinite_of_unpacked_div (isFinite_of_pack h)
  change ¬ y.toModel.unpack.isFinite = true at hy
  change (Float.ofModel (.pack (.div .binary64 x.toModel.unpack y.toModel.unpack)) == 0) = true
  generalize x.toModel.unpack = u at hu
  generalize y.toModel.unpack = v at hnan hy
  cases v with
  | notANumber => exact absurd rfl hnan
  | zero t | finite t m e hm => exact absurd rfl hy
  | infinity t =>
    cases u with
    | notANumber | infinity s => exact absurd hu Bool.false_ne_true
    | zero s | finite s m e hm => exact pack_zero_beq (s / t)

/-! ### Sides -/

/-- The number lies at zero or on the side of zero that `a` lies on, unless it is infinite or NaN. -/
def OnSide (a : ℚ) (x : Float) : Prop := x.isFinite = true → 0 ≤ a * value x

/-- The number is zero, unless it is infinite or NaN. -/
def Vanishes (x : Float) : Prop := x.isFinite = true → (x == 0) = true

theorem vanishes_zero_mul (x : Float) : Vanishes (0 * x) :=
  fun h => zero_mul_beq (by decide) (isFinite_of_mul h).2

theorem vanishes_mul_zero (x : Float) : Vanishes (x * 0) :=
  fun h => mul_zero_beq (isFinite_of_mul h).1 (by decide)

namespace OnSide

theorem of_value (x : Float) : OnSide (value x) x := fun _ => mul_self_nonneg _

theorem of_zero (x : Float) : OnSide 0 x := fun _ => (zero_mul _).ge

theorem one_iff : OnSide 1 x ↔ (x.isFinite = true → 0 ≤ value x) := by rw [OnSide, one_mul]

theorem mul (hx : OnSide a x) (hy : OnSide 1 y) : OnSide a (x * y) := by
  intro h
  obtain ⟨hxfin, hyfin⟩ := isFinite_of_mul h
  refine (rounds_mul hxfin hyfin).same_side ?_
  rw [← mul_assoc]
  exact mul_nonneg (hx hxfin) (one_iff.mp hy hyfin)

theorem nonneg_mul (hx : OnSide 1 x) (hy : OnSide a y) : OnSide a (x * y) := by
  have hcomm : x * y = y * x := commutative_mul.comm x y
  rw [hcomm]
  exact hy.mul hx

theorem mul_self (x : Float) : OnSide 1 (x * x) := by
  refine one_iff.mpr fun h => ?_
  obtain ⟨hx, -⟩ := isFinite_of_mul h
  exact (rounds_mul hx hx).nonneg (mul_self_nonneg _)

theorem div (hx : OnSide a x) (hy : OnSide 1 y) : OnSide a (x / y) := by
  intro h
  have hxfin := isFinite_of_div h
  by_cases hyfin : y.isFinite = true
  · have hy0 : rank y ≠ 0 := fun hzero => ne_zero_of_div h ((beq_zero_iff_rank (ne_nan_of_div h)).mpr hzero)
    refine (rounds_div hxfin hyfin hy0).same_side ?_
    rw [← mul_div_assoc]
    exact div_nonneg (hx hxfin) (one_iff.mp hy hyfin)
  · rw [value_of_beq_zero (div_beq_zero_of_infinite h hyfin), mul_zero]

theorem add_vanishing (hx : OnSide a x) (hz : Vanishes z) : OnSide a (x + z) := by
  intro h
  obtain ⟨hxfin, hzfin⟩ := isFinite_of_add h
  rw [value_congr (add_zero_beq (ne_nan_of_isFinite hxfin) (hz hzfin))]
  exact hx hxfin

theorem sub_vanishing (hx : OnSide a x) (hz : Vanishes z) : OnSide a (x - z) := by
  intro h
  obtain ⟨hxfin, hzfin⟩ := isFinite_of_sub h
  rw [value_congr (sub_zero_beq (ne_nan_of_isFinite hxfin) (hz hzfin))]
  exact hx hxfin

theorem sqrt (x : Float) : OnSide 1 x.sqrt := one_iff.mpr value_sqrt_nonneg

theorem abs (x : Float) : OnSide 1 x.abs := by
  refine one_iff.mpr fun h => ?_
  have hrank := not_abs_lt_zero x
  rwa [lt_iff_rank (ne_nan_of_isFinite h) (by decide), rank_zero, not_lt, ← value_nonneg_iff] at hrank

end OnSide

theorem isFinite_abs (hx : x.isFinite = true) : x.abs.isFinite = true := by
  rcases abs_eq_or_neg x with h | h
  · rwa [h]
  · rw [h]
    exact isFinite_neg hx

theorem value_abs (hx : x.isFinite = true) : value x.abs = |value x| := by
  have hnan := ne_nan_of_isFinite hx
  have hnonneg := OnSide.one_iff.mp (OnSide.abs x) (isFinite_abs hx)
  rcases abs_eq_or_neg x with h | h
  · rw [h] at hnonneg ⊢
    exact (abs_of_nonneg hnonneg).symm
  · rw [h, value_neg hnan] at hnonneg
    rw [h, value_neg hnan, abs_of_nonpos (neg_nonneg.mp hnonneg)]

/-! ### Quotients that do not vanish -/

/-- Rounding the quotient of a number by one that is no larger and on the same side does not lose it. -/
theorem not_div_beq_zero (hx : x.isFinite = true) (hy : y.isFinite = true)
    (h : value y * value y ≤ value x * value y) : ¬ (x / y == 0) = true := by
  intro hzero
  have hfinite := isFinite_of_beq_zero hzero
  have hy0 : value y ≠ 0 := fun h0 => ne_zero_of_div hfinite ((beq_zero_iff_value (ne_nan_of_isFinite hy)).mpr h0)
  have hone : 1 ≤ value x / value y := by
    have hpos : 0 < value y * value y := mul_self_pos.mpr hy0
    calc 1 = value y * value y / (value y * value y) := (div_self hpos.ne').symm
      _ ≤ value x * value y / (value y * value y) := div_le_div_of_nonneg_right h hpos.le
      _ = value x / value y := mul_div_mul_right _ _ hy0
  have hself := Rounds.of_value (show (1 : Float) ≠ nan by decide)
  have hle := hself.value_mono (rounds_div hx hy (mt value_eq_zero_iff.mpr hy0)) (by rwa [value_one])
  rw [value_one, value_of_beq_zero hzero] at hle
  linarith

/-- A sum of two numbers on one side is no smaller than either of them. -/
theorem mul_self_le_add_mul (hx : x.isFinite = true) (hy : OnSide (value x) y) (h : (x + y).isFinite = true) :
    y.isFinite = true ∧ value y * value y ≤ value (x + y) * value y := by
  have hyfin := (isFinite_of_add h).2
  have hsum := rounds_add hx hyfin
  have hself := Rounds.of_value (ne_nan_of_isFinite hyfin)
  refine ⟨hyfin, ?_⟩
  rcases mul_nonneg_iff.mp (hy hyfin) with ⟨hx0, hy0⟩ | ⟨hx0, hy0⟩
  · exact mul_le_mul_of_nonneg_right (hself.value_mono hsum (by linarith)) hy0
  · exact mul_le_mul_of_nonpos_right (hsum.value_mono hself (by linarith)) hy0

/-- A number is not lost when another one on its side is added to it and divides the sum. -/
theorem not_add_div_beq_zero (hx : x.isFinite = true) (hy : OnSide (value x) y) : ¬ ((x + y) / y == 0) = true := by
  intro hzero
  have hsum := isFinite_of_div (isFinite_of_beq_zero hzero)
  obtain ⟨hyfin, hle⟩ := mul_self_le_add_mul hx hy hsum
  exact not_div_beq_zero hsum hyfin hle hzero

/-- A square does not exceed the product with a larger number on the same side. -/
theorem mul_self_below (hx : x.isFinite = true) (hy : OnSide (value x) y) (h : ((x + y) * y).isFinite = true) :
    (y * y).isFinite = true ∧ 0 ≤ value (y * y) ∧ value (y * y) ≤ value ((x + y) * y) := by
  have hsum := (isFinite_of_mul h).1
  obtain ⟨hyfin, hle⟩ := mul_self_le_add_mul hx hy hsum
  exact (rounds_mul hyfin hyfin).below (rounds_mul hsum hyfin) (mul_self_nonneg _) hle h

/-- The same for two numbers, with the quotient written out as that of complex numbers is. -/
theorem not_add_mul_add_div_beq_zero (hx : x.isFinite = true) (hx' : x'.isFinite = true)
    (hy : OnSide (value x) y) (hy' : OnSide (value x') y') :
    ¬ (((x + y) * y + (x' + y') * y') / (y * y + y' * y') == 0) = true := by
  intro hzero
  have hnumerator := isFinite_of_div (isFinite_of_beq_zero hzero)
  obtain ⟨hfst, hsnd⟩ := isFinite_of_add hnumerator
  obtain ⟨hsquare, hnonneg, hle⟩ := mul_self_below hx hy hfst
  obtain ⟨hsquare', hnonneg', hle'⟩ := mul_self_below hx' hy' hsnd
  obtain ⟨hfinite, hpos, hbelow⟩ := (rounds_add hsquare hsquare').below (rounds_add hfst hsnd)
    (add_nonneg hnonneg hnonneg') (add_le_add hle hle') hnumerator
  exact not_div_beq_zero hnumerator hfinite (mul_le_mul_of_nonneg_right hbelow hpos) hzero

/-! ### Squares and sums of them -/

/-- The square is not above half the least number, so it is rounded to zero. -/
def Negligible (x : Float) : Prop := value x ^ 2 ≤ least / 2

instance (x : Float) : Decidable (Negligible x) := inferInstanceAs (Decidable (_ ≤ _))

theorem nearest_zero_iff (hr : 0 ≤ r) : Nearest r 0 ↔ r ≤ least / 2 := by
  have hgrid : grid 1 = least := by
    rw [grid_of_natAbs_le (by rw [exponentStep_eq]; decide), Int.cast_one, one_mul]
  have hmiddle : middle 0 = least / 2 := by rw [middle, grid_zero, zero_add, zero_add, hgrid]
  have hbelow : middle (0 - 1) < 0 := by
    have hlt := middle_lt_grid (0 - 1)
    rwa [sub_add_cancel, grid_zero] at hlt
  refine ⟨fun h => hmiddle ▸ h.le_middle, fun h => ⟨.inl (hbelow.trans_le hr), ?_⟩⟩
  rw [← hmiddle] at h
  exact h.lt_or_eq.imp_right fun heq => ⟨heq, Even.zero⟩

/-- The number is at zero or on the positive side, and may be infinite. -/
structure Nonneg (x : Float) : Prop where
  ne_nan : x ≠ nan
  rank_nonneg : 0 ≤ rank x

theorem nonneg_zero : Nonneg 0 := ⟨by decide, rank_zero.ge⟩

/-- The square of a finite number is zero exactly if the number is negligible. -/
theorem nonneg_mul_self (hx : x.isFinite = true) : Nonneg (x * x) ∧ (rank (x * x) = 0 ↔ Negligible x) := by
  have hsquare : 0 ≤ value x * value x := mul_self_nonneg _
  have hrounds := rounds_mul hx hx
  refine ⟨⟨hrounds.ne_nan, value_nonneg_iff.mp (hrounds.nonneg hsquare)⟩, ?_⟩
  obtain ⟨k, hk, hrank⟩ := hrounds.nearest
  have hclamp : clamp k = 0 ↔ k = 0 := by
    have hinf := infinityMagnitude_eq
    unfold clamp
    omega
  rw [hrank, hclamp, Negligible, sq, ← nearest_zero_iff hsquare]
  exact ⟨fun h => h ▸ hk, fun h => hk.unique h⟩

namespace Nonneg

theorem eq_infinity (hx : Nonneg x) (h : ¬ x.isFinite = true) : x = infinity := by
  have hle := magnitude_le hx.ne_nan
  rw [isFinite_iff] at h
  have hmagnitude : magnitude x = infinityMagnitude := by omega
  have hsign : isNegative x = false := by
    have hrank := hx.rank_nonneg
    rw [rank, hmagnitude, infinityMagnitude_eq] at hrank
    rw [Bool.eq_false_iff]
    intro hnegative
    rw [if_pos hnegative] at hrank
    omega
  exact ext_magnitude (hmagnitude.trans (by decide)) (hsign.trans (by decide))

theorem rank_le_add (hx : Nonneg x) (hy : Nonneg y) : x + y ≠ nan ∧ rank x ≤ rank (x + y) := by
  by_cases hxfin : x.isFinite = true
  · refine ⟨add_ne_nan hxfin hy.ne_nan, ?_⟩
    have hmono := rank_add_mono hxfin (by decide) hy.ne_nan (rank_zero ▸ hy.rank_nonneg : rank 0 ≤ rank y)
    rwa [(beq_iff_rank (add_ne_nan hxfin (by decide)) hx.ne_nan).mp (add_zero_beq hx.ne_nan (by decide))] at hmono
  · rw [hx.eq_infinity hxfin]
    have hcomm : infinity + y = y + infinity := commutative_add.comm _ _
    by_cases hyfin : y.isFinite = true
    · rw [hcomm]
      obtain ⟨hnan, hrank⟩ := rank_add_infinity hyfin (show magnitude infinity = infinityMagnitude by decide)
      exact ⟨hnan, hrank.ge⟩
    · rw [hy.eq_infinity hyfin]
      decide

/-- A sum of such numbers is zero exactly if both of them are. -/
theorem add (hx : Nonneg x) (hy : Nonneg y) :
    Nonneg (x + y) ∧ (rank (x + y) = 0 ↔ rank x = 0 ∧ rank y = 0) := by
  obtain ⟨hnan, hfst⟩ := hx.rank_le_add hy
  have hsnd := (hy.rank_le_add hx).2
  have hcomm : y + x = x + y := commutative_add.comm _ _
  rw [hcomm] at hsnd
  have hx0 := hx.rank_nonneg
  have hy0 := hy.rank_nonneg
  refine ⟨⟨hnan, hx0.trans hfst⟩, by omega, ?_⟩
  rintro ⟨hxzero, hyzero⟩
  have hsum := add_zero_beq hx.ne_nan ((beq_zero_iff_rank hy.ne_nan).mpr hyzero)
  rwa [beq_iff_rank hnan hx.ne_nan, hxzero] at hsum

/-- Added up one after the other, such numbers come to zero exactly if all of them are zero. -/
theorem foldl_add {ι : Type} {f : ι → Float} {l : List ι} (hf : ∀ i ∈ l, Nonneg (f i)) (hx : Nonneg x) :
    Nonneg (l.foldl (fun sum i => sum + f i) x) ∧
      (rank (l.foldl (fun sum i => sum + f i) x) = 0 ↔ rank x = 0 ∧ ∀ i ∈ l, rank (f i) = 0) := by
  induction l generalizing x with
  | nil => exact ⟨hx, by simp⟩
  | cons i l ih =>
    rw [List.forall_mem_cons] at hf ⊢
    obtain ⟨hsum, hzero⟩ := hx.add hf.1
    obtain ⟨hrest, hall⟩ := ih hf.2 hsum
    refine ⟨hrest, ?_⟩
    rw [List.foldl_cons, hall, hzero, and_assoc]

end Nonneg
end NumericArrays.Binary64
