import NumericArrays.Proofs.Mat.Exact

/-! Reflections: their matrices, and the reflection that clears a column. -/
namespace NumericArrays.PivotedQR

open Mat (after toMatrix)
open scoped Exact Matrix

variable {𝕜 : Type} [RCLike 𝕜] {m : Nat}

/-! ### Along a vector -/

/-- The matrix that takes off `t` times the component along `w`. -/
def mirror (t : 𝕜) (w : Fin m → 𝕜) : Matrix (Fin m) (Fin m) 𝕜 := 1 - t • Matrix.vecMulVec w (star w)

theorem mirror_mulVec (t : 𝕜) (w x : Fin m → 𝕜) : mirror t w *ᵥ x = x - (t * (star w ⬝ᵥ x)) • w := by
  rw [mirror, Matrix.sub_mulVec, Matrix.one_mulVec, Matrix.smul_mulVec, Matrix.vecMulVec_mulVec]
  funext i
  simp only [Pi.sub_apply, Pi.smul_apply, smul_eq_mul, MulOpposite.smul_eq_mul_unop, MulOpposite.unop_op]
  ring

/-- What a mirror has to satisfy to keep lengths, and to be undone by being applied twice. -/
structure Reflecting (h : Matrix (Fin m) (Fin m) 𝕜) : Prop where
  hermitian : hᴴ = h
  involutive : h * h = 1

theorem Reflecting.mirror_zero (w : Fin m → 𝕜) : Reflecting (mirror 0 w) := by
  have hone : mirror 0 w = 1 := by rw [mirror, zero_smul, sub_zero]
  rw [hone]
  exact ⟨Matrix.conjTranspose_one, one_mul 1⟩

/-- A real factor that is twice the inverse of the square of the length. -/
theorem Reflecting.mirror {t : 𝕜} {w : Fin m → 𝕜} (ht : star t = t) (hw : t * (star w ⬝ᵥ w) = 2) :
    Reflecting (mirror t w) where
  hermitian := by
    rw [PivotedQR.mirror, Matrix.conjTranspose_sub, Matrix.conjTranspose_one, Matrix.conjTranspose_smul,
      Matrix.conjTranspose_vecMulVec, star_star, ht]
  involutive := by
    have hsquare : (t • Matrix.vecMulVec w (star w)) * (t • Matrix.vecMulVec w (star w)) =
        (2 : 𝕜) • t • Matrix.vecMulVec w (star w) := by
      rw [Matrix.smul_mul, Matrix.mul_smul, Matrix.vecMulVec_mul_vecMulVec, Matrix.vecMulVec_smul,
        smul_smul t (star w ⬝ᵥ w), hw, smul_comm]
    rw [PivotedQR.mirror, sub_mul, one_mul, mul_sub, mul_one, hsquare, two_smul]
    abel

/-! ### Along a stored vector -/

def direction (c : Fin m) (v : Vector 𝕜 m) (i : Fin m) : 𝕜 :=
  if i < c then 0 else if i = c then 1 else v.get i

section Direction

variable (c : Fin m) (v : Vector 𝕜 m)

theorem direction_of_lt {i : Fin m} (h : i < c) : direction c v i = 0 := if_pos h

theorem direction_self : direction c v c = 1 := by
  rw [direction, if_neg (lt_irrefl c), if_pos rfl]

theorem direction_of_gt {i : Fin m} (h : c < i) : direction c v i = v.get i := by
  rw [direction, if_neg (lt_asymm h), if_neg (ne_of_gt h)]

theorem direction_congr {v v' : Vector 𝕜 m} (h : ∀ i, c < i → v.get i = v'.get i) :
    direction c v = direction c v' := by
  funext i
  rcases lt_trichotomy i c with hi | rfl | hi
  · rw [direction_of_lt c v hi, direction_of_lt c v' hi]
  · rw [direction_self, direction_self]
  · rw [direction_of_gt c v hi, direction_of_gt c v' hi, h i hi]

/-- The component of `x` along the vector. -/
theorem star_direction_dotProduct (x : Fin m → 𝕜) :
    star (direction c v) ⬝ᵥ x = ∑ i ∈ Finset.Ioi c, starRingEnd 𝕜 (v.get i) * x i + x c := by
  have hsupport : ∑ i, star (direction c v) i * x i = ∑ i ∈ Finset.Ici c, star (direction c v) i * x i := by
    symm
    apply Finset.sum_subset (Finset.subset_univ _)
    intro i _ hi
    have hlt : i < c := not_le.1 fun h => hi (Finset.mem_Ici.2 h)
    rw [Pi.star_apply, direction_of_lt c v hlt, star_zero, zero_mul]
  have hafter : ∑ i ∈ Finset.Ioi c, star (direction c v) i * x i =
      ∑ i ∈ Finset.Ioi c, starRingEnd 𝕜 (v.get i) * x i := by
    apply Finset.sum_congr rfl
    intro i hi
    rw [Pi.star_apply, direction_of_gt c v (Finset.mem_Ioi.1 hi)]
    rfl
  rw [dotProduct, hsupport, ← Finset.Ioi_insert, Finset.sum_insert (by simp), hafter, Pi.star_apply,
    direction_self, star_one, one_mul, add_comm]

/-- Reflecting a column is applying the mirror of its vector. -/
theorem reflect_get [DecidableEq 𝕜] (t : 𝕜) (x : Vector 𝕜 m) :
    (reflect c v t x).get = mirror t (direction c v) *ᵥ x.get := by
  funext i
  rw [mirror_mulVec, star_direction_dotProduct, Pi.sub_apply, Pi.smul_apply, smul_eq_mul, reflect,
    Mat.get_ofFn, Mat.foldl_after_add, zero_add]
  rcases lt_trichotomy i c with hi | rfl | hi
  · rw [if_pos hi, direction_of_lt c v hi, mul_zero, sub_zero]
  · rw [if_neg (lt_irrefl i), if_pos rfl, direction_self, mul_one, mul_comm t]
    rfl
  · rw [if_neg (lt_asymm hi), if_neg (ne_of_gt hi), direction_of_gt c v hi, mul_comm t]
    rfl

/-- A column without entries from row `c` on stays as it is. -/
theorem mirror_direction_of_zero (t : 𝕜) (x : Fin m → 𝕜) (hx : ∀ i, c ≤ i → x i = 0) :
    mirror t (direction c v) *ᵥ x = x := by
  have hsum : ∑ i ∈ Finset.Ioi c, starRingEnd 𝕜 (v.get i) * x i = 0 := by
    apply Finset.sum_eq_zero
    intro i hi
    rw [hx i (le_of_lt (Finset.mem_Ioi.1 hi)), mul_zero]
  rw [mirror_mulVec, star_direction_dotProduct, hsum, hx c (le_refl c), add_zero, mul_zero, zero_smul,
    sub_zero]

end Direction

/-! ### Clearing a column -/

/-- A number of the given length in the direction of `x`: both are multiples of one number on the unit
    circle. -/
theorem directed_spec [DecidableEq 𝕜] (length : ℝ) (x : 𝕜) :
    ∃ u : 𝕜, starRingEnd 𝕜 u * u = 1 ∧ x = (‖x‖ : 𝕜) * u ∧ directed length x = (length : 𝕜) * u := by
  by_cases hx : ‖x‖ = 0
  · refine ⟨1, by simp, by simp [norm_eq_zero.1 hx], ?_⟩
    simp [directed, MatrixScalar.modulus, MatrixScalar.ofReal, hx]
  · have hne : (‖x‖ : 𝕜) ≠ 0 := by exact_mod_cast hx
    refine ⟨x / (‖x‖ : 𝕜), ?_, (mul_div_cancel₀ x hne).symm, ?_⟩
    · rw [RCLike.conj_mul, norm_div, RCLike.norm_ofReal, abs_norm, div_self hx]
      simp
    · simp [directed, MatrixScalar.modulus, MatrixScalar.ofReal, hx]

section Clearing

variable {c : Fin m} {x : Fin m → 𝕜} {length q : ℝ} {u : 𝕜} {v : Vector 𝕜 m}

/-- A sum of multiples of the squares below row `c`, where `length` is the length of the column from row `c`
    on. -/
theorem sum_below (hqx : q = ‖x c‖ + length) (hsum : length ^ 2 = ∑ i ∈ Finset.Ici c, ‖x i‖ ^ 2)
    {f : Fin m → 𝕜} {k : 𝕜} (hf : ∀ i, c < i → f i = (‖x i‖ : 𝕜) ^ 2 * k) :
    ∑ i ∈ Finset.Ioi c, f i = (length - ‖x c‖) * q * k := by
  have hreal : ∑ i ∈ Finset.Ioi c, ‖x i‖ ^ 2 = (length - ‖x c‖) * q := by
    rw [← Finset.Ioi_insert, Finset.sum_insert (by simp)] at hsum
    rw [hqx]
    linear_combination -hsum
  have hsquares : ∑ i ∈ Finset.Ioi c, (‖x i‖ : 𝕜) ^ 2 = (length - ‖x c‖) * q := by
    exact_mod_cast congrArg (fun y : ℝ => (y : 𝕜)) hreal
  rw [← hsquares, Finset.sum_mul]
  exact Finset.sum_congr rfl fun i hi => hf i (Finset.mem_Ioi.1 hi)

section Vector

variable (hq : (q : 𝕜) ≠ 0) (hqx : q = ‖x c‖ + length)
  (hsum : length ^ 2 = ∑ i ∈ Finset.Ici c, ‖x i‖ ^ 2)
  (hv : ∀ i, c < i → v.get i = x i * (starRingEnd 𝕜 u / q))

include hq hqx hsum hv

/-- The component along the vector of the column it is made from. -/
theorem component_of_column (hx : x c = (‖x c‖ : 𝕜) * u) : star (direction c v) ⬝ᵥ x = length * u := by
  have hterm : ∀ i, c < i → starRingEnd 𝕜 (v.get i) * x i = (‖x i‖ : 𝕜) ^ 2 * (u / q) := by
    intro i hi
    rw [hv i hi, map_mul, map_div₀, RCLike.conj_conj, RCLike.conj_ofReal, ← RCLike.conj_mul]
    ring
  rw [star_direction_dotProduct, sum_below hqx hsum hterm]
  calc ((length : 𝕜) - ‖x c‖) * q * (u / q) + x c = (length - ‖x c‖) * u + x c := by field_simp
    _ = length * u := by linear_combination hx

/-- The square of the length of the vector. -/
theorem length_of_direction (hu : starRingEnd 𝕜 u * u = 1) :
    star (direction c v) ⬝ᵥ direction c v = 2 * length / q := by
  have hterm : ∀ i, c < i → starRingEnd 𝕜 (v.get i) * direction c v i = (‖x i‖ : 𝕜) ^ 2 * (1 / q ^ 2) := by
    intro i hi
    rw [direction_of_gt c v hi, hv i hi, map_mul, map_div₀, RCLike.conj_conj, RCLike.conj_ofReal,
      ← RCLike.conj_mul]
    linear_combination (starRingEnd 𝕜 (x i) * x i * (1 / q ^ 2)) * hu
  have hcast : (‖x c‖ : 𝕜) + length = q := by rw [hqx, RCLike.ofReal_add]
  rw [star_direction_dotProduct, sum_below hqx hsum hterm, direction_self]
  calc ((length : 𝕜) - ‖x c‖) * q * (1 / q ^ 2) + 1 = (length - ‖x c‖ + q) / q := by field_simp
    _ = 2 * length / q := by
      rw [← hcast]
      ring

end Vector

/-- The reflection that turns `x`, from row `c` on, into a multiple of the unit vector of row `c`. -/
theorem clearing (hu : starRingEnd 𝕜 u * u = 1) (hx : x c = (‖x c‖ : 𝕜) * u) (hlength : 0 < length)
    (hsum : length ^ 2 = ∑ i ∈ Finset.Ici c, ‖x i‖ ^ 2)
    (hv : ∀ i, c < i → v.get i = x i * (1 / (x c + length * u))) :
    let t := (x c + length * u) / (length * u)
    x c + length * u ≠ 0 ∧ star t = t ∧ t * (star (direction c v) ⬝ᵥ direction c v) = 2 ∧
      t * (star (direction c v) ⬝ᵥ x) = x c + length * u := by
  intro t
  have hu0 : u ≠ 0 := right_ne_zero_of_mul_eq_one hu
  have hl0 : (length : 𝕜) ≠ 0 := by exact_mod_cast ne_of_gt hlength
  obtain ⟨q, hq⟩ : ∃ q, q = ‖x c‖ + length := ⟨_, rfl⟩
  have hq0 : (q : 𝕜) ≠ 0 := by
    have hpos : 0 < q := hq ▸ add_pos_of_nonneg_of_pos (norm_nonneg _) hlength
    exact_mod_cast ne_of_gt hpos
  have hlead : x c + length * u = q * u := by
    rw [hq, RCLike.ofReal_add, add_mul, ← hx]
  have hentry (i : Fin m) (hi : c < i) : v.get i = x i * (starRingEnd 𝕜 u / q) := by
    have hinverse : 1 / ((q : 𝕜) * u) = starRingEnd 𝕜 u / q := by
      field_simp
      rw [mul_comm]
      exact hu.symm
    rw [hv i hi, hlead, hinverse]
  have ht : t = q / length := by
    change (x c + length * u) / (length * u) = _
    rw [hlead, mul_div_mul_right _ _ hu0]
  rw [ht, component_of_column hq0 hq hsum hentry hx, length_of_direction hq0 hq hsum hentry hu, hlead]
  refine ⟨mul_ne_zero hq0 hu0, ?_, ?_, ?_⟩
  · rw [star_div₀]
    simp
  · field_simp
  · field_simp

/-- What the reflection leaves of the column: nothing below row `c`. -/
theorem mirror_clears {t lead : 𝕜} (hlead : lead ≠ 0) (hv : ∀ i, c < i → v.get i = x i * (1 / lead))
    (hcomponent : t * (star (direction c v) ⬝ᵥ x) = lead) (i : Fin m) :
    (mirror t (direction c v) *ᵥ x) i = if i < c then x i else if i = c then x c - lead else 0 := by
  rw [mirror_mulVec, hcomponent, Pi.sub_apply, Pi.smul_apply, smul_eq_mul]
  rcases lt_trichotomy i c with hi | rfl | hi
  · rw [direction_of_lt c v hi, if_pos hi, mul_zero, sub_zero]
  · rw [direction_self, if_neg (lt_irrefl i), if_pos rfl, mul_one]
  · have hcancel : lead * (x i * (1 / lead)) = x i := by field_simp
    rw [direction_of_gt c v hi, hv i hi, if_neg (lt_asymm hi), if_neg (ne_of_gt hi), hcancel, sub_self]

end Clearing

/-! ### One after another -/

section Sequence

variable {ι : Type} (h : ι → Matrix (Fin m) (Fin m) 𝕜)

def inOrder (l : List ι) : Matrix (Fin m) (Fin m) 𝕜 := (l.map h).reverse.prod

theorem inOrder_cons (s : ι) (l : List ι) : inOrder h (s :: l) = inOrder h l * h s := by
  simp [inOrder]

theorem inOrder_concat (s : ι) (l : List ι) : inOrder h (l ++ [s]) = h s * inOrder h l := by
  simp [inOrder]

theorem foldl_get (step : ι → Vector 𝕜 m → Vector 𝕜 m) (hstep : ∀ s x, (step s x).get = h s *ᵥ x.get)
    (l : List ι) (x : Vector 𝕜 m) :
    (l.foldl (fun x s => step s x) x).get = inOrder h l *ᵥ x.get := by
  induction l generalizing x with
  | nil => simp [inOrder]
  | cons s l ih => rw [List.foldl_cons, ih, hstep, inOrder_cons, Matrix.mulVec_mulVec]

variable (hreflecting : ∀ s, Reflecting (h s))
include hreflecting

theorem foldr_get (step : ι → Vector 𝕜 m → Vector 𝕜 m) (hstep : ∀ s x, (step s x).get = h s *ᵥ x.get)
    (l : List ι) (x : Vector 𝕜 m) :
    (l.foldr step x).get = (inOrder h l)ᴴ *ᵥ x.get := by
  induction l with
  | nil => simp [inOrder]
  | cons s l ih =>
    rw [List.foldr_cons, hstep, ih, inOrder_cons, Matrix.conjTranspose_mul, (hreflecting s).hermitian,
      Matrix.mulVec_mulVec]

/-- Turning back: the same reflections, from the last on. -/
theorem conjTranspose_inOrder (l : List ι) : (inOrder h l)ᴴ = (l.map h).prod := by
  induction l with
  | nil => simp [inOrder]
  | cons s l ih =>
    rw [inOrder_cons, Matrix.conjTranspose_mul, (hreflecting s).hermitian, ih, List.map_cons, List.prod_cons]

theorem inOrder_unitary (l : List ι) : (inOrder h l)ᴴ * inOrder h l = 1 := by
  induction l with
  | nil => simp [inOrder]
  | cons s l ih =>
    calc (inOrder h (s :: l))ᴴ * inOrder h (s :: l)
        = h s * ((inOrder h l)ᴴ * inOrder h l) * h s := by
          rw [inOrder_cons, Matrix.conjTranspose_mul, (hreflecting s).hermitian]
          simp only [Matrix.mul_assoc]
      _ = 1 := by rw [ih, Matrix.mul_one, (hreflecting s).involutive]

end Sequence

end NumericArrays.PivotedQR
