import NumericArrays.Proofs.Mat.Search

/-! Exact arithmetic: what the algorithms on matrices are made of, over the rational, the real or the complex
    numbers. -/
namespace NumericArrays

/-! ### Exact numbers -/

namespace Exact

/-- Real numbers with roots, and with the bound of 64-bit numbers for what counts as small. -/
noncomputable scoped instance : RealScalar ℝ where
  magnitude := abs
  sqrt := Real.sqrt
  ofNat n := n
  epsilon := 1 / 2 ^ 52

/-- Real or complex numbers as entries of matrices. -/
noncomputable scoped instance {𝕜 : Type} [RCLike 𝕜] : MatrixScalar 𝕜 ℝ where
  conj := starRingEnd 𝕜
  modulus x := ‖x‖
  re := RCLike.re
  ofReal x := (x : 𝕜)
  normSq := RCLike.normSq

/-- Rational numbers as entries of matrices. -/
scoped instance : MatrixScalar ℚ ℚ where
  conj x := x
  modulus x := |x|
  re x := x
  ofReal x := x
  normSq x := x * x

end Exact

/-- A modulus that is exact: it is zero at zero only, and the modulus of a product is the product of the
    moduli. -/
class ExactModulus (K : Type) (R : outParam Type) [Field K] [Field R] [LinearOrder R]
    [MatrixScalar K R] : Prop where
  modulus_nonneg : ∀ x : K, 0 ≤ MatrixScalar.modulus x
  modulus_eq_zero : ∀ {x : K}, MatrixScalar.modulus x = 0 ↔ x = 0
  modulus_mul : ∀ x y : K,
    MatrixScalar.modulus (x * y) = MatrixScalar.modulus x * MatrixScalar.modulus y

namespace Exact

scoped instance {𝕜 : Type} [RCLike 𝕜] : ExactModulus 𝕜 ℝ where
  modulus_nonneg := norm_nonneg
  modulus_eq_zero := norm_eq_zero
  modulus_mul := norm_mul

scoped instance : ExactModulus ℚ ℚ where
  modulus_nonneg := abs_nonneg
  modulus_eq_zero := abs_eq_zero
  modulus_mul := abs_mul

end Exact

namespace Mat

open scoped Matrix

/-! ### Matrices and columns of the library -/

section Entries

variable {K : Type} {m n p : Nat}

def toMatrix (a : Mat K m n) : Matrix (Fin m) (Fin n) K := .of a.entry

@[simp] theorem toMatrix_apply (a : Mat K m n) (i : Fin m) (j : Fin n) : a.toMatrix i j = a.entry i j :=
  rfl

theorem eq_of_toMatrix {a b : Mat K m n} (h : a.toMatrix = b.toMatrix) : a = b :=
  ext_entry fun i j => congrFun₂ h i j

theorem get_map {α β : Type} (f : α → β) (v : Vector α n) (i : Fin n) : (v.map f).get i = f (v.get i) := by
  change (v.map f)[i.val] = f v[i.val]
  simp

theorem col_mapColumns (f : Vector K m → Vector K p) (a : Mat K m n) (j : Fin n) :
    (a.mapColumns f).toMatrix.col j = (f (a.columns.get j)).get := by
  funext i
  change ((a.columns.map f).get j).get i = _
  rw [get_map]

theorem col_toMatrix (a : Mat K m n) (j : Fin n) : a.toMatrix.col j = (a.columns.get j).get := rfl

theorem col_mul [NonUnitalNonAssocSemiring K] (a : Matrix (Fin m) (Fin n) K) (x : Matrix (Fin n) (Fin p) K)
    (j : Fin p) : (a * x).col j = a *ᵥ x.col j := rfl

theorem get_push_last {α : Type} (v : Vector α n) (x : α) : (v.push x).get (Fin.last n) = x := by
  change (v.push x)[n] = x
  rw [Vector.getElem_push_eq]

theorem get_push_castSucc {α : Type} (v : Vector α n) (x : α) (i : Fin n) : (v.push x).get i.castSucc = v.get i := by
  change (v.push x)[i.val] = v[i.val]
  rw [Vector.getElem_push_lt i.isLt]

/-- A vector with two places exchanged, read through the exchange. -/
theorem get_swap {α : Type} (v : Vector α n) (i j k : Fin n) :
    (v.swap i j i.isLt j.isLt).get k = v.get (Equiv.swap i j k) := by
  change (v.swap i j i.isLt j.isLt)[k.val] = v.get (Equiv.swap i j k)
  rw [Vector.getElem_swap]
  by_cases hi : k = i
  · subst hi
    rw [if_pos rfl, Equiv.swap_apply_left]
    rfl
  · rw [if_neg (Fin.val_ne_of_ne hi)]
    by_cases hj : k = j
    · subst hj
      rw [if_pos rfl, Equiv.swap_apply_right]
      rfl
    · rw [if_neg (Fin.val_ne_of_ne hj), Equiv.swap_apply_of_ne_of_ne hi hj]
      rfl

theorem swap_of_lt {c i r : Fin n} (hi : c ≤ i) (hr : r < c) : Equiv.swap c i r = r :=
  Equiv.swap_apply_of_ne_of_ne (by omega) (by omega)

theorem le_swap {c i r : Fin n} (hi : c ≤ i) (hr : c ≤ r) : c ≤ Equiv.swap c i r := by
  rw [Equiv.swap_apply_def]
  split
  · exact hi
  · split
    · exact le_refl c
    · exact hr

theorem bijective_get_swap {v : Vector (Fin n) n} (hv : Function.Bijective v.get) (i j : Fin n) :
    Function.Bijective (v.swap i j i.isLt j.isLt).get := by
  have hget : (v.swap i j i.isLt j.isLt).get = v.get ∘ Equiv.swap i j := funext (get_swap v i j)
  rw [hget]
  exact hv.comp (Equiv.swap i j).bijective

theorem bijective_get_ofFn_id : Function.Bijective (Vector.ofFn (id : Fin n → Fin n)).get := by
  have hget : (Vector.ofFn (id : Fin n → Fin n)).get = id := funext (get_ofFn id)
  rw [hget]
  exact Function.bijective_id

theorem entry_swapRows (a : Mat K m n) (i k r : Fin m) (j : Fin n) :
    (a.swapRows i k).entry r j = a.entry (Equiv.swap i k r) j := by
  unfold swapRows mapColumns entry
  rw [get_map, get_swap]

theorem entry_swapColumns (a : Mat K m n) (j k c : Fin n) (i : Fin m) :
    (a.swapColumns j k).entry i c = a.entry i (Equiv.swap j k c) := by
  unfold swapColumns entry
  rw [get_swap]

end Entries

/-- Lengths squared as a product. -/
theorem star_dotProduct_self {𝕜 : Type} [RCLike 𝕜] {n : Nat} (x : Fin n → 𝕜) :
    star x ⬝ᵥ x = ((∑ i, ‖x i‖ ^ 2 : ℝ) : 𝕜) := by
  rw [dotProduct, RCLike.ofReal_sum]
  apply Finset.sum_congr rfl
  intro i _
  rw [RCLike.ofReal_pow]
  exact RCLike.conj_mul (x i)

/-! ### Loops as sums -/

section Loops

variable {n k : Nat} {ι M : Type} [AddCommGroup M]

theorem foldl_add_eq_sum (f : ι → M) (l : List ι) (a : M) :
    l.foldl (fun s i => s + f i) a = a + (l.map f).sum := by
  induction l generalizing a with
  | nil => simp
  | cons i l ih => rw [List.foldl_cons, ih, List.map_cons, List.sum_cons, add_assoc]

theorem foldl_sub_eq_sum (f : ι → M) (l : List ι) (a : M) :
    l.foldl (fun s i => s - f i) a = a - (l.map f).sum := by
  induction l generalizing a with
  | nil => simp
  | cons i l ih => rw [List.foldl_cons, ih, List.map_cons, List.sum_cons, sub_sub]

theorem foldl_finRange_sub (f : Fin n → M) (a : M) :
    (List.finRange n).foldl (fun s i => s - f i) a = a - ∑ i, f i := by
  rw [foldl_sub_eq_sum, Fin.sum_univ_def]

theorem after_eq_toFinset (c : Fin n) : (after c).toFinset = Finset.Ioi c := by
  ext i
  simp [after]

theorem foldl_after_add (f : Fin n → M) (c : Fin n) (a : M) :
    (after c).foldl (fun s i => s + f i) a = a + ∑ i ∈ Finset.Ioi c, f i := by
  have hnodup : (after c).Nodup := (List.nodup_finRange n).filter _
  rw [foldl_add_eq_sum, ← after_eq_toFinset, List.sum_toFinset f hnodup]

theorem foldl_after_sub (f : Fin n → M) (c : Fin n) (a : M) :
    (after c).foldl (fun s i => s - f i) a = a - ∑ i ∈ Finset.Ioi c, f i := by
  have hnodup : (after c).Nodup := (List.nodup_finRange n).filter _
  rw [foldl_sub_eq_sum, ← after_eq_toFinset, List.sum_toFinset f hnodup]

/-- The indices before `i`, counted on their own. -/
theorem sum_castLE (f : Fin n → M) (i : Fin n) (h : i.val ≤ n) :
    ∑ j : Fin i.val, f (j.castLE h) = ∑ j ∈ Finset.Iio i, f j := by
  apply Finset.sum_bij (fun j _ => j.castLE h)
  · intro j _
    exact Finset.mem_Iio.2 j.isLt
  · intro j _ j' _ hj
    exact Fin.castLE_injective h hj
  · intro j hj
    have hlt : j < i := Finset.mem_Iio.1 hj
    exact ⟨⟨j, hlt⟩, Finset.mem_univ _, rfl⟩
  · intro j _
    rfl

theorem sum_ite_Ici (f : Fin n → M) (i : Fin n) :
    ∑ j, (if j < i then 0 else f j) = ∑ j ∈ Finset.Ici i, f j := by
  have hterm (j : Fin n) : (if j < i then 0 else f j) = if j ∈ Finset.Ici i then f j else 0 := by
    rw [← ite_not]
    simp only [not_lt, Finset.mem_Ici]
  simp only [hterm, Finset.sum_ite_mem, Finset.univ_inter]

theorem sum_ite_Iic (f : Fin n → M) (i : Fin n) :
    ∑ j, (if i < j then 0 else f j) = ∑ j ∈ Finset.Iic i, f j := by
  have hterm (j : Fin n) : (if i < j then 0 else f j) = if j ∈ Finset.Iic i then f j else 0 := by
    rw [← ite_not]
    simp only [not_lt, Finset.mem_Iic]
  simp only [hterm, Finset.sum_ite_mem, Finset.univ_inter]

/-- A sum whose terms are zero from `k` on. -/
theorem sum_eq_sum_castLE (h : k ≤ n) (f : Fin n → M) (hf : ∀ i : Fin n, k ≤ i.val → f i = 0) :
    ∑ i, f i = ∑ i : Fin k, f (i.castLE h) := by
  refine Eq.trans ?_ (Finset.sum_map Finset.univ (Fin.castLEEmb h) f)
  symm
  apply Finset.sum_subset (Finset.subset_univ _)
  intro i _ hi
  apply hf
  by_contra hlt
  apply hi
  simp only [Finset.mem_map, Finset.mem_univ, true_and]
  exact ⟨⟨i, not_le.1 hlt⟩, rfl⟩

end Loops

end Mat
end NumericArrays
