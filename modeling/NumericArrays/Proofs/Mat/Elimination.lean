import NumericArrays.Proofs.Mat.Triangular

/-! Elimination with exchanged rows: what is left of the matrix at any time, what the factors solve, and that
    only singular matrices have none. -/
namespace NumericArrays.LU

open Mat (after toMatrix)
open MatrixScalar (modulus)
open ExactModulus (modulus_nonneg modulus_eq_zero)
open scoped Matrix

variable {𝕜 R : Type} [Field 𝕜] [BEq 𝕜] [Field R] [LinearOrder R] [MatrixScalar 𝕜 R]
variable [ExactModulus 𝕜 R] {n : Nat}

/-! ### One column -/

omit [Field 𝕜] [BEq 𝕜] [Field R] [ExactModulus 𝕜 R] in
/-- No number from the diagonal on has a larger modulus. -/
theorem le_pivot (a : Mat 𝕜 n n) {c i : Fin n} (hi : c ≤ i) : modulus (a.entry i c) ≤ (pivot a c).2 := by
  obtain ⟨hfirst, hrest⟩ :=
    Mat.le_foldl_larger (fun i => modulus (a.entry i c)) (after c) (c, modulus (a.entry c c))
  rcases eq_or_lt_of_le hi with rfl | hlt
  · exact hfirst
  · exact hrest i (Mat.mem_after.2 hlt)

/-- There is no step if the column is zero from the diagonal on. -/
theorem step_eq_none {f : LU 𝕜 n} {c i : Fin n} (h : step f c = none) (hi : c ≤ i) :
    f.packed.entry i c = 0 := by
  simp only [step, ite_eq_left_iff, beq_iff_eq, reduceCtorEq, imp_false, not_not] at h
  have hle := le_pivot f.packed hi
  rw [h] at hle
  exact modulus_eq_zero.1 (le_antisymm hle (modulus_nonneg _))

/-- What a step does: some row on or below the diagonal, with a number other than zero in the column, is
    brought to the diagonal, and the column is cleared below it. No number below it has a larger
    modulus. -/
theorem step_eq_some {f g : LU 𝕜 n} {c : Fin n} (h : step f c = some g) :
    ∃ i, c ≤ i ∧ (f.packed.swapRows c i).entry c c ≠ 0 ∧
      (∀ r, c ≤ r → modulus ((f.packed.swapRows c i).entry r c) ≤
        modulus ((f.packed.swapRows c i).entry c c)) ∧
      g = ⟨clearColumn (f.packed.swapRows c i) c, f.perm.swap c i c.isLt i.isLt⟩ := by
  obtain ⟨i, hle, hi, hne, hg⟩ := step_spec h
  have hsize : (pivot f.packed c).2 = modulus (f.packed.entry i c) := by
    rw [hi]
    exact (pivot_place f.packed c).2
  refine ⟨i, hle, ?_, ?_, hg⟩
  · rw [Mat.entry_swapRows, Equiv.swap_apply_left]
    intro hzero
    apply hne
    rw [hsize, modulus_eq_zero.2 hzero, beq_self_eq_true]
  · intro r hr
    rw [Mat.entry_swapRows, Mat.entry_swapRows, Equiv.swap_apply_left, ← hsize]
    exact le_pivot f.packed (Mat.le_swap hle hr)

theorem entry_clearColumn (a : Mat 𝕜 n n) (c i j : Fin n) :
    (clearColumn a c).entry i j =
      if i ≤ c ∨ j < c then a.entry i j
      else if j = c then a.entry i c / a.entry c c
      else a.entry i j - a.entry c j * (a.entry i c / a.entry c c) := by
  rw [entry_clear, mul_one_div]

/-! ### Any number of columns -/

/-- The upper factor after `k` columns, with what is left of the matrix below it. -/
def upperUpTo (w : Mat 𝕜 n n) (k : Nat) (i j : Fin n) : 𝕜 :=
  if i ≤ j ∨ k ≤ j.val then w.entry i j else 0

/-- The columns of the lower factor that row `i` reaches into after `k` columns. -/
def reach (n k : Nat) (i : Fin n) : Finset (Fin n) := {p | p < i ∧ p.val < k}

section Bookkeeping

variable {w : Mat 𝕜 n n} {k : Nat} {c i : Fin n}

theorem mem_reach {p : Fin n} : p ∈ reach n k i ↔ p < i ∧ p.val < k := by
  simp [reach]

/-- In the end a row reaches into all columns before the diagonal. -/
theorem reach_all (i : Fin n) : reach n n i = Finset.Iio i := by
  ext p
  simp [reach]

theorem reach_swap {r : Fin n} (hc : c.val = k) (hi : c ≤ i) :
    reach n k (Equiv.swap c i r) = reach n k r := by
  by_cases hr : r < c
  · rw [Mat.swap_of_lt hi hr]
  · have hle : c ≤ Equiv.swap c i r := Mat.le_swap hi (not_lt.1 hr)
    ext p
    rw [mem_reach, mem_reach]
    omega

theorem reach_succ_of_le (hc : c.val = k) (hi : i ≤ c) : reach n (k + 1) i = reach n k i := by
  ext p
  rw [mem_reach, mem_reach]
  omega

/-- A row below the pivot reaches into one column more. -/
theorem reach_succ_of_gt (hc : c.val = k) (hi : c < i) : reach n (k + 1) i = insert c (reach n k i) := by
  ext p
  rw [Finset.mem_insert, mem_reach, mem_reach]
  omega

omit [BEq 𝕜] in
theorem upperUpTo_swapRows {r j : Fin n} (hc : c.val = k) (hi : c ≤ i) :
    upperUpTo (w.swapRows c i) k r j = upperUpTo w k (Equiv.swap c i r) j := by
  unfold upperUpTo
  rw [Mat.entry_swapRows]
  by_cases hr : r < c
  · rw [Mat.swap_of_lt hi hr]
  · have hle : c ≤ Equiv.swap c i r := Mat.le_swap hi (not_lt.1 hr)
    congr 1
    simp only [eq_iff_iff]
    omega

/-- Rows up to the pivot and columns before it stay. -/
theorem entry_clearColumn_of_le {j : Fin n} (h : i ≤ c ∨ j < c) :
    (clearColumn w c).entry i j = w.entry i j := by
  rw [entry_clearColumn, if_pos h]

theorem upperUpTo_of_le {j : Fin n} (hc : c.val = k) (hi : i ≤ c) :
    upperUpTo (clearColumn w c) (k + 1) i j = upperUpTo w k i j := by
  unfold upperUpTo
  rw [entry_clearColumn_of_le (Or.inl hi)]
  congr 1
  simp only [eq_iff_iff]
  omega

end Bookkeeping

/-- Clearing column `c` splits what is left of a row below it into a multiple of row `c` and the rest. -/
theorem upperUpTo_below {w : Mat 𝕜 n n} {k : Nat} {c i j : Fin n} (hc : c.val = k) (hi : c < i)
    (hpivot : w.entry c c ≠ 0) :
    upperUpTo w k i j =
      (clearColumn w c).entry i c * upperUpTo w k c j + upperUpTo (clearColumn w c) (k + 1) i j := by
  have hmultiplier : (clearColumn w c).entry i c = w.entry i c / w.entry c c := by
    rw [entry_clearColumn, if_neg (by omega), if_pos rfl]
  rcases lt_trichotomy j c with hj | rfl | hj
  · have hrow : upperUpTo w k i j = 0 := if_neg (by omega)
    have htop : upperUpTo w k c j = 0 := if_neg (by omega)
    have hrest : upperUpTo (clearColumn w c) (k + 1) i j = 0 := if_neg (by omega)
    rw [hrow, htop, hrest, mul_zero, add_zero]
  · have hrow : upperUpTo w k i j = w.entry i j := if_pos (by omega)
    have htop : upperUpTo w k j j = w.entry j j := if_pos (by omega)
    have hrest : upperUpTo (clearColumn w j) (k + 1) i j = 0 := if_neg (by omega)
    rw [hrow, htop, hrest, hmultiplier, div_mul_cancel₀ _ hpivot, add_zero]
  · have hrow : upperUpTo w k i j = w.entry i j := if_pos (by omega)
    have htop : upperUpTo w k c j = w.entry c j := if_pos (by omega)
    have hrest : upperUpTo (clearColumn w c) (k + 1) i j =
        w.entry i j - w.entry c j * (w.entry i c / w.entry c c) := by
      rw [upperUpTo, if_pos (by omega), entry_clearColumn, if_neg (by omega), if_neg (by omega)]
    rw [hrow, htop, hrest, hmultiplier]
    ring

/-- After `k` columns: the rows are the rows of the matrix in another order, the pivots are not zero, and
    the factors multiply to the matrix. -/
structure Stage (a : Mat 𝕜 n n) (k : Nat) (f : LU 𝕜 n) : Prop where
  rows : Function.Bijective f.perm.get
  pivots : ∀ p : Fin n, p.val < k → f.packed.entry p p ≠ 0
  product : ∀ i j, a.entry (f.perm.get i) j =
    ∑ p ∈ reach n k i, f.packed.entry i p * upperUpTo f.packed k p j + upperUpTo f.packed k i j

namespace Stage

variable {a : Mat 𝕜 n n} {f g : LU 𝕜 n}

omit [BEq 𝕜] in
theorem start (a : Mat 𝕜 n n) : Stage a 0 ⟨a, .ofFn id⟩ where
  rows := Mat.bijective_get_ofFn_id
  pivots p hp := absurd hp (Nat.not_lt_zero _)
  product i j := by
    rw [Mat.get_ofFn]
    simp [reach, upperUpTo]

omit [BEq 𝕜] in
/-- Rows that are still to be eliminated may change places. -/
theorem exchange {k : Nat} {c i : Fin n} (s : Stage a k f) (hc : c.val = k) (hi : c ≤ i) :
    Stage a k ⟨f.packed.swapRows c i, f.perm.swap c i c.isLt i.isLt⟩ where
  rows := Mat.bijective_get_swap s.rows c i
  pivots p hp := by
    rw [Mat.entry_swapRows, Mat.swap_of_lt hi (by omega)]
    exact s.pivots p hp
  product r j := by
    rw [Mat.get_swap, s.product, reach_swap hc hi, upperUpTo_swapRows hc hi]
    congr 1
    apply Finset.sum_congr rfl
    intro p hp
    have hpc : p < c := by
      rw [mem_reach] at hp
      omega
    rw [Mat.entry_swapRows, upperUpTo_swapRows hc hi, Mat.swap_of_lt hi hpc]

/-- Clearing the next column. -/
theorem clear {k : Nat} {c : Fin n} (s : Stage a k f) (hc : c.val = k) (hpivot : f.packed.entry c c ≠ 0) :
    Stage a (k + 1) ⟨clearColumn f.packed c, f.perm⟩ where
  rows := s.rows
  pivots p hp := by
    rw [entry_clearColumn_of_le (Or.inl (by omega))]
    by_cases hpc : p = c
    · rw [hpc]
      exact hpivot
    · exact s.pivots p (by omega)
  product i j := by
    have hbefore : ∑ p ∈ reach n k i, (clearColumn f.packed c).entry i p *
          upperUpTo (clearColumn f.packed c) (k + 1) p j =
        ∑ p ∈ reach n k i, f.packed.entry i p * upperUpTo f.packed k p j := by
      apply Finset.sum_congr rfl
      intro p hp
      have hpc : p < c := by
        rw [mem_reach] at hp
        omega
      rw [entry_clearColumn_of_le (Or.inr hpc), upperUpTo_of_le hc (le_of_lt hpc)]
    rw [s.product]
    by_cases hi : i ≤ c
    · rw [reach_succ_of_le hc hi, hbefore, upperUpTo_of_le hc hi]
    · have hnew : c ∉ reach n k i := by
        rw [mem_reach]
        omega
      rw [reach_succ_of_gt hc (not_le.1 hi), Finset.sum_insert hnew, hbefore, upperUpTo_of_le hc (le_refl c),
        upperUpTo_below hc (not_le.1 hi) hpivot]
      ring

theorem step {k : Nat} {c : Fin n} (s : Stage a k f) (hc : c.val = k) (h : f.step c = some g) :
    Stage a (k + 1) g := by
  obtain ⟨i, hi, hpivot, -, rfl⟩ := step_eq_some h
  exact (s.exchange hc hi).clear hc hpivot

end Stage

omit [ExactModulus 𝕜 R] in
/-- What holds before the first column, and after each column if it holds before, holds throughout. -/
theorem factorUpTo_induction {P : Nat → LU 𝕜 n → Prop} {a : Mat 𝕜 n n} (hstart : P 0 ⟨a, .ofFn id⟩)
    (hstep : ∀ (c : Fin n) (f g : LU 𝕜 n), P c f → step f c = some g → P (c + 1) g) (k : Nat) (hk : k ≤ n)
    (f : LU 𝕜 n) (h : factorUpTo a k hk = some f) : P k f := by
  induction k generalizing f with
  | zero =>
    obtain rfl := Option.some.inj h
    exact hstart
  | succ k ih =>
    obtain ⟨e, he, hlast⟩ := Option.bind_eq_some_iff.1 h
    exact hstep ⟨k, hk⟩ e f (ih _ e he) hlast

theorem stage_of_factorUpTo (a : Mat 𝕜 n n) (k : Nat) (hk : k ≤ n) (f : LU 𝕜 n)
    (h : factorUpTo a k hk = some f) : Stage a k f :=
  factorUpTo_induction (.start a) (fun _ _ _ s hstep => s.step rfl hstep) k hk f h

/-! ### Systems -/

omit [BEq 𝕜] in
/-- A row of the upper factor, which begins in column `q`, applied to `x`. -/
theorem sum_upperUpTo {w : Mat 𝕜 n n} {k : Nat} {p q : Fin n}
    (hq : ∀ j : Fin n, p ≤ j ∨ k ≤ j.val ↔ q ≤ j) (x : Fin n → 𝕜) :
    ∑ j, upperUpTo w k p j * x j = ∑ j ∈ Finset.Ici q, w.entry p j * x j := by
  have hterm (j : Fin n) : upperUpTo w k p j * x j = if j < q then 0 else w.entry p j * x j := by
    unfold upperUpTo
    by_cases hj : j < q
    · rw [if_neg (fun h => absurd ((hq j).1 h) (not_le.2 hj)), if_pos hj, zero_mul]
    · rw [if_pos ((hq j).2 (not_lt.1 hj)), if_neg hj]
  simp only [hterm]
  rw [Mat.sum_ite_Ici]

omit [BEq 𝕜] in
/-- The matrix applied to `x`: the lower factor applied to what the upper one makes of `x`. -/
theorem Stage.mulVec {a : Mat 𝕜 n n} {k : Nat} {f : LU 𝕜 n} (s : Stage a k f) (x : Fin n → 𝕜) (i : Fin n) :
    (a.toMatrix *ᵥ x) (f.perm.get i) =
      ∑ p ∈ reach n k i, f.packed.entry i p * ∑ j, upperUpTo f.packed k p j * x j +
        ∑ j, upperUpTo f.packed k i j * x j := by
  have hentries : (a.toMatrix *ᵥ x) (f.perm.get i) =
      ∑ j, (∑ p ∈ reach n k i, f.packed.entry i p * upperUpTo f.packed k p j +
        upperUpTo f.packed k i j) * x j := by
    simp only [Matrix.mulVec, dotProduct, Mat.toMatrix_apply, s.product]
  rw [hentries]
  simp only [add_mul, Finset.sum_add_distrib, Finset.sum_mul, Finset.mul_sum, mul_assoc]
  rw [Finset.sum_comm]

/-- What the factors make of a right-hand side solves the system. -/
theorem solveColumn_solves {a : Mat 𝕜 n n} {f : LU 𝕜 n} (h : factor? a = some f) (b : Vector 𝕜 n) :
    a.toMatrix *ᵥ (f.solveColumn b).get = b.get := by
  have s : Stage a n f := stage_of_factorUpTo a n (le_refl n) f h
  let y := (Mat.forward f.packed.entry (fun _ x => x) fun i => b.get (f.perm.get i)).get
  have hupper (p : Fin n) : ∑ j, upperUpTo f.packed n p j * (f.solveColumn b).get j = y p := by
    rw [sum_upperUpTo (q := p) (by omega)]
    exact Mat.backward_solves f.packed.entry y (fun p => s.pivots p p.isLt) p
  funext r
  obtain ⟨i, rfl⟩ := s.rows.surjective r
  have hy : y i = b.get (f.perm.get i) - ∑ p ∈ Finset.Iio i, f.packed.entry i p * y p :=
    Mat.forward_get _ _ _ i
  rw [s.mulVec, reach_all]
  simp only [hupper]
  rw [hy]
  ring

/-- The same for any number of right-hand sides. -/
theorem mul_mapColumns_solveColumn {a : Mat 𝕜 n n} {f : LU 𝕜 n} (h : factor? a = some f) {k : Nat}
    (b : Mat 𝕜 n k) : a.toMatrix * (b.mapColumns f.solveColumn).toMatrix = b.toMatrix := by
  apply Matrix.ext_col
  intro j
  rw [Mat.col_mul, Mat.col_mapColumns, solveColumn_solves h, Mat.col_toMatrix]

/-! ### Singular matrices -/

section Singular

variable {w : Mat 𝕜 n n} {c : Fin n}

/-- The leading unknowns that make up for column `c`. -/
noncomputable def compensation (w : Mat 𝕜 n n) (c : Fin n) : Vector 𝕜 c.val :=
  Mat.backward
    (fun i j => w.entry (i.castLE (Nat.le_of_lt c.isLt)) (j.castLE (Nat.le_of_lt c.isLt)))
    (fun i => -w.entry (i.castLE (Nat.le_of_lt c.isLt)) c)

/-- Numbers that the upper factor takes to zero if column `c` is zero from the diagonal on. -/
noncomputable def nullColumn (w : Mat 𝕜 n n) (c j : Fin n) : 𝕜 :=
  if h : j < c then (compensation w c).get ⟨j, h⟩ else if j = c then 1 else 0

omit [BEq 𝕜] in
theorem nullColumn_self : nullColumn w c c = 1 := by
  rw [nullColumn, dif_neg (lt_irrefl c), if_pos rfl]

omit [BEq 𝕜] in
theorem nullColumn_of_gt {j : Fin n} (h : c < j) : nullColumn w c j = 0 := by
  rw [nullColumn, dif_neg (lt_asymm h), if_neg (ne_of_gt h)]

omit [BEq 𝕜] in
/-- Rows before the column: the leading unknowns make up for it. -/
theorem sum_nullColumn_of_lt (hpivots : ∀ p, p < c → w.entry p p ≠ 0) {p : Fin n} (hp : p < c) :
    ∑ j ∈ Finset.Ici p, w.entry p j * nullColumn w c j = 0 := by
  have hc : c.val ≤ n := Nat.le_of_lt c.isLt
  have hsolved :
      ∑ j ∈ Finset.Ici ⟨p, hp⟩, w.entry p (j.castLE hc) * (compensation w c).get j = -w.entry p c :=
    Mat.backward_solves (fun i j : Fin c.val => w.entry (i.castLE hc) (j.castLE hc))
      (fun i => -w.entry (i.castLE hc) c) (fun i => hpivots _ i.isLt) ⟨p, hp⟩
  have hleading (j : Fin c.val) :
      (if (j.castSucc.castLE c.isLt : Fin n) < p then 0
        else w.entry p (j.castSucc.castLE c.isLt) * nullColumn w c (j.castSucc.castLE c.isLt)) =
      if j < ⟨p, hp⟩ then 0 else w.entry p (j.castLE hc) * (compensation w c).get j := by
    have hget : nullColumn w c (j.castLE hc) = (compensation w c).get j := dif_pos j.isLt
    rw [← hget]
    rfl
  have hafter (j : Fin n) (hj : c.val + 1 ≤ j.val) :
      (if j < p then 0 else w.entry p j * nullColumn w c j) = 0 := by
    rw [nullColumn_of_gt hj, mul_zero, ite_self]
  have hlast : (Fin.last c.val).castLE c.isLt = c := rfl
  rw [← Mat.sum_ite_Ici, Mat.sum_eq_sum_castLE c.isLt _ hafter, Fin.sum_univ_castSucc, hlast,
    if_neg (lt_asymm hp), nullColumn_self, mul_one]
  simp only [hleading]
  rw [Mat.sum_ite_Ici, hsolved, neg_add_cancel]

omit [BEq 𝕜] in
/-- Rows from the column on: there is nothing to make up for. -/
theorem sum_nullColumn_of_le (hzero : ∀ i, c ≤ i → w.entry i c = 0) {p : Fin n} (hp : c ≤ p) :
    ∑ j ∈ Finset.Ici c, w.entry p j * nullColumn w c j = 0 := by
  apply Finset.sum_eq_zero
  intro j hj
  rcases eq_or_lt_of_le (Finset.mem_Ici.1 hj) with rfl | hlt
  · rw [hzero p hp, zero_mul]
  · rw [nullColumn_of_gt hlt, mul_zero]

omit [BEq 𝕜] in
/-- A matrix is singular if elimination leaves a column that is zero from the diagonal on. -/
theorem Stage.mulVec_nullColumn {a : Mat 𝕜 n n} {k : Nat} {f : LU 𝕜 n} (s : Stage a k f) (hc : c.val = k)
    (hzero : ∀ i, c ≤ i → f.packed.entry i c = 0) : a.toMatrix *ᵥ nullColumn f.packed c = 0 := by
  have hupper (p : Fin n) : ∑ j, upperUpTo f.packed k p j * nullColumn f.packed c j = 0 := by
    by_cases hp : p < c
    · rw [sum_upperUpTo (q := p) (by omega)]
      exact sum_nullColumn_of_lt (fun q hq => s.pivots q (by omega)) hp
    · rw [sum_upperUpTo (q := c) (by omega)]
      exact sum_nullColumn_of_le hzero (not_lt.1 hp)
  funext r
  obtain ⟨i, rfl⟩ := s.rows.surjective r
  rw [s.mulVec]
  simp only [hupper, mul_zero, Finset.sum_const_zero, add_zero, Pi.zero_apply]

theorem exists_null_of_factorUpTo {a : Mat 𝕜 n n} (k : Nat) (hk : k ≤ n) (h : factorUpTo a k hk = none) :
    ∃ x : Fin n → 𝕜, x ≠ 0 ∧ a.toMatrix *ᵥ x = 0 := by
  induction k with
  | zero => cases h
  | succ k ih =>
    cases he : factorUpTo a k (Nat.le_of_succ_le hk) with
    | none => exact ih _ he
    | some e =>
      have hstep : step e ⟨k, hk⟩ = none := by
        rw [factorUpTo, he, Option.bind_some] at h
        exact h
      refine ⟨nullColumn e.packed ⟨k, hk⟩, ?_, ?_⟩
      · intro hnull
        have hone : nullColumn e.packed ⟨k, hk⟩ ⟨k, hk⟩ = 1 := nullColumn_self
        rw [hnull] at hone
        exact zero_ne_one hone
      · exact (stage_of_factorUpTo a k _ e he).mulVec_nullColumn rfl fun i hi => step_eq_none hstep hi

/-- There are no factors exactly if the matrix is singular. -/
theorem factor?_eq_none_iff (a : Mat 𝕜 n n) :
    factor? a = none ↔ ∃ x : Fin n → 𝕜, x ≠ 0 ∧ a.toMatrix *ᵥ x = 0 := by
  constructor
  · exact exists_null_of_factorUpTo n (le_refl n)
  · rintro ⟨x, hx, hnull⟩
    cases hf : factor? a with
    | none => rfl
    | some f =>
      have hsurjective : Function.Surjective a.toMatrix.mulVecLin := by
        intro g
        have hsolves := solveColumn_solves hf (.ofFn g)
        have hget : (Vector.ofFn g).get = g := funext (Mat.get_ofFn g)
        rw [hget] at hsolves
        exact ⟨_, hsolves⟩
      have hinjective := LinearMap.injective_iff_surjective.2 hsurjective
      have hzero : a.toMatrix.mulVecLin x = a.toMatrix.mulVecLin 0 := by
        rw [map_zero]
        exact hnull
      exact absurd (hinjective hzero) hx

end Singular

end NumericArrays.LU
