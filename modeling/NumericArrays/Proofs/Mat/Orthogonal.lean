import NumericArrays.Proofs.Mat.Reflection

/-! Orthogonal-triangular factors with exchanged columns: what is left of the matrix at any time. -/
namespace NumericArrays.PivotedQR

open Mat (after toMatrix)
open scoped Exact Matrix

variable {𝕜 : Type} [RCLike 𝕜] {m n steps : Nat}

/-! ### The reflections of the factors -/

section Rotation

variable (f : PivotedQR 𝕜 m n steps) (hm : steps ≤ m) (hn : steps ≤ n)

/-- The reflection that a step has left in its column. -/
def reflection (s : Fin steps) : Matrix (Fin m) (Fin m) 𝕜 :=
  mirror (f.factors.get s) (direction (s.castLE hm) (f.packed.columns.get (s.castLE hn)))

def rotation : Matrix (Fin m) (Fin m) 𝕜 := inOrder (f.reflection hm hn) (List.finRange steps)

end Rotation

/-- Reflections do not depend on what is in the columns to come. -/
theorem reflection_congr {f g : PivotedQR 𝕜 m n steps} (hm : steps ≤ m) (hn : steps ≤ n)
    (hfactors : g.factors = f.factors)
    (hcolumns : ∀ j : Fin n, j.val < steps → g.packed.columns.get j = f.packed.columns.get j) :
    g.reflection hm hn = f.reflection hm hn := by
  funext s
  unfold reflection
  rw [hfactors, hcolumns _ s.isLt]

section Push

variable (f : PivotedQR 𝕜 m n steps) (w : Mat 𝕜 m n) (t : 𝕜) (hm : steps < m) (hn : steps < n)

theorem reflection_last :
    (⟨w, f.factors.push t, f.perm⟩ : PivotedQR 𝕜 m n (steps + 1)).reflection hm hn (Fin.last steps) =
      mirror t (direction ⟨steps, hm⟩ (w.columns.get ⟨steps, hn⟩)) := by
  rw [reflection, Mat.get_push_last]
  rfl

variable (hkeep : ∀ j : Fin n, j.val < steps → w.columns.get j = f.packed.columns.get j)
include hkeep

theorem reflection_castSucc (s : Fin steps) :
    (⟨w, f.factors.push t, f.perm⟩ : PivotedQR 𝕜 m n (steps + 1)).reflection hm hn s.castSucc =
      f.reflection (Nat.le_of_lt hm) (Nat.le_of_lt hn) s := by
  unfold reflection
  rw [Mat.get_push_castSucc, hkeep _ s.isLt]
  rfl

/-- A further step turns what the steps before it have turned. -/
theorem rotation_push :
    (⟨w, f.factors.push t, f.perm⟩ : PivotedQR 𝕜 m n (steps + 1)).rotation hm hn =
      mirror t (direction ⟨steps, hm⟩ (w.columns.get ⟨steps, hn⟩)) *
        f.rotation (Nat.le_of_lt hm) (Nat.le_of_lt hn) := by
  have hmap (l : List (Fin steps)) (h : Fin (steps + 1) → Matrix (Fin m) (Fin m) 𝕜) :
      inOrder h (l.map Fin.castSucc) = inOrder (fun s => h s.castSucc) l := by
    simp [inOrder, List.map_map, Function.comp_def]
  rw [rotation, List.finRange_succ_last, inOrder_concat, reflection_last, hmap, rotation]
  simp only [reflection_castSucc f w t hm hn hkeep]

end Push

/-! ### One step -/

theorem lengthSq_eq (a : Mat 𝕜 m n) (c : Fin m) (j : Fin n) :
    lengthSq a c j = ∑ i ∈ Finset.Ici c, ‖a.entry i j‖ ^ 2 := by
  unfold lengthSq
  rw [List.foldl_cons, Mat.foldl_after_add, zero_add, ← Finset.Ioi_insert, Finset.sum_insert (by simp)]
  simp only [MatrixScalar.normSq, RCLike.normSq_eq_def']

theorem lengthSq_nonneg (a : Mat 𝕜 m n) (c : Fin m) (j : Fin n) : 0 ≤ lengthSq a c j := by
  rw [lengthSq_eq]
  exact Finset.sum_nonneg fun i _ => sq_nonneg _

/-- What a step does: some column, the longest of those to come, is brought next. If it is zero from the
    row of the step on, it stays; otherwise it is cleared below that row. -/
theorem step_cases [DecidableEq 𝕜] (f : PivotedQR 𝕜 m n steps) (hm : steps < m) (hn : steps < n) :
    ∃ j, ⟨steps, hn⟩ ≤ j ∧
      (∀ q, ⟨steps, hn⟩ ≤ q → lengthSq f.packed ⟨steps, hm⟩ q ≤ lengthSq f.packed ⟨steps, hm⟩ j) ∧
      let a := f.packed.swapColumns ⟨steps, hn⟩ j
      let perm := f.perm.swap steps j hn j.isLt
      ((∀ i, ⟨steps, hm⟩ ≤ i → a.entry i ⟨steps, hn⟩ = 0) ∧ f.step hm hn = ⟨a, f.factors.push 0, perm⟩) ∨
      ∃ length, 0 < length ∧ length ^ 2 = ∑ i ∈ Finset.Ici ⟨steps, hm⟩, ‖a.entry i ⟨steps, hn⟩‖ ^ 2 ∧
        let cleared :=
          clearColumn a ⟨steps, hm⟩ ⟨steps, hn⟩ (directed length (a.entry ⟨steps, hm⟩ ⟨steps, hn⟩))
        f.step hm hn = ⟨cleared.1, f.factors.push cleared.2, perm⟩ := by
  let c : Fin m := ⟨steps, hm⟩
  have hfirst : -1 < lengthSq f.packed c ⟨steps, hn⟩ :=
    lt_of_lt_of_le (by norm_num) (lengthSq_nonneg f.packed c ⟨steps, hn⟩)
  obtain ⟨j, hj, hpivot, hlongest⟩ :=
    exists_pivot (fun _ => True) id (fun _ _ => Iff.rfl) trivial hfirst fun _ _ => trivial
  refine ⟨j, hj, hlongest, ?_⟩
  intro a perm
  have hsum : lengthSq f.packed c j = ∑ i ∈ Finset.Ici c, ‖a.entry i ⟨steps, hn⟩‖ ^ 2 := by
    simp only [a, lengthSq_eq, Mat.entry_swapColumns, Equiv.swap_apply_left]
  have hnonneg : ¬ lengthSq f.packed c j < 0 := not_lt.2 (lengthSq_nonneg _ _ _)
  by_cases hzero : lengthSq f.packed c j = 0
  · left
    constructor
    · intro i hi
      have hall := (Finset.sum_eq_zero_iff_of_nonneg fun i _ => sq_nonneg _).1 (hsum.symm.trans hzero)
      exact norm_eq_zero.1 (pow_eq_zero_iff two_ne_zero |>.1 (hall i (Finset.mem_Ici.2 hi)))
    · simp [step, hpivot, c, a, perm, hzero]
  · right
    refine ⟨Real.sqrt (lengthSq f.packed c j), Real.sqrt_pos.2 (lt_of_le_of_ne (not_lt.1 hnonneg) (Ne.symm hzero)), ?_, ?_⟩
    · rw [Real.sq_sqrt (not_lt.1 hnonneg), hsum]
    · simp [step, hpivot, c, a, perm, hnonneg, hzero, RealScalar.sqrt]

section Clear

variable [DecidableEq 𝕜] (a : Mat 𝕜 m n) (c : Fin m) (d : Fin n) (sigma : 𝕜)

theorem clearColumn_columns_of_lt {j : Fin n} (h : j < d) :
    (clearColumn a c d sigma).1.columns.get j = a.columns.get j := by
  unfold clearColumn
  rw [Mat.get_ofFn, if_pos h]

section Entries

variable {i : Fin m}

theorem clearColumn_entry_above (h : i < c) : (clearColumn a c d sigma).1.entry i d = a.entry i d := by
  unfold clearColumn
  rw [Mat.entry, Mat.get_ofFn, if_neg (lt_irrefl d), if_pos rfl, Mat.get_ofFn, if_pos h]

theorem clearColumn_entry_diagonal : (clearColumn a c d sigma).1.entry c d = -sigma := by
  unfold clearColumn
  rw [Mat.entry, Mat.get_ofFn, if_neg (lt_irrefl d), if_pos rfl, Mat.get_ofFn, if_neg (lt_irrefl c), if_pos rfl]

theorem clearColumn_entry_below (h : c < i) :
    (clearColumn a c d sigma).1.entry i d = a.entry i d * (1 / (a.entry c d + sigma)) := by
  unfold clearColumn
  rw [Mat.entry, Mat.get_ofFn, if_neg (lt_irrefl d), if_pos rfl, Mat.get_ofFn, if_neg (lt_asymm h),
    if_neg (ne_of_gt h), Mat.get_ofFn]

end Entries

/-- The columns after the cleared one are reflected along the vector that it has become. -/
theorem clearColumn_columns_of_gt {j : Fin n} (h : d < j) :
    ((clearColumn a c d sigma).1.columns.get j).get =
      mirror (clearColumn a c d sigma).2 (direction c ((clearColumn a c d sigma).1.columns.get d)) *ᵥ
        (a.columns.get j).get := by
  have hvector : direction c ((clearColumn a c d sigma).1.columns.get d) =
      direction c (.ofFn fun i => a.entry i d * (1 / (a.entry c d + sigma))) := by
    apply direction_congr
    intro i hi
    rw [Mat.get_ofFn]
    exact clearColumn_entry_below a c d sigma hi
  rw [hvector, ← reflect_get]
  unfold clearColumn
  rw [Mat.get_ofFn, if_neg (lt_asymm h), if_neg (ne_of_gt h)]

end Clear

/-! ### Any number of steps -/

/-- After some steps: the columns are the columns of the matrix in another order, the reflections keep
    lengths, and turned by them the matrix is what is stored, with zeros below the diagonal of the steps
    made. -/
structure Stage (a : Mat 𝕜 m n) (f : PivotedQR 𝕜 m n steps) (hm : steps ≤ m) (hn : steps ≤ n) : Prop where
  columns : Function.Bijective f.perm.get
  reflecting : ∀ s, Reflecting (f.reflection hm hn s)
  triangular : ∀ i j, (f.rotation hm hn * a.toMatrix) i (f.perm.get j) =
    if j.val < steps ∧ j.val < i.val then 0 else f.packed.entry i j

namespace Stage

variable {a : Mat 𝕜 m n} {f : PivotedQR 𝕜 m n steps}

theorem start (a : Mat 𝕜 m n) : Stage a ⟨a, #v[], .ofFn id⟩ (Nat.zero_le m) (Nat.zero_le n) where
  columns := Mat.bijective_get_ofFn_id
  reflecting s := s.elim0
  triangular i j := by
    rw [Mat.get_ofFn]
    simp [rotation, inOrder]

/-- Columns to come may change places. -/
theorem exchange {hm : steps ≤ m} {hn : steps ≤ n} (s : Stage a f hm hn) {d j : Fin n} (hd : d.val = steps)
    (hj : d ≤ j) :
    Stage a ⟨f.packed.swapColumns d j, f.factors, f.perm.swap d j d.isLt j.isLt⟩ hm hn := by
  have hreflection : (⟨f.packed.swapColumns d j, f.factors, f.perm.swap d j d.isLt j.isLt⟩ :
      PivotedQR 𝕜 m n steps).reflection hm hn = f.reflection hm hn := by
    refine reflection_congr (f := f) hm hn rfl ?_
    intro q hq
    change (f.packed.columns.swap d j d.isLt j.isLt).get q = _
    rw [Mat.get_swap, Mat.swap_of_lt hj (by omega)]
  refine ⟨Mat.bijective_get_swap s.columns d j, ?_, ?_⟩
  · intro r
    rw [hreflection]
    exact s.reflecting r
  · intro i q
    have hrotation := s.triangular i (Equiv.swap d j q)
    rw [rotation, hreflection, Mat.get_swap, Mat.entry_swapColumns]
    rw [rotation] at hrotation
    rw [hrotation]
    by_cases hq : q < d
    · rw [Mat.swap_of_lt hj hq]
    · have hle : d ≤ Equiv.swap d j q := Mat.le_swap hj (not_lt.1 hq)
      rw [if_neg (by omega), if_neg (by omega)]

section Turned

variable {hm : steps ≤ m} {hn : steps ≤ n} {j : Fin n}

/-- A column to come, turned, is what is stored. -/
theorem turned_of_ge (s : Stage a f hm hn) (hj : steps ≤ j.val) :
    (fun r => (f.rotation hm hn * a.toMatrix) r (f.perm.get j)) = (f.packed.columns.get j).get := by
  funext r
  rw [s.triangular, if_neg (by omega)]
  rfl

/-- A finished column has nothing left for a further reflection. -/
theorem mirror_turned_of_lt (s : Stage a f hm hn) (hj : j.val < steps) {c : Fin m} (hc : steps ≤ c.val)
    (t : 𝕜) (v : Vector 𝕜 m) (i : Fin m) :
    (mirror t (direction c v) *ᵥ fun r => (f.rotation hm hn * a.toMatrix) r (f.perm.get j)) i =
      if j.val < i.val then 0 else f.packed.entry i j := by
  rw [mirror_direction_of_zero, s.triangular]
  · simp only [hj, true_and]
  · intro r hr
    have hlt : j.val < r.val := Nat.lt_of_lt_of_le hj (hc.trans (Fin.le_def.1 hr))
    rw [s.triangular, if_pos ⟨hj, hlt⟩]

end Turned

/-- A further step, whose reflection makes of the columns to come what is stored next. -/
theorem extend {hm : steps < m} {hn : steps < n} (s : Stage a f (Nat.le_of_lt hm) (Nat.le_of_lt hn))
    {w : Mat 𝕜 m n} {t : 𝕜}
    (hkeep : ∀ j : Fin n, j.val < steps → w.columns.get j = f.packed.columns.get j)
    (hreflecting : Reflecting (mirror t (direction ⟨steps, hm⟩ (w.columns.get ⟨steps, hn⟩))))
    (hturn : ∀ i j, steps ≤ j.val →
      (mirror t (direction ⟨steps, hm⟩ (w.columns.get ⟨steps, hn⟩)) *ᵥ (f.packed.columns.get j).get) i =
        if j.val = steps ∧ steps < i.val then 0 else w.entry i j) :
    Stage a (⟨w, f.factors.push t, f.perm⟩ : PivotedQR 𝕜 m n (steps + 1)) hm hn where
  columns := s.columns
  reflecting r := by
    induction r using Fin.lastCases with
    | last =>
      rw [reflection_last]
      exact hreflecting
    | cast r =>
      rw [reflection_castSucc f w t hm hn hkeep]
      exact s.reflecting r
  triangular i j := by
    rw [rotation_push f w t hm hn hkeep, Matrix.mul_assoc]
    change (mirror t _ *ᵥ fun r => (f.rotation _ _ * a.toMatrix) r (f.perm.get j)) i = _
    by_cases hj : j.val < steps
    · have hentry : w.entry i j = f.packed.entry i j := by
        rw [Mat.entry, hkeep j hj]
        rfl
      rw [s.mirror_turned_of_lt hj (le_refl steps), hentry]
      congr 1
      simp only [eq_iff_iff]
      omega
    · rw [s.turned_of_ge (not_lt.1 hj), hturn i j (not_lt.1 hj)]
      congr 1
      simp only [eq_iff_iff]
      omega

variable [DecidableEq 𝕜]

/-- Clearing the next column. -/
theorem clear {hm : steps < m} {hn : steps < n} (s : Stage a f (Nat.le_of_lt hm) (Nat.le_of_lt hn))
    {length : ℝ} (hlength : 0 < length)
    (hsum : length ^ 2 = ∑ i ∈ Finset.Ici ⟨steps, hm⟩, ‖f.packed.entry i ⟨steps, hn⟩‖ ^ 2) :
    let cleared := clearColumn f.packed ⟨steps, hm⟩ ⟨steps, hn⟩
      (directed length (f.packed.entry ⟨steps, hm⟩ ⟨steps, hn⟩))
    Stage a (⟨cleared.1, f.factors.push cleared.2, f.perm⟩ : PivotedQR 𝕜 m n (steps + 1)) hm hn := by
  let c : Fin m := ⟨steps, hm⟩
  let d : Fin n := ⟨steps, hn⟩
  obtain ⟨u, hu, hx, hsigma⟩ := directed_spec length (f.packed.entry c d)
  rw [hsigma]
  intro cleared
  have hvector (i : Fin m) (hi : c < i) : (cleared.1.columns.get d).get i =
      f.packed.entry i d * (1 / (f.packed.entry c d + length * u)) :=
    clearColumn_entry_below f.packed c d (length * u) hi
  obtain ⟨hlead, hreal, htwice, hcomponent⟩ :=
    clearing (x := fun i => f.packed.entry i d) hu hx hlength hsum hvector
  refine s.extend (fun j hj => clearColumn_columns_of_lt f.packed c d _ hj) (.mirror hreal htwice) ?_
  intro i j hj
  by_cases hjd : j.val = steps
  · obtain rfl : j = d := Fin.ext hjd
    refine (mirror_clears hlead hvector hcomponent i).trans ?_
    rcases lt_trichotomy i c with hi | rfl | hi
    · rw [if_pos hi, if_neg (fun h => lt_asymm hi h.2), clearColumn_entry_above f.packed c d _ hi]
    · rw [if_neg (lt_irrefl c), if_pos rfl, if_neg (fun h => lt_irrefl c h.2),
        clearColumn_entry_diagonal f.packed c d]
      ring
    · rw [if_neg (lt_asymm hi), if_neg (ne_of_gt hi), if_pos ⟨rfl, hi⟩]
  · have hlt : d < j := lt_of_le_of_ne hj fun h => hjd (congrArg Fin.val h).symm
    rw [if_neg (fun h => hjd h.1), Mat.entry, clearColumn_columns_of_gt f.packed c d _ hlt]

theorem step {hm : steps < m} {hn : steps < n} (s : Stage a f (Nat.le_of_lt hm) (Nat.le_of_lt hn)) :
    Stage a (f.step hm hn) hm hn := by
  obtain ⟨j, hj, -, ⟨hzero, hstep⟩ | ⟨length, hlength, hsum, hstep⟩⟩ := f.step_cases hm hn
  · rw [hstep]
    refine (s.exchange rfl hj).extend (fun _ _ => rfl) (Reflecting.mirror_zero _) ?_
    intro i q hq
    have hsame : mirror (0 : 𝕜) (direction ⟨steps, hm⟩
        ((f.packed.swapColumns ⟨steps, hn⟩ j).columns.get ⟨steps, hn⟩)) = 1 := by
      rw [mirror, zero_smul, sub_zero]
    rw [hsame, Matrix.one_mulVec]
    split
    · rename_i hbelow
      obtain rfl : q = ⟨steps, hn⟩ := Fin.ext hbelow.1
      exact hzero i (Nat.le_of_lt hbelow.2)
    · rfl
  · rw [hstep]
    exact (s.exchange rfl hj).clear hlength hsum

end Stage

theorem stage_factorUpTo [DecidableEq 𝕜] (a : Mat 𝕜 m n) (k : Nat) (hk : k ≤ min m n) :
    Stage a (factorUpTo a k hk) (by omega) (by omega) := by
  induction k with
  | zero => exact .start a
  | succ k ih => exact (ih _).step

end NumericArrays.PivotedQR
