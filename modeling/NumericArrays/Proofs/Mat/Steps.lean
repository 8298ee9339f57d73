import NumericArrays.Proofs.Mat.Exact

/-! Substitution and elimination step by step, on numbers of any type: nothing is used of their arithmetic. -/
namespace NumericArrays

namespace Mat

/-! ### Vectors that grow -/

section Vectors

variable {α : Type} {n : Nat}

theorem get_insertIdx_zero (v : Vector α n) (x : α) : (v.insertIdx 0 x).get 0 = x := by
  change (v.insertIdx 0 x)[0] = x
  rw [Vector.getElem_insertIdx_self]

theorem get_insertIdx_succ (v : Vector α n) (x : α) (s : Fin n) :
    (v.insertIdx 0 x).get s.succ = v.get s := by
  change (v.insertIdx 0 x)[s.val + 1] = v[s.val]
  rw [Vector.getElem_insertIdx_of_gt (by omega) (Nat.succ_pos _)]
  rfl

end Vectors

/-! ### Substitution -/

section Substitution

variable {K : Type} [Sub K] [Mul K] {r : Nat}

/-- Later unknowns leave the earlier ones as they are. -/
theorem forwardUpTo_get (l : Fin r → Fin r → K) (finish : Fin r → K → K) (c : Fin r → K) (k : Nat)
    (h : k ≤ r) (i : Fin k) :
    (forwardUpTo l finish c k h).get i = (forward l finish c).get (i.castLE h) := by
  -- one unknown more at a time, until there are `r`
  induction h using Nat.decreasingInduction with
  | self => rfl
  | of_succ k hk ih =>
    have hstep := ih i.castSucc
    rw [Fin.castLE_castSucc] at hstep
    rw [← hstep, forwardUpTo, Vector.get_push_castSucc]

/-- The index that is solved for after the last `k`. -/
theorem exists_eq_sub (i : Fin r) : ∃ (k : Nat) (hk : k < r), i = ⟨r - (k + 1), by omega⟩ := by
  refine ⟨r - (i + 1), by omega, ?_⟩
  ext
  simp only
  omega

/-- The indices after one are the last ones. -/
theorem after_eq_map (k : Nat) (hk : k < r) :
    after (⟨r - (k + 1), by omega⟩ : Fin r) =
      (List.finRange k).map fun s => ⟨r - k + s, by omega⟩ := by
  have hafter := (List.sortedLT_finRange r).pairwise.filter (⟨r - (k + 1), by omega⟩ < ·)
  have hmap := (List.sortedLT_finRange k).pairwise.map (S := (· < ·))
    (fun s : Fin k => (⟨r - k + s, by omega⟩ : Fin r)) fun s t hst => Nat.add_lt_add_left hst (r - k)
  refine hafter.eq_of_mem_iff hmap fun j => ?_
  simp only [List.mem_filter, List.mem_map, List.mem_finRange, true_and, decide_eq_true_eq, Fin.lt_def,
    Fin.ext_iff]
  constructor
  · intro hj
    exact ⟨⟨j - (r - k), by omega⟩, by simp only; omega⟩
  · rintro ⟨s, hs⟩
    omega

variable [Div K] (u : Fin r → Fin r → K) (c : Fin r → K)

/-- The earlier unknowns are put before the later ones. -/
theorem backwardUpTo_get (k : Nat) (h : k ≤ r) (s : Fin k) :
    (backwardUpTo u c k h).get s = (backward u c).get ⟨r - k + s, by omega⟩ := by
  induction h using Nat.decreasingInduction with
  | self => simp [backward]
  | of_succ k hk ih =>
    have hplace : (⟨r - (k + 1) + s.succ, by rw [Fin.val_succ]; omega⟩ : Fin r) = ⟨r - k + s, by omega⟩ := by
      ext
      simp only [Fin.val_succ]
      omega
    have hstep := ih s.succ
    rw [hplace] at hstep
    rw [← hstep, backwardUpTo, get_insertIdx_succ]

omit [Div K] in
/-- What is left of the right-hand side in row `i` when the unknowns after it have been taken off. -/
def remainder (x : Vector K r) (i : Fin r) : K :=
  (after i).foldl (fun rest j => rest - u i j * x.get j) (c i)

/-- Each unknown from what is left for it. -/
theorem backward_get_remainder (i : Fin r) :
    (backward u c).get i = remainder u c (backward u c) i / u i i := by
  obtain ⟨k, hk, rfl⟩ := exists_eq_sub i
  have hfirst : (backward u c).get ⟨r - (k + 1), by omega⟩ = (backwardUpTo u c (k + 1) hk).get 0 :=
    (backwardUpTo_get u c (k + 1) hk 0).symm
  rw [hfirst, backwardUpTo, get_insertIdx_zero, remainder, after_eq_map k hk, List.foldl_map]
  simp only [backwardUpTo_get]

end Substitution

end Mat

namespace LU

open Mat (after)

variable {K R : Type} [Arith K] [Arith R] [LT R] [DecidableLT R] [RealScalar R] [MatrixScalar K R]
variable {n : Nat}

/-! ### Elimination -/

omit [Arith K] [Arith R] [RealScalar R] in
/-- The pivot is on or below the diagonal, and its modulus comes with it. -/
theorem pivot_place (a : Mat K n n) (c : Fin n) :
    c ≤ (pivot a c).1 ∧ (pivot a c).2 = MatrixScalar.modulus (a.entry (pivot a c).1 c) := by
  apply Mat.foldl_larger (c ≤ ·) (fun i => MatrixScalar.modulus (a.entry i c))
  · intro i hi
    exact le_of_lt (Mat.mem_after.1 hi)
  · exact ⟨le_refl c, rfl⟩

omit [RealScalar R] in
/-- What a step does. -/
theorem step_spec {f g : LU K n} {c : Fin n} (h : step f c = some g) :
    ∃ i, c ≤ i ∧ i = (pivot f.packed c).1 ∧ ¬ ((pivot f.packed c).2 == 0) = true ∧
      g = ⟨clearColumn (f.packed.swapRows c i) c, f.perm.swap c i c.isLt i.isLt⟩ := by
  simp only [step, Option.ite_none_left_eq_some, Option.some.injEq] at h
  exact ⟨_, (pivot_place f.packed c).1, rfl, h.1, h.2.symm⟩

omit [Arith R] [LT R] [DecidableLT R] [RealScalar R] [MatrixScalar K R] in
theorem entry_clear (a : Mat K n n) (c i j : Fin n) :
    (clearColumn a c).entry i j =
      if i ≤ c ∨ j < c then a.entry i j
      else if j = c then a.entry i c * (1 / a.entry c c)
      else a.entry i j - a.entry c j * (a.entry i c * (1 / a.entry c c)) := by
  unfold clearColumn
  rw [Mat.entry_ofFn, Mat.get_ofFn]

end LU

end NumericArrays
