import Mathlib
import NumericArrays.Mat.Solve

/-! Searches for the largest of some sizes, among them the search for the column that a step of the
    orthogonal-triangular factorization brings next. Sizes may be floating-point numbers, which are compared
    as their places are. -/
namespace NumericArrays

namespace Mat

section After

variable {n : Nat} {c i : Fin n}

theorem mem_after : i ∈ after c ↔ c < i := by simp [after]

theorem mem_cons_after : i ∈ c :: after c ↔ c ≤ i := by
  rw [List.mem_cons, mem_after, le_iff_eq_or_lt, eq_comm]

end After

/-! ### Searches -/

section Searches

variable {ι : Type}

/-- A search for something larger ends at an index it has looked at, and with the size of that index. -/
theorem foldl_larger {R : Type} [LT R] [DecidableLT R] (P : ι → Prop) (size : ι → R) (l : List ι)
    (hl : ∀ i ∈ l, P i) (first : ι × R) (hfirst : P first.1 ∧ first.2 = size first.1) :
    let best := l.foldl (fun best i => if best.2 < size i then (i, size i) else best) first
    P best.1 ∧ best.2 = size best.1 := by
  refine List.foldlRecOn (motive := fun best : ι × R => P best.1 ∧ best.2 = size best.1) l _ hfirst ?_
  intro best hbest i hi
  split
  · exact ⟨hl i hi, rfl⟩
  · exact hbest

/-- Nothing it has looked at is larger, if sizes of the kind it meets compare like their keys. -/
theorem key_le_foldl_larger {R L : Type} [LT R] [DecidableLT R] [LinearOrder L] (P : R → Prop) (key : R → L)
    (hkey : ∀ {x y}, P x → P y → (x < y ↔ key x < key y)) (size : ι → R) (l : List ι) (hl : ∀ i ∈ l, P (size i))
    (first : ι × R) (hfirst : P first.2) :
    let best := l.foldl (fun best i => if best.2 < size i then (i, size i) else best) first
    key first.2 ≤ key best.2 ∧ ∀ i ∈ l, key (size i) ≤ key best.2 := by
  induction l generalizing first with
  | nil => simp
  | cons i l ih =>
    obtain ⟨hi, hl⟩ := List.forall_mem_cons.1 hl
    have hnext : P (if first.2 < size i then (i, size i) else first).2 ∧
        key first.2 ≤ key (if first.2 < size i then (i, size i) else first).2 ∧
        key (size i) ≤ key (if first.2 < size i then (i, size i) else first).2 := by
      split
      · rename_i hlt
        exact ⟨hi, le_of_lt ((hkey hfirst hi).1 hlt), le_refl _⟩
      · rename_i hle
        exact ⟨hfirst, le_refl _, not_lt.1 (mt (hkey hfirst hi).2 hle)⟩
    obtain ⟨hbest, hrest⟩ := ih hl _ hnext.1
    refine ⟨hnext.2.1.trans hbest, ?_⟩
    intro j hj
    rcases List.mem_cons.1 hj with rfl | hj
    · exact hnext.2.2.trans hbest
    · exact hrest j hj

theorem le_foldl_larger {R : Type} [LinearOrder R] (size : ι → R) (l : List ι) (first : ι × R) :
    let best := l.foldl (fun best i => if best.2 < size i then (i, size i) else best) first
    first.2 ≤ best.2 ∧ ∀ i ∈ l, size i ≤ best.2 :=
  key_le_foldl_larger (fun _ => True) id (fun _ _ => Iff.rfl) size l (fun _ _ => trivial) first trivial

end Searches

end Mat

namespace PivotedQR

variable {K R L : Type} [Arith R] [LT R] [DecidableLT R] [LinearOrder L] [MatrixScalar K R] {m n : Nat}

/-- The pivot is a column that none is longer than, and the square of its length comes with it. -/
theorem exists_pivot (P : R → Prop) (key : R → L) (hkey : ∀ {x y}, P x → P y → (x < y ↔ key x < key y))
    {a : Mat K m n} {c : Fin m} {d : Fin n} (hnone : P (-1)) (hfirst : -1 < lengthSq a c d)
    (hlengths : ∀ j, d ≤ j → P (lengthSq a c j)) :
    ∃ j, d ≤ j ∧ pivot a c d = (j, lengthSq a c j) ∧ ∀ q, d ≤ q → key (lengthSq a c q) ≤ key (lengthSq a c j) := by
  obtain ⟨hd, hbest⟩ : d ≤ (pivot a c d).1 ∧ (pivot a c d).2 = lengthSq a c (pivot a c d).1 := by
    -- the next column is longer than nothing at all
    unfold pivot
    rw [List.foldl_cons, if_pos hfirst]
    apply Mat.foldl_larger (d ≤ ·) (lengthSq a c)
    · intro j hj
      exact le_of_lt (Mat.mem_after.1 hj)
    · exact ⟨le_refl d, rfl⟩
  obtain ⟨-, hall⟩ := Mat.key_le_foldl_larger P key hkey (lengthSq a c) (d :: Mat.after d)
    (fun j hj => hlengths j (Mat.mem_cons_after.1 hj)) (d, -1) hnone
  refine ⟨(pivot a c d).1, hd, Prod.ext rfl hbest, ?_⟩
  intro q hq
  rw [← hbest]
  exact hall q (Mat.mem_cons_after.2 hq)

end PivotedQR
end NumericArrays
