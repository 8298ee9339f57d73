import NumericArrays.Proofs.Mat.Columns
import NumericArrays.Proofs.Mat.Steps
import NumericArrays.Proofs.Scalar.Denotes

/-! Square systems of real numbers, solved over the complex ones: as long as the quotients are those of the
    textbook, every number of the one computation denotes that of the other. -/
namespace NumericArrays

open Cartesian (Denotes)

variable {X : Type} [Arith X] [MatrixScalar X Float] [DoubleLike X]

/-! ### Substitution -/

namespace Mat

variable {r : Nat}

theorem finite_of_foldl_sub {ι : Type} (f : ι → X) (l : List ι) {x : X}
    (h : FiniteDouble (l.foldl (fun s i => s - f i) x)) : FiniteDouble x := by
  induction l generalizing x with
  | nil => exact h
  | cons i l ih => exact (ih h).of_sub.1

/-- What is taken off a finite result is finite, and so is what is left in between. -/
theorem foldl_denotes {ι : Type} {l : List ι} {z : Cartesian Float} {x : X} {u v : ι → X}
    {u' v' : ι → Cartesian Float} (hz : Denotes z x) (hu : ∀ i ∈ l, Denotes (u' i) (u i))
    (hv : ∀ i ∈ l, Denotes (v' i) (v i))
    (h : FiniteDouble (l.foldl (fun s i => s - u i * v i) x)) :
    Denotes (l.foldl (fun s i => s - u' i * v' i) z) (l.foldl (fun s i => s - u i * v i) x) := by
  induction l generalizing z x with
  | nil => exact hz
  | cons i l ih =>
    have hnext : FiniteDouble (x - u i * v i) := finite_of_foldl_sub (fun i => u i * v i) l h
    have hproduct := (hu i List.mem_cons_self).mul (hv i List.mem_cons_self) hnext.of_sub.2
    exact ih (hz.sub hproduct hnext) (fun j hj => hu j (List.mem_cons_of_mem i hj))
      (fun j hj => hv j (List.mem_cons_of_mem i hj)) h

section

variable {l : Fin r → Fin r → X} {l' : Fin r → Fin r → Cartesian Float} {c : Fin r → X}
variable {c' : Fin r → Cartesian Float}

theorem forwardUpTo_denotes (hl : ∀ i j, Denotes (l' i j) (l i j)) (hc : ∀ i, Denotes (c' i) (c i))
    (k : Nat) (hk : k ≤ r)
    (h : ∀ i, FiniteDouble ((forwardUpTo l (fun _ x => x) c k hk).get i)) (i : Fin k) :
    Denotes ((forwardUpTo l' (fun _ z => z) c' k hk).get i) ((forwardUpTo l (fun _ x => x) c k hk).get i) := by
  induction k with
  | zero => exact i.elim0
  | succ k ih =>
    have hbefore := ih (Nat.le_of_succ_le hk) fun i => by
      have hi := h i.castSucc
      rwa [forwardUpTo, Vector.get_push_castSucc] at hi
    cases i using Fin.lastCases with
    | cast i =>
      rw [forwardUpTo, forwardUpTo, Vector.get_push_castSucc, Vector.get_push_castSucc]
      exact hbefore i
    | last =>
      have hlast := h (Fin.last k)
      rw [forwardUpTo, Vector.get_push_last] at hlast
      rw [forwardUpTo, forwardUpTo, Vector.get_push_last, Vector.get_push_last]
      exact foldl_denotes (hc _) (fun j _ => hl _ _) (fun j _ => hbefore j) hlast

theorem forward_denotes (hl : ∀ i j, Denotes (l' i j) (l i j)) (hc : ∀ i, Denotes (c' i) (c i))
    (h : ∀ i, FiniteDouble ((forward l (fun _ x => x) c).get i)) (i : Fin r) :
    Denotes ((forward l' (fun _ z => z) c').get i) ((forward l (fun _ x => x) c).get i) :=
  forwardUpTo_denotes hl hc r le_rfl h i

theorem backwardUpTo_denotes (hl : ∀ i j, Denotes (l' i j) (l i j)) (hc : ∀ i, Denotes (c' i) (c i))
    (h : ∀ i, SameQuotient (remainder l c (backward l c) i) (l i i)) (k : Nat) (hk : k ≤ r) (i : Fin k) :
    Denotes ((backwardUpTo l' c' k hk).get i) ((backwardUpTo l c k hk).get i) := by
  induction k with
  | zero => exact i.elim0
  | succ k ih =>
    have hafter := ih (Nat.le_of_succ_le hk)
    cases i using Fin.cases with
    | succ i =>
      rw [backwardUpTo, backwardUpTo, get_insertIdx_succ, get_insertIdx_succ]
      exact hafter i
    | zero =>
      have hsame := h ⟨r - (k + 1), by omega⟩
      rw [remainder, after_eq_map k hk, List.foldl_map] at hsame
      simp only [← backwardUpTo_get l c k (Nat.le_of_succ_le hk)] at hsame
      rw [backwardUpTo, backwardUpTo, get_insertIdx_zero, get_insertIdx_zero]
      have hrest := hsame.finite_numerator
      exact (foldl_denotes (hc _) (fun s _ => hl _ _) (fun s _ => hafter s) hrest).div (hl _ _) hsame

theorem backward_denotes (hl : ∀ i j, Denotes (l' i j) (l i j)) (hc : ∀ i, Denotes (c' i) (c i))
    (h : ∀ i, SameQuotient (remainder l c (backward l c) i) (l i i)) (i : Fin r) :
    Denotes ((backward l' c').get i) ((backward l c).get i) :=
  backwardUpTo_denotes hl hc h r le_rfl i

end

/-! ### Matrices -/

def Denotes {m n : Nat} (a' : Mat (Cartesian Float) m n) (a : Mat X m n) : Prop :=
  ∀ i j, Cartesian.Denotes (a'.entry i j) (a.entry i j)

theorem Denotes.swapRows {m n : Nat} {a' : Mat (Cartesian Float) m n} {a : Mat X m n} (h : a'.Denotes a)
    (i k : Fin m) : (a'.swapRows i k).Denotes (a.swapRows i k) := by
  intro r j
  rw [entry_swapRows, entry_swapRows]
  exact h _ _

def FiniteFrom {n : Nat} (k : Nat) (a : Mat X n n) : Prop :=
  ∀ i j : Fin n, k ≤ i.val → k ≤ j.val → FiniteDouble (a.entry i j)

end Mat

/-! ### Elimination -/

namespace LU

open Mat (after FiniteFrom)

variable {n : Nat} {a : Mat X n n} {a' : Mat (Cartesian Float) n n} {c : Fin n}

theorem pivot_of_denotes (h : a'.Denotes a) (c : Fin n) : pivot a' c = pivot a c := by
  unfold pivot
  rw [(h c c).modulus_eq]
  apply List.foldl_ext
  intro best i _
  rw [(h i c).modulus_eq]

theorem pivotRatio_of_denotes {f : LU X n} {g : LU (Cartesian Float) n} (h : g.packed.Denotes f.packed) :
    (g.pivotRatio : Float) = f.pivotRatio := by
  have hsizes : (g.pivotSizes : List Float) = f.pivotSizes := by
    unfold pivotSizes
    exact List.map_congr_left fun i _ => (h i i).modulus_eq
  unfold pivotRatio
  rw [hsizes]

/-- What is left below a pivot is finite only if the multipliers, and all that they are made of, are. -/
theorem finite_of_clear {i : Fin n} (h : FiniteFrom (c.val + 1) (clearColumn a c)) (hi : c < i) :
    FiniteDouble (a.entry i c) ∧ FiniteDouble (a.entry i c * (1 / a.entry c c)) ∧
      ∀ j, c < j → FiniteDouble (a.entry i j) ∧ FiniteDouble (a.entry c j) := by
  have hrest : ∀ j, c < j → FiniteDouble (a.entry i j) ∧ FiniteDouble (a.entry c j) ∧
      FiniteDouble (a.entry i c * (1 / a.entry c c)) := by
    intro j hj
    have hij := h i j hi hj
    rw [entry_clear, if_neg (by omega), if_neg (by omega)] at hij
    obtain ⟨hleft, hproduct⟩ := hij.of_sub
    exact ⟨hleft, hproduct.of_mul⟩
  have hmultiplier := (hrest i hi).2.2
  exact ⟨hmultiplier.of_mul.1, hmultiplier, fun j hj => ⟨(hrest j hj).1, (hrest j hj).2.1⟩⟩

theorem finiteFrom_of_clear (hpivot : FiniteDouble (a.entry c c))
    (h : FiniteFrom (c.val + 1) (clearColumn a c)) : FiniteFrom c.val a := by
  intro i j hi hj
  rcases eq_or_lt_of_le (show c ≤ i from hi) with rfl | hi
  · rcases eq_or_lt_of_le (show c ≤ j from hj) with rfl | hj
    · exact hpivot
    · exact ((finite_of_clear h hj).2.2 j hj).2
  · rcases eq_or_lt_of_le (show c ≤ j from hj) with rfl | hj
    · exact (finite_of_clear h hi).1
    · exact ((finite_of_clear h hi).2.2 j hj).1

theorem finiteFrom_of_swapRows {i : Fin n} (hi : c ≤ i) (h : FiniteFrom c.val (a.swapRows c i)) :
    FiniteFrom c.val a := by
  intro r j hr hj
  have hentry := h (Equiv.swap c i r) j (Mat.le_swap hi hr) hj
  rwa [Mat.entry_swapRows, Equiv.swap_apply_self] at hentry

/-- Clearing a column of denoted numbers. -/
theorem clearColumn_denotes (h : a'.Denotes a) (hsame : ∀ i, c < i → SameQuotient 1 (a.entry c c))
    (hfinite : FiniteFrom (c.val + 1) (clearColumn a c)) : (clearColumn a' c).Denotes (clearColumn a c) := by
  intro i j
  by_cases hstay : i ≤ c ∨ j < c
  · rw [entry_clear, entry_clear, if_pos hstay, if_pos hstay]
    exact h i j
  · have hi : c < i := by omega
    have hinverse : Denotes (1 / a'.entry c c) (1 / a.entry c c) := Denotes.one.div (h c c) (hsame i hi)
    have hmultiplier := (h i c).mul hinverse (finite_of_clear hfinite hi).2.1
    by_cases hj : j = c
    · rw [entry_clear, entry_clear, if_neg hstay, if_neg hstay, if_pos hj, if_pos hj]
      exact hmultiplier
    · have hij := hfinite i j hi (by omega)
      rw [entry_clear, if_neg hstay, if_neg hj] at hij
      rw [entry_clear, entry_clear, if_neg hstay, if_neg hstay, if_neg hj, if_neg hj]
      exact (h i j).sub ((h c j).mul hmultiplier hij.of_sub.2) hij

/-- A stage, after `k` columns, on the way to factors: what is still to be eliminated is finite, and the
    pivots so far are those of the factors. -/
structure Toward (final : LU X n) (k : Nat) (f : LU X n) : Prop where
  rest : FiniteFrom k f.packed
  pivots : ∀ p : Fin n, p.val < k → f.packed.entry p p = final.packed.entry p p

structure Denotes (g : LU (Cartesian Float) n) (f : LU X n) : Prop where
  packed : g.packed.Denotes f.packed
  perm : g.perm = f.perm

section Step

variable {f g final : LU X n}

omit [MatrixScalar X Float] [DoubleLike X] in
/-- A step leaves the rows up to the pivot as they are when the pivot has been found. -/
theorem entry_of_step {i : Fin n}
    (hg : g = ⟨clearColumn (f.packed.swapRows c i) c, f.perm.swap c i c.isLt i.isLt⟩) {p : Fin n}
    (hp : p ≤ c) : (f.packed.swapRows c i).entry p p = g.packed.entry p p := by
  rw [hg]
  exact ((entry_clear _ c p p).trans (if_pos (Or.inl hp))).symm

theorem Toward.of_step (hpivot : FiniteDouble (final.packed.entry c c)) (h : step f c = some g)
    (hg : Toward final (c.val + 1) g) : Toward final c.val f := by
  obtain ⟨i, hi, -, -, hgf⟩ := step_spec h
  have hrest : FiniteFrom (c.val + 1) (clearColumn (f.packed.swapRows c i) c) := by
    have hrest := hg.rest
    rwa [hgf] at hrest
  constructor
  · apply finiteFrom_of_swapRows hi
    apply finiteFrom_of_clear _ hrest
    rwa [entry_of_step hgf (le_refl c), hg.pivots c (Nat.lt_succ_self c)]
  · intro p hp
    have hentry := entry_of_step hgf (show p ≤ c from le_of_lt hp)
    rw [Mat.entry_swapRows, Mat.swap_of_lt hi hp] at hentry
    rw [hentry, hg.pivots p (Nat.lt_succ_of_lt hp)]

theorem Denotes.step {f' : LU (Cartesian Float) n} (hf : f'.Denotes f)
    (hsame : ∀ i, c < i → SameQuotient 1 (final.packed.entry c c)) (h : step f c = some g)
    (hg : Toward final (c.val + 1) g) : ∃ g', LU.step f' c = some g' ∧ g'.Denotes g := by
  obtain ⟨i, hi, hfirst, hne, hgf⟩ := step_spec h
  have hpivot : pivot f'.packed c = pivot f.packed c := pivot_of_denotes hf.packed c
  have hstep : LU.step f' c =
      some ⟨clearColumn (f'.packed.swapRows c i) c, f'.perm.swap c i c.isLt i.isLt⟩ := by
    simp only [LU.step, hpivot, if_neg hne, hfirst]
  refine ⟨_, hstep, ?_, ?_⟩
  · have hrest := hg.rest
    rw [hgf] at hrest ⊢
    apply clearColumn_denotes (hf.packed.swapRows c i) _ hrest
    intro r hr
    have hsame := hsame r hr
    rwa [entry_of_step hgf (le_refl c), hg.pivots c (Nat.lt_succ_self c)]
  · rw [hgf]
    simp only [hf.perm]

end Step

variable {f : LU X n} {g : LU (Cartesian Float) n}

/-- Every stage before factors with finite pivots. -/
theorem exists_toward (hf : factor? a = some f) (hpivots : ∀ i, FiniteDouble (f.packed.entry i i))
    (k : Nat) (hk : k ≤ n) : ∃ s, factorUpTo a k hk = some s ∧ Toward f k s := by
  -- backwards from the factors: what a step leaves tells of what it was given
  induction hk using Nat.decreasingInduction with
  | self =>
    exact ⟨f, hf, fun i j hi => absurd i.isLt (Nat.not_lt.mpr hi), fun _ _ => rfl⟩
  | of_succ k hk ih =>
    obtain ⟨next, hnext, hafter⟩ := ih
    obtain ⟨s, hs, hstep⟩ := Option.bind_eq_some_iff.mp hnext
    exact ⟨s, hs, hafter.of_step (hpivots ⟨k, hk⟩) hstep⟩

theorem factorUpTo_denotes (h : a'.Denotes a) (hf : factor? a = some f)
    (hpivots : ∀ i, FiniteDouble (f.packed.entry i i))
    (hinverses : ∀ i j, i < j → SameQuotient 1 (f.packed.entry i i)) (k : Nat) (hk : k ≤ n) :
    ∃ s s', factorUpTo a k hk = some s ∧ factorUpTo a' k hk = some s' ∧ s'.Denotes s := by
  induction k with
  | zero => exact ⟨_, _, rfl, rfl, h, rfl⟩
  | succ k ih =>
    obtain ⟨s, s', hs, hs', hdenotes⟩ := ih (Nat.le_of_succ_le hk)
    obtain ⟨next, hnext, hafter⟩ := exists_toward hf hpivots (k + 1) hk
    have hstep : step s ⟨k, hk⟩ = some next := by
      rwa [factorUpTo, hs, Option.bind_some] at hnext
    obtain ⟨next', hstep', hdenotes'⟩ := hdenotes.step (hinverses ⟨k, hk⟩) hstep hafter
    refine ⟨next, next', hnext, ?_, hdenotes'⟩
    rw [factorUpTo, hs', Option.bind_some, hstep']

theorem factor?_denotes (h : a'.Denotes a) (hf : factor? a = some f)
    (hpivots : ∀ i, FiniteDouble (f.packed.entry i i))
    (hinverses : ∀ i j, i < j → SameQuotient 1 (f.packed.entry i i)) :
    ∃ g, factor? a' = some g ∧ g.Denotes f := by
  obtain ⟨s, g, hs, hg, hdenotes⟩ := factorUpTo_denotes h hf hpivots hinverses n le_rfl
  have heq : s = f := Option.some.inj (hs.symm.trans hf)
  exact ⟨g, hg, heq ▸ hdenotes⟩

/-! ### Solutions -/

def lowerSolved {K : Type} [Arith K] (f : LU K n) (b : Vector K n) : Vector K n :=
  Mat.forward f.packed.entry (fun _ x => x) fun i => b.get (f.perm.get i)

theorem solveColumn_eq_backward {K : Type} [Arith K] (f : LU K n) (b : Vector K n) :
    f.solveColumn b = Mat.backward f.packed.entry (f.lowerSolved b).get := rfl

/-- What `P` says of the quotients that come up: of the inverses of pivots that other rows lie below, and of
    the unknowns. All pivots are finite. -/
structure Quotients (P : X → X → Prop) {k : Nat} (f : LU X n) (b : Mat X n k) : Prop where
  pivots : ∀ i, FiniteDouble (f.packed.entry i i)
  inverses : ∀ i j : Fin n, i < j → P 1 (f.packed.entry i i)
  unknowns : ∀ j i, P
    (Mat.remainder f.packed.entry (f.lowerSolved (b.columns.get j)).get (f.solveColumn (b.columns.get j)) i)
    (f.packed.entry i i)

instance (P : X → X → Prop) [∀ x y, Decidable (P x y)] {k : Nat} (f : LU X n) (b : Mat X n k) :
    Decidable (f.Quotients P b) :=
  decidable_of_iff (_ ∧ _ ∧ _) ⟨fun h => ⟨h.1, h.2.1, h.2.2⟩, fun h => ⟨h.1, h.2, h.3⟩⟩

theorem Quotients.mono {P Q : X → X → Prop} {k : Nat} {b : Mat X n k} (h : f.Quotients P b)
    (hpq : ∀ x y, P x y → Q x y) : f.Quotients Q b where
  pivots := h.pivots
  inverses i j hij := hpq _ _ (h.inverses i j hij)
  unknowns j i := hpq _ _ (h.unknowns j i)

section

variable {k : Nat} {b : Mat X n k} {b' : Mat (Cartesian Float) n k}

/-- What is left of a number is finite only if the number is. -/
theorem Quotients.finite_lowerSolved (h : f.Quotients SameQuotient b) (i : Fin n) (j : Fin k) :
    FiniteDouble ((f.lowerSolved (b.columns.get j)).get i) :=
  Mat.finite_of_foldl_sub (fun l => f.packed.entry i l * (f.solveColumn (b.columns.get j)).get l) (after i)
    (h.unknowns j i).finite_numerator

theorem solveColumn_denotes (hg : g.Denotes f) (hb : b'.Denotes b) (h : f.Quotients SameQuotient b)
    (i : Fin n) (j : Fin k) :
    Cartesian.Denotes ((g.solveColumn (b'.columns.get j)).get i)
      ((f.solveColumn (b.columns.get j)).get i) := by
  have hforward : ∀ i, Cartesian.Denotes ((g.lowerSolved (b'.columns.get j)).get i)
      ((f.lowerSolved (b.columns.get j)).get i) := by
    apply Mat.forward_denotes hg.packed _ fun i => h.finite_lowerSolved i j
    intro i
    rw [hg.perm]
    exact hb _ j
  have hunknowns := h.unknowns j
  simp only [solveColumn_eq_backward] at hunknowns ⊢
  exact Mat.backward_denotes hg.packed hforward hunknowns i

end

end LU

namespace Mat

variable {n k : Nat} {a : Mat X n n} {b : Mat X n k} {a' : Mat (Cartesian Float) n n}
variable {b' : Mat (Cartesian Float) n k}

def Quotients (P : X → X → Prop) (a : Mat X n n) (b : Mat X n k) : Prop :=
  ∀ f, LU.factor? a = some f → f.Quotients P b

instance (P : X → X → Prop) [∀ x y, Decidable (P x y)] (a : Mat X n n) (b : Mat X n k) :
    Decidable (a.Quotients P b) :=
  Option.decidableForallMem (LU.factor? a)

theorem solver?_square {K : Type} [Arith K] [MatrixScalar K Float] (a : Mat K n n) :
    (solver? a : Option (ColumnSolver K Float n n)) = squareSolver a := dif_pos rfl

/-- A real system that is solved by the quotients of the textbook has the solution, and the warnings, that
    it has as a complex one. -/
theorem solver?_denotes (ha : a'.Denotes a) (hb : b'.Denotes b) (hsame : a.Quotients SameQuotient b)
    {s : ColumnSolver X Float n n} (hs : solver? a = some s) :
    ∃ s' : ColumnSolver (Cartesian Float) Float n n, solver? a' = some s' ∧ s'.warnings = s.warnings ∧
      (b'.mapColumns s'.column).Denotes (b.mapColumns s.column) := by
  rw [solver?_square, squareSolver, Option.map_eq_some_iff] at hs
  obtain ⟨f, hf, rfl⟩ := hs
  have hquotients := hsame f hf
  obtain ⟨g, hg, hdenotes⟩ := LU.factor?_denotes ha hf hquotients.pivots hquotients.inverses
  refine ⟨_, by rw [solver?_square, squareSolver, hg, Option.map_some], ?_, ?_⟩
  · simp only [LU.pivotRatio_of_denotes hdenotes.packed]
  · intro i j
    simp only [entry, mapColumns, get_map]
    exact LU.solveColumn_denotes hdenotes hb hquotients i j

end Mat
end NumericArrays
