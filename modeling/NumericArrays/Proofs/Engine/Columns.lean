import NumericArrays.Proofs.Concat.Beside
import NumericArrays.Proofs.Mat.Entries

/-! Right-hand sides side by side are solved as if each of them had been given alone. -/
namespace NumericArrays

/-! ### Matrices side by side -/

/-- What is read depends on the element only, and packed matrices that are joined are packed. -/
class JoinableElement (K : Type) [ArrayElement K] : Prop extends LawfulArrayElement K where
  read_congr : ∀ {a b : NDArray} {p q : Nat}, a.cartesian p = b.cartesian q →
    (ArrayElement.read a p : K) = ArrayElement.read b q
  joined_pack : ∀ {n k l : Nat} {x y : Array K}, n ≤ maxCount → n * k ≤ maxCount → 0 < n * k →
    x.size = n * k → y.size = n * l →
      Concat.joined 1 (ArrayElement.pack [n, k] x) [ArrayElement.pack [n, l] y] =
        ArrayElement.pack [n, k + l] (x ++ y)

instance : JoinableElement Float where
  read_congr h := congrArg Cartesian.re h
  joined_pack hn hfits hpos hx hy := Concat.joined_real hn hfits hpos hx hy

instance : JoinableElement (Cartesian Float) where
  read_congr h := h
  joined_pack {n k l x y} hn hfits hpos hx hy := by
    have hjoined := Concat.joined_complex (x := x.map (·.re)) (y := y.map (·.re)) (u := x.map (·.im))
      (v := y.map (·.im)) (k := k) (l := l) hn hfits hpos (by rw [Array.size_map, hx])
      (by rw [Array.size_map, hy]) (by rw [Array.size_map, hx]) (by rw [Array.size_map, hy])
    rw [← Array.map_append, ← Array.map_append] at hjoined
    exact hjoined

namespace Mat

variable {K : Type} [ArrayElement K] [JoinableElement K] {n k l : Nat} {a b c : NDArray}

/-- The matrix of arrays side by side is that of the one and that of the other. -/
theorem ofArray_beside (h : a.Beside b c) (hsize : a.size = n * k) :
    (ofArray c n (k + l) : Mat K _ _) = (ofArray a n k).append (ofArray b n l) := by
  apply ext_entry
  intro i j
  have hcell := h.cartesian_eq (i + j * n)
  rw [entry_append]
  by_cases hj : j.val < k
  · have hlow : i.val + j * n < a.size := by
      rw [hsize]
      exact place_lt i ⟨j, hj⟩
    rw [if_pos hlow] at hcell
    rw [dif_pos hj, ofArray, ofArray, entry_ofFn, entry_ofFn]
    exact JoinableElement.read_congr hcell
  · have hhigh : a.size ≤ j * n := by
      rw [hsize, Nat.mul_comm]
      exact Nat.mul_le_mul_right n (Nat.not_lt.mp hj)
    have hplace : i.val + j * n - a.size = i + (j - k) * n := by
      rw [Nat.sub_mul, Nat.mul_comm k n, ← hsize]
      omega
    rw [if_neg (by omega), hplace] at hcell
    rw [dif_neg hj, ofArray, ofArray, entry_ofFn, entry_ofFn]
    exact JoinableElement.read_congr hcell

omit [ArrayElement K] [JoinableElement K] in
theorem size_flatten (x : Mat K n k) : x.columns.flatten.toArray.size = n * k := by
  rw [Vector.size_toArray, Nat.mul_comm]

omit [ArrayElement K] [JoinableElement K] in
theorem flatten_of_empty (x : Mat K n 0) : x.columns.flatten.toArray = #[] := by
  apply Array.eq_empty_of_size_eq_zero
  rw [size_flatten, Nat.mul_zero]

theorem dims_toArray (x : Mat K n k) : x.toArray.dims = [n, k] := LawfulArrayElement.pack_dims _ _

theorem size_toArray (x : Mat K n k) (hn : n ≤ maxCount) (hk : n * k ≤ maxCount) :
    x.toArray.size = n * k := by
  rw [NDArray.size, dims_toArray]
  exact Shape.count_of_count? (Shape.count?_pair hn hk)

omit [JoinableElement K] in
theorem toArray_append (x : Mat K n k) (y : Mat K n l) : (x.append y).toArray =
    ArrayElement.pack [n, k + l] (x.columns.flatten.toArray ++ y.columns.flatten.toArray) := by
  rw [toArray, toArray_flatten_append]

omit [JoinableElement K] in
theorem toArray_append_of_empty_left (x : Mat K n 0) (y : Mat K n l) :
    (x.append y).toArray = y.toArray := by
  rw [toArray_append, flatten_of_empty, Array.empty_append, Nat.zero_add, toArray]

omit [JoinableElement K] in
theorem toArray_append_of_empty_right (x : Mat K n k) (y : Mat K n 0) :
    (x.append y).toArray = x.toArray := by
  rw [toArray_append, flatten_of_empty y, Array.append_empty, Nat.add_zero, toArray]

theorem join_toArray (x : Mat K n k) (y : Mat K n l) (hn : n ≤ maxCount) (hfits : n * k ≤ maxCount)
    (hpos : 0 < n * k) :
    Concat.join 1 x.toArray [y.toArray] =
      if n * (k + l) ≤ maxCount then .ok (x.append y).toArray else .error (.uncountable [n, k + l]) := by
  have hrows : x.toArray.rows = y.toArray.rows := by
    rw [NDArray.rows, NDArray.rows, dims_toArray, dims_toArray]
    rfl
  have hagree := Concat.agree_of_isMatrix (by rw [dims_toArray]; rfl) (by rw [dims_toArray]; rfl) hrows
  have hjoined : Concat.joined 1 x.toArray [y.toArray] = (x.append y).toArray := by
    rw [toArray_append]
    exact JoinableElement.joined_pack hn hfits hpos (size_flatten x) (size_flatten y)
  rw [Concat.join_of_agree hagree, hjoined, dims_toArray]
  by_cases hall : n * (k + l) ≤ maxCount
  · rw [if_pos hall, Shape.count?_pair hn hall]
    rfl
  · have hle : n * k ≤ n * (k + l) := Nat.mul_le_mul_left n (Nat.le_add_right k l)
    have hprod : List.prod [n, k + l] = n * (k + l) := by simp
    have hnone : Shape.count? [n, k + l] = none := by
      rw [Shape.count?_eq_none_iff (by omega), hprod]
      exact Nat.not_le.mp hall
    rw [if_neg hall, hnone]
    rfl

/-- Joining the arrays of two matrices. -/
theorem beside_toArray (x : Mat K n k) (y : Mat K n l) (hpos : 1 ≤ n) (hn : n ≤ maxCount)
    (hk : n * k ≤ maxCount) (hl : n * l ≤ maxCount) :
    Value.beside [.array x.toArray, .array y.toArray] =
      if n * (k + l) ≤ maxCount then .ok (x.append y).toArray else .error (.uncountable [n, k + l]) := by
  have hsizex := size_toArray x hn hk
  have hsizey := size_toArray y hn hl
  by_cases hk0 : k = 0
  · subst hk0
    rw [Value.beside, Value.concat_of_empty_left hsizex, toArray_append_of_empty_left,
      if_pos (show n * (0 + l) ≤ maxCount by simpa using hl)]
    by_cases hl0 : l = 0
    · subst hl0
      rw [if_pos (show y.toArray.size = 0 from hsizey), toArray, toArray, flatten_of_empty, flatten_of_empty]
    · have hy0 : y.toArray.size ≠ 0 := by
        rw [hsizey]
        exact Nat.mul_ne_zero (by omega) hl0
      rw [if_neg hy0]
  · have hprod : n * k ≠ 0 := Nat.mul_ne_zero (by omega) hk0
    have hx0 : x.toArray.size ≠ 0 := by rwa [hsizex]
    by_cases hl0 : l = 0
    · subst hl0
      rw [Value.beside, Value.concat_of_empty_right hx0 hsizey, toArray_append_of_empty_right,
        if_pos (show n * (k + 0) ≤ maxCount from hk)]
    · have hy0 : y.toArray.size ≠ 0 := by
        rw [hsizey]
        exact Nat.mul_ne_zero (by omega) hl0
      rw [Value.beside, Value.concat_pair hx0 hy0, join_toArray x y hn hk (by omega)]

end Mat

/-! ### Solving -/

/-- What is answered for two right-hand sides side by side is what is answered for each of them. -/
structure Logged.Apart (x x₁ x₂ : Logged NDArray) : Prop where
  events_left : x₁.events = x.events
  events_right : x₂.events = x.events
  result_iff : ∀ c, x.result = .ok c ↔
    ∃ c₁ c₂, x₁.result = .ok c₁ ∧ x₂.result = .ok c₂ ∧ Value.beside [.array c₁, .array c₂] = .ok c

namespace Dense

variable (K : Type) [ArrayElement K] {a b b₁ b₂ : NDArray} {m n k l : Nat}

/-- What is done once the operands have been found to be matrices that go together. -/
theorem solve_of_matrices [Arith K] [MatrixScalar K Float] (ha : a.dims.isMatrix = true)
    (hb : b.dims.isMatrix = true) (hrows : a.rows = b.rows) : solve K a b =
      if a.rows = 0 ∨ a.cols = 0 then Logged.ofExcept (result K fun _ => (Mat.zero : Mat K a.cols b.cols))
      else answer K (Mat.solver? (Mat.ofArray a a.rows a.cols)) (Mat.ofArray b a.rows b.cols) := by
  have hok : ∀ {c : NDArray}, c.dims.isMatrix = true →
      (liftM (checkMatrix c) : Logged Unit).result = .ok () := fun h => checkMatrix_of_isMatrix h
  rw [solve_eq, Logged.bind_of_ok (hok ha), Logged.bind_of_ok (hok hb), if_neg (not_not.mpr hrows)]
  rfl

theorem solve_eq_answer [Arith K] [MatrixScalar K Float] (ha : a.dims.isMatrix = true)
    (hb : b.dims.isMatrix = true) (hrows : a.rows = b.rows) (hm : 1 ≤ a.rows) (hn : 1 ≤ a.cols) :
    solve K a b = answer K (Mat.solver? (Mat.ofArray a a.rows a.cols)) (Mat.ofArray b a.rows b.cols) :=
  (solve_of_matrices K ha hb hrows).trans (if_neg (by omega))

theorem result_eq (f : Unit → Mat K m n) :
    result K f = if m * n ≤ maxCount then .ok (f ()).toArray else .error (.uncountable [m, n]) := by
  rw [← Mat.collect_eq f]
  rfl

theorem events_answer (s : Mat.ColumnSolver K Float m n) (b : Mat K m k) :
    (answer K (some s) b).events = s.warnings.map .warning := List.append_nil _

theorem result_answer (s : Mat.ColumnSolver K Float m n) (b : Mat K m k) :
    (answer K (some s) b).result =
      if n * k ≤ maxCount then .ok (b.mapColumns s.column).toArray else .error (.uncountable [n, k]) :=
  result_eq K fun _ => b.mapColumns s.column

/-- A solver answers columns side by side as it answers them apart. -/
theorem answer_append [JoinableElement K] (hpos : 1 ≤ n) (hn : n ≤ maxCount) (s : Option (Mat.ColumnSolver K Float m n))
    (x : Mat K m k) (y : Mat K m l) :
    (answer K s (x.append y)).Apart (answer K s x) (answer K s y) := by
  cases s with
  | none =>
    refine ⟨rfl, rfl, fun c => ⟨(fun h => by cases h), ?_⟩⟩
    rintro ⟨c₁, c₂, h, -⟩
    cases h
  | some s =>
    refine ⟨?_, ?_, fun c => ?_⟩
    · rw [events_answer, events_answer]
    · rw [events_answer, events_answer]
    · rw [result_answer, result_answer, result_answer, Mat.mapColumns_append]
      have hbeside := Mat.beside_toArray (x.mapColumns s.column) (y.mapColumns s.column) hpos hn
      constructor
      · intro h
        split at h
        · rename_i hfits
          cases h
          have hk : n * k ≤ maxCount := (Nat.mul_le_mul_left n (Nat.le_add_right k l)).trans hfits
          have hl : n * l ≤ maxCount := (Nat.mul_le_mul_left n (Nat.le_add_left l k)).trans hfits
          refine ⟨_, _, if_pos hk, if_pos hl, ?_⟩
          rw [hbeside hk hl, if_pos hfits]
        · cases h
      · rintro ⟨c₁, c₂, h₁, h₂, h⟩
        split at h₁
        · rename_i hk
          split at h₂
          · rename_i hl
            cases h₁
            cases h₂
            rwa [hbeside hk hl] at h
          · cases h₂
        · cases h₁

/-- Two answers are had if and only if the answer for both is, unless that has more elements than can be
    counted. -/
theorem answer_succeeds_iff (hfits : n * (k + l) ≤ maxCount) (s : Option (Mat.ColumnSolver K Float m n))
    (x : Mat K m k) (y : Mat K m l) :
    (∃ c, (answer K s (x.append y)).result = .ok c) ↔
      (∃ c, (answer K s x).result = .ok c) ∧ ∃ c, (answer K s y).result = .ok c := by
  have hk : n * k ≤ maxCount := (Nat.mul_le_mul_left n (Nat.le_add_right k l)).trans hfits
  have hl : n * l ≤ maxCount := (Nat.mul_le_mul_left n (Nat.le_add_left l k)).trans hfits
  cases s with
  | none =>
    constructor
    · rintro ⟨c, h⟩
      cases h
    · rintro ⟨⟨c, h⟩, -⟩
      cases h
  | some s =>
    simp only [result_answer, if_pos hk, if_pos hl, if_pos hfits]
    exact ⟨fun _ => ⟨⟨_, rfl⟩, ⟨_, rfl⟩⟩, fun _ => ⟨_, rfl⟩⟩

end Dense

/-! ### The engine -/

structure NDArray.RightSide (a b : NDArray) : Prop where
  wellFormed : b.WellFormed
  isMatrix : b.dims.isMatrix = true
  rows_eq : b.rows = a.rows
  faithful : b.Faithful

namespace Dense

variable {K : Type} [ArrayElement K] [Arith K] [MatrixScalar K Float] [JoinableElement K] {a b b₁ b₂ : NDArray}

theorem solve_beside (ha : a.WellFormed) (hm : a.dims.isMatrix = true) (hrows : 1 ≤ a.rows)
    (hcols : 1 ≤ a.cols) (h₁ : a.RightSide b₁) (h₂ : a.RightSide b₂)
    (hb : Value.beside [.array b₁, .array b₂] = .ok b) :
    (solve K a b).Apart (solve K a b₁) (solve K a b₂) ∧
      (a.cols * (b₁.cols + b₂.cols) ≤ maxCount → ((∃ c, (solve K a b).result = .ok c) ↔
        (∃ c, (solve K a b₁).result = .ok c) ∧ ∃ c, (solve K a b₂).result = .ok c)) := by
  have hbeside := Value.beside_ok h₁.wellFormed h₂.wellFormed h₁.isMatrix h₂.isMatrix
    (h₁.rows_eq.trans h₂.rows_eq.symm) (by rw [h₁.rows_eq]; exact hrows) h₁.faithful h₂.faithful hb
  have hsize : b₁.size = a.rows * b₁.cols := by
    rw [h₁.wellFormed.size_of_isMatrix h₁.isMatrix, h₁.wellFormed.cols_eq h₁.isMatrix, h₁.rows_eq]
  have hb : a.rows = b.rows := h₁.rows_eq.symm.trans hbeside.rows_eq.symm
  rw [solve_eq_answer K hm hbeside.isMatrix hb hrows hcols, solve_eq_answer K hm h₁.isMatrix h₁.rows_eq.symm hrows hcols,
    solve_eq_answer K hm h₂.isMatrix h₂.rows_eq.symm hrows hcols, hbeside.cols_eq, Mat.ofArray_beside hbeside hsize]
  constructor
  · exact answer_append K hcols ha.cols_le _ _ _
  · intro hfits
    exact answer_succeeds_iff K hfits _ _ _

end Dense

namespace Engine

/-- Right-hand sides are solved independently, over the real numbers and over the complex ones: for two of
    them side by side there are the warnings of each, and what is found for each, side by side, or nothing
    if nothing is found for one of them. The elements of every array that commands can make are numbers of
    its kind. -/
theorem dense_solve_beside :
    (∀ b, Workspace.Reachable (.array b) → b.WellFormed ∧ b.Faithful) ∧
      ∀ (k : Coefficients) (a b₁ b₂ b : NDArray), a.WellFormed → a.dims.isMatrix = true → 1 ≤ a.rows →
        1 ≤ a.cols → a.RightSide b₁ → a.RightSide b₂ → Value.beside [.array b₁, .array b₂] = .ok b →
          (dense.solve k a b).Apart (dense.solve k a b₁) (dense.solve k a b₂) ∧
            (a.cols * (b₁.cols + b₂.cols) ≤ maxCount → ((∃ c, (dense.solve k a b).result = .ok c) ↔
              (∃ c, (dense.solve k a b₁).result = .ok c) ∧ ∃ c, (dense.solve k a b₂).result = .ok c)) := by
  constructor
  · intro b hb
    exact ⟨hb.wellFormed, hb.faithful⟩
  · intro k a b₁ b₂ b ha hm hrows hcols h₁ h₂ hb
    cases k with
    | real => exact Dense.solve_beside ha hm hrows hcols h₁ h₂ hb
    | complex => exact Dense.solve_beside ha hm hrows hcols h₁ h₂ hb

def diagonal : NDArray := ⟨[2, 2], #[2, 0, 0, 4], none, .double⟩

/-- Two right-hand sides, the second one with an element that is no number. -/
def sideOne : NDArray := ⟨[2, 1], #[2, 4], none, .double⟩

def sideTwo : NDArray := ⟨[2, 1], #[6, Binary64.nan], none, .double⟩

def bothSides : NDArray := ⟨[2, 2], #[2, 4, 6, Binary64.nan], none, .double⟩

theorem diagonal_wellFormed : diagonal.WellFormed :=
  NDArray.wellFormed_exact (by decide) (by decide) (by decide) (fun _ h => by cases h) fun h => by cases h

theorem sideOne_rightSide : diagonal.RightSide sideOne where
  wellFormed :=
    NDArray.wellFormed_exact (by decide) (by decide) (by decide) (fun _ h => by cases h) fun h => by cases h
  isMatrix := by decide
  rows_eq := by decide
  faithful := NDArray.faithful_of_double rfl

theorem sideTwo_rightSide : diagonal.RightSide sideTwo where
  wellFormed :=
    NDArray.wellFormed_exact (by decide) (by decide) (by decide) (fun _ h => by cases h) fun h => by cases h
  isMatrix := by decide
  rows_eq := by decide
  faithful := NDArray.faithful_of_double rfl

/-- Both systems have a solution, and so has that with both right-hand sides. -/
theorem dense_solve_beside_diagonal : diagonal.WellFormed ∧ diagonal.RightSide sideOne ∧
    diagonal.RightSide sideTwo ∧
    (dense.solve .real diagonal bothSides).Apart (dense.solve .real diagonal sideOne)
      (dense.solve .real diagonal sideTwo) ∧
    (dense.solve .real diagonal bothSides).result.toBool = true ∧
    (∃ c, (dense.solve .real diagonal sideOne).result = .ok c) ∧
    ∃ c, (dense.solve .real diagonal sideTwo).result = .ok c := by
  have hbeside : Value.beside [.array sideOne, .array sideTwo] = .ok bothSides := by decide
  obtain ⟨hapart, hsucceeds⟩ := dense_solve_beside.2 .real diagonal sideOne sideTwo bothSides
    diagonal_wellFormed (by decide) (by decide) (by decide) sideOne_rightSide sideTwo_rightSide hbeside
  have hboth : (dense.solve .real diagonal bothSides).result.toBool = true := by decide +kernel
  have hexists : ∃ c, (dense.solve .real diagonal bothSides).result = .ok c := by
    cases hr : (dense.solve .real diagonal bothSides).result with
    | error e =>
      rw [hr] at hboth
      cases hboth
    | ok c => exact ⟨c, rfl⟩
  obtain ⟨hone, htwo⟩ := (hsucceeds (by decide)).mp hexists
  exact ⟨diagonal_wellFormed, sideOne_rightSide, sideTwo_rightSide, hapart, hboth, hone, htwo⟩

end Engine
end NumericArrays
