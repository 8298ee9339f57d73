import NumericArrays.Proofs.Engine.Contract
import NumericArrays.Proofs.Mat.Columns

/-! The engine of this library does what is asked of engines. -/
namespace NumericArrays

/-- Reading looks at elements only, and packing as many numbers as a shape has places makes a well-formed
    array. -/
class LawfulArrayElement (K : Type) [ArrayElement K] : Prop where
  read_trim : ∀ {a : NDArray}, a.WellFormed → (ArrayElement.read a.trim : Nat → K) = ArrayElement.read a
  pack_wellFormed : ∀ {dims : Shape} {data : Array K}, 2 ≤ dims.length → (∀ d ∈ dims, d ≤ maxCount) →
    dims.count? = some data.size → (ArrayElement.pack dims data).WellFormed
  pack_kind : ∀ (dims : Shape) (data : Array K), (ArrayElement.pack dims data).kind = .double
  pack_dims : ∀ (dims : Shape) (data : Array K), (ArrayElement.pack dims data).dims = dims

instance : LawfulArrayElement Float where
  read_trim ha := funext fun _ => NDArray.re_trim ha
  pack_wellFormed h2 hd hc := NDArray.wellFormed_exact h2 hd hc (fun _ h => by cases h) fun _ => rfl
  pack_kind _ _ := rfl
  pack_dims _ _ := rfl

instance : LawfulArrayElement (Cartesian Float) where
  read_trim ha := funext fun _ => NDArray.cartesian_trim ha
  pack_wellFormed h2 hd hc :=
    NDArray.wellFormed_exact h2 hd (by rw [Array.size_map]; exact hc)
      (fun _ h => by cases h; simp) fun h => by cases h
  pack_kind _ _ := rfl
  pack_dims _ _ := rfl

namespace NDArray

variable {a : NDArray}

theorem WellFormed.extent_le_maxCount (ha : a.WellFormed) (axis : Nat) :
    a.dims.extent axis ≤ maxCount := by
  by_cases h : axis < a.dims.length
  · exact ha.extent_le _ (Shape.extent_mem h)
  · rw [Shape.extent_of_length_le (by omega)]
    decide

theorem WellFormed.rows_le (ha : a.WellFormed) : a.rows ≤ maxCount := ha.extent_le_maxCount 0

theorem WellFormed.cols_le (ha : a.WellFormed) : a.cols ≤ maxCount := by
  unfold cols
  split
  · exact ha.extent_le_maxCount 1
  · exact (Nat.div_le_self a.size a.rows).trans ha.size_le_maxCount

theorem WellFormed.cols_mul_rows_le (ha : a.WellFormed) : a.cols * a.rows ≤ maxCount := by
  unfold cols
  split
  · rename_i h
    rw [h, Nat.mul_zero]
    exact Nat.zero_le _
  · exact (Nat.div_mul_le_self a.size a.rows).trans ha.size_le_maxCount

end NDArray

namespace Dense

variable {K : Type} [ArrayElement K] [LawfulArrayElement K] {m n : Nat} {a a' b b' c : NDArray}

/-! ### Answers are matrices -/

omit [LawfulArrayElement K] in
theorem eq_collect_of_result {f : Unit → Mat K m n} (h : result K f = .ok c) :
    m * n ≤ maxCount ∧ c = Mat.collect f := by
  unfold result at h
  split at h
  · cases h
    exact ⟨‹_›, rfl⟩
  · cases h

omit [LawfulArrayElement K] in
theorem exists_result_of_product [Arith K] (h : product K a b = .ok c) :
    ∃ f : Unit → Mat K a.rows b.cols, result K f = .ok c := by
  obtain ⟨-, -, h⟩ := exists_of_bind_ok h
  obtain ⟨-, -, hrest⟩ := exists_of_bind_ok h
  split at hrest
  · exact ⟨_, hrest⟩
  · cases hrest

omit [LawfulArrayElement K] in
theorem exists_collect_of_transpose [Arith K] {f : K → K} (h : transpose K f a = .ok c) :
    a.dims.isMatrix = true ∧ ∃ g : Unit → Mat K a.cols a.rows, c = Mat.collect g := by
  obtain ⟨_, hcheck, hrest⟩ := exists_of_bind_ok h
  cases hrest
  refine ⟨?_, _, rfl⟩
  unfold checkMatrix at hcheck
  split at hcheck
  · assumption
  · cases hcheck

omit [LawfulArrayElement K] in
/-- A system has no other answers than matrices. -/
theorem solve_ensures [Arith K] [MatrixScalar K Float] {P : NDArray → Prop}
    (hresult : ∀ f : Unit → Mat K a.cols b.cols, (Logged.ofExcept (result K f)).Ensures P) :
    (solve K a b).Ensures P := by
  unfold solve
  refine Logged.ensures_bind_last fun _ => Logged.ensures_bind_last fun _ => ?_
  split
  · intro c h
    cases h
  · split
    · exact hresult _
    · dsimp only
      split
      · intro c h
        cases h
      · exact Logged.ensures_bind_last fun _ => hresult _

/-! ### Results are well formed -/

theorem collect_wellFormed (hm : m ≤ maxCount) (hn : n ≤ maxCount) (h : m * n ≤ maxCount)
    (f : Unit → Mat K m n) : (Mat.collect f).WellFormed := by
  rw [Mat.collect_eq, Mat.toArray]
  apply LawfulArrayElement.pack_wellFormed
  · exact le_rfl
  · intro d hd
    rcases List.mem_pair.mp hd with rfl | rfl
    · exact hm
    · exact hn
  · rw [Shape.count?_pair hm h]
    simp [Nat.mul_comm]

theorem result_wellFormed (hm : m ≤ maxCount) (hn : n ≤ maxCount) {f : Unit → Mat K m n}
    (h : result K f = .ok c) : c.WellFormed := by
  obtain ⟨hfits, rfl⟩ := eq_collect_of_result h
  exact collect_wellFormed hm hn hfits f

theorem product_wellFormed [Arith K] (ha : a.WellFormed) (hb : b.WellFormed)
    (h : product K a b = .ok c) : c.WellFormed := by
  obtain ⟨f, hf⟩ := exists_result_of_product h
  exact result_wellFormed ha.rows_le hb.cols_le hf

theorem transpose_wellFormed [Arith K] (f : K → K) (ha : a.WellFormed)
    (h : transpose K f a = .ok c) : c.WellFormed := by
  obtain ⟨-, g, rfl⟩ := exists_collect_of_transpose h
  exact collect_wellFormed ha.cols_le ha.rows_le ha.cols_mul_rows_le g

theorem solve_wellFormed [Arith K] [MatrixScalar K Float] (ha : a.WellFormed) (hb : b.WellFormed) :
    (solve K a b).Ensures NDArray.WellFormed :=
  solve_ensures fun _ _ h => result_wellFormed ha.cols_le hb.cols_le h

/-! ### Solving -/

section

variable (K)

def answer {k : Nat} (s : Option (Mat.ColumnSolver K Float m n)) (b : Mat K m k) : Logged NDArray :=
  match s with
  | none => Logged.ofExcept (.error .singularMatrix)
  | some s => do
    Logged.emit (s.warnings.map .warning)
    result K fun _ => b.mapColumns s.column

omit [LawfulArrayElement K] in
/-- The operands are looked at first, then the solver of the matrix answers to the right-hand side. -/
theorem solve_eq [Arith K] [MatrixScalar K Float] (a b : NDArray) : solve K a b = (do
    checkMatrix a
    checkMatrix b
    if a.rows ≠ b.rows then Logged.ofExcept (.error (.shapeMismatch a.dims b.dims))
    else if a.rows = 0 ∨ a.cols = 0 then
      Logged.ofExcept (result K fun _ => (Mat.zero : Mat K a.cols b.cols))
    else answer K (Mat.solver? (Mat.ofArray a a.rows a.cols)) (Mat.ofArray b a.rows b.cols)) := by
  unfold solve
  simp only [Mat.solve_eq_apply]
  cases Mat.solver? (R := Float) (Mat.ofArray a a.rows a.cols : Mat K a.rows a.cols) with
  | none => rfl
  | some s => rfl

end

omit [LawfulArrayElement K] in
/-- Only the shapes and the entries of the operands enter into a system. -/
theorem solve_congr [Arith K] [MatrixScalar K Float] (ha : a.dims = a'.dims) (hb : b.dims = b'.dims)
    (haread : ∀ m n, (Mat.ofArray a m n : Mat K m n) = Mat.ofArray a' m n)
    (hbread : ∀ m n, (Mat.ofArray b m n : Mat K m n) = Mat.ofArray b' m n) :
    solve K a b = solve K a' b' := by
  rw [solve_eq, solve_eq]
  unfold checkMatrix NDArray.rows NDArray.cols NDArray.size NDArray.rows
  simp only [haread, hbread]
  rw [ha, hb]

/-! ### The room at the end of the operands -/

theorem ofArray_trim (ha : a.WellFormed) (m n : Nat) :
    (Mat.ofArray a.trim m n : Mat K m n) = Mat.ofArray a m n := by
  unfold Mat.ofArray
  rw [LawfulArrayElement.read_trim ha]

theorem product_trim [Arith K] (ha : a.WellFormed) (hb : b.WellFormed) :
    product K a.trim b.trim = product K a b := by
  unfold product
  simp only [ofArray_trim ha, ofArray_trim hb]
  rfl

theorem transpose_trim [Arith K] (f : K → K) (ha : a.WellFormed) :
    transpose K f a.trim = transpose K f a := by
  unfold transpose
  simp only [ofArray_trim ha]
  rfl

theorem solve_trim [Arith K] [MatrixScalar K Float] (ha : a.WellFormed) (hb : b.WellFormed) :
    solve K a.trim b.trim = solve K a b :=
  solve_congr rfl rfl (ofArray_trim ha) (ofArray_trim hb)

variable (K)

theorem product_of_twin [Arith K] (ha : a.Twin a') (hb : b.Twin b') :
    product K a b = product K a' b' := by
  rw [← product_trim ha.left hb.left, ha.trim_eq, hb.trim_eq, product_trim ha.right hb.right]

theorem transpose_of_twin [Arith K] (f : K → K) (ha : a.Twin a') :
    transpose K f a = transpose K f a' := by
  rw [← transpose_trim f ha.left, ha.trim_eq, transpose_trim f ha.right]

theorem solve_of_twin [Arith K] [MatrixScalar K Float] (ha : a.Twin a') (hb : b.Twin b') :
    solve K a b = solve K a' b' := by
  rw [← solve_trim ha.left hb.left, ha.trim_eq, hb.trim_eq, solve_trim ha.right hb.right]

end Dense

namespace Engine

theorem dense_sound : dense.Sound where
  product k a b ha hb := by
    cases k with
    | real => exact fun c h => Dense.product_wellFormed ha hb h
    | complex => exact fun c h => Dense.product_wellFormed ha hb h
  transpose k a ha := by
    cases k with
    | real => exact fun c h => Dense.transpose_wellFormed id ha h
    | complex => exact fun c h => Dense.transpose_wellFormed id ha h
  adjoint a ha c h := Dense.transpose_wellFormed Cartesian.conj ha h
  solve k a b ha hb := by
    cases k with
    | real => exact Dense.solve_wellFormed ha hb
    | complex => exact Dense.solve_wellFormed ha hb

theorem dense_blind : dense.Blind where
  product k a a' b b' ha hb := by
    cases k with
    | real =>
      have h := Dense.product_of_twin Float ha hb
      exact congrArg (fun r => (Logged.ofExcept r).view _) h
    | complex =>
      have h := Dense.product_of_twin (Cartesian Float) ha hb
      exact congrArg (fun r => (Logged.ofExcept r).view _) h
  transpose k a a' ha := by
    cases k with
    | real =>
      have h := Dense.transpose_of_twin Float id ha
      exact congrArg (fun r => (Logged.ofExcept r).view _) h
    | complex =>
      have h := Dense.transpose_of_twin (Cartesian Float) id ha
      exact congrArg (fun r => (Logged.ofExcept r).view _) h
  adjoint a a' ha := by
    have h := Dense.transpose_of_twin (Cartesian Float) Cartesian.conj ha
    exact congrArg (fun r => (Logged.ofExcept r).view _) h
  solve k a a' b b' ha hb := by
    cases k with
    | real => exact congrArg (Logged.view _) (Dense.solve_of_twin Float ha hb)
    | complex => exact congrArg (Logged.view _) (Dense.solve_of_twin (Cartesian Float) ha hb)

end Engine
end NumericArrays
