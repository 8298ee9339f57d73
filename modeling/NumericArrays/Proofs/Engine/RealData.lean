import NumericArrays.Proofs.Engine.Columns
import NumericArrays.Proofs.Mat.RealData

/-! Systems of real numbers, given to the real and to the complex solver. The complex one divides by the
    formula of the textbook, whose squares may overflow or vanish where the quotient does not. It does what the
    real solver would do that divides by this formula, and what the real solver does where the quotients are the
    same. -/
namespace NumericArrays

open Cartesian (Denotes)
open DoubleLike (toFloat)

/-! ### Real numbers as elements -/

class RealElement (X : Type) [Arith X] [MatrixScalar X Float] [DoubleLike X] [ArrayElement X] : Prop where
  toFloat_read : ∀ (a : NDArray) (p : Nat), toFloat (ArrayElement.read a p : X) = a.re p
  pack_eq : ∀ (dims : Shape) (data : Array X),
    ArrayElement.pack dims data = ArrayElement.pack dims (data.map toFloat)

instance : RealElement Float where
  toFloat_read _ _ := rfl
  pack_eq _ data := congrArg _ (Array.map_id' data).symm

instance : ArrayElement Textbook where
  read a p := ⟨a.re p⟩
  pack dims data := ArrayElement.pack dims (data.map Textbook.value)

instance : RealElement Textbook where
  toFloat_read _ _ := rfl
  pack_eq _ _ := rfl

variable {X : Type} [Arith X] [MatrixScalar X Float] [DoubleLike X] [ArrayElement X] [RealElement X]

namespace NDArray

def AllFinite (a : NDArray) : Prop := ∀ p < a.size, (a.re p).isFinite = true ∧ (a.im p).isFinite = true

instance (a : NDArray) : Decidable a.AllFinite := inferInstanceAs (Decidable (∀ p < a.size, _))

structure RealMatrix (a : NDArray) (m n : Nat) : Prop where
  wellFormed : a.WellFormed
  isMatrix : a.dims.isMatrix = true
  rows_eq : a.rows = m
  cols_eq : a.cols = n
  imag_none : a.imag = none
  finite : a.AllFinite

namespace RealMatrix

variable {a : NDArray} {m n : Nat}

theorem size_eq (h : a.RealMatrix m n) : a.size = m * n := by
  rw [h.wellFormed.size_of_isMatrix h.isMatrix, ← h.wellFormed.cols_eq h.isMatrix, h.rows_eq, h.cols_eq]

/-- The missing imaginary parts are read as zero. -/
theorem denotes (h : a.RealMatrix m n) :
    (Mat.ofArray a m n : Mat (Cartesian Float) m n).Denotes (Mat.ofArray a m n : Mat X m n) := by
  intro i j
  have hplace : i.val + j * m < a.size := by
    rw [h.size_eq]
    exact Mat.place_lt i j
  have hcartesian : a.cartesian (i + j * m) = ⟨a.re (i + j * m), 0⟩ := by
    rw [cartesian, im_of_real h.imag_none]
  rw [Mat.ofArray, Mat.ofArray, Mat.entry_ofFn, Mat.entry_ofFn]
  change Denotes (a.cartesian (i + j * m)) _
  rw [hcartesian]
  exact (Denotes.ofReal (h.finite _ hplace).1).congr (RealElement.toFloat_read a _)

/-- Real data in the shape of a matrix. -/
theorem of_data {data : Array Float} (hm : m ≤ maxCount) (hn : n ≤ maxCount)
    (hcount : Shape.count? [m, n] = some data.size) (hfinite : ∀ x ∈ data, x.isFinite = true) :
    (⟨[m, n], data, none, .double⟩ : NDArray).RealMatrix m n := by
  have hw : (⟨[m, n], data, none, .double⟩ : NDArray).WellFormed := by
    refine wellFormed_exact le_rfl ?_ hcount (fun _ h => by cases h) fun _ => rfl
    intro d hd
    rcases List.mem_pair.mp hd with rfl | rfl
    · exact hm
    · exact hn
  refine ⟨hw, rfl, rfl, hw.cols_eq rfl, rfl, fun p hp => ?_⟩
  have hlt : p < data.size := Shape.count_of_count? hcount ▸ hp
  rw [re, getD_of_lt hlt, im_of_real rfl]
  exact ⟨hfinite _ (Array.getElem_mem hlt), by decide⟩

end RealMatrix
end NDArray

/-! ### Results -/

namespace Mat

variable {n k : Nat}

theorem toArray_eq (x : Mat X n k) :
    x.toArray = ⟨[n, k], x.columns.flatten.toArray.map toFloat, none, .double⟩ := by
  rw [toArray, RealElement.pack_eq]
  rfl

theorem getD_flatten_map {K : Type} (f : K → Float) (x : Mat K n k) (i : Fin n) (j : Fin k) :
    (x.columns.flatten.toArray.map f).getD (i + n * j) 0 = f (x.entry i j) := by
  rw [Array.getD_eq_getD_getElem?, Array.getElem?_map, flatten_getElem?]
  rfl

theorem toFloat_entry (x : Mat X n k) (i : Fin n) (j : Fin k) :
    x.toArray.re (i + n * j) = toFloat (x.entry i j) := by
  rw [toArray_eq]
  exact getD_flatten_map toFloat x i j

theorem re_toArray (x : Mat Float n k) (i : Fin n) (j : Fin k) : x.toArray.re (i + n * j) = x.entry i j :=
  x.toFloat_entry i j

theorem cartesian_toArray (z : Mat (Cartesian Float) n k) (i : Fin n) (j : Fin k) :
    z.toArray.cartesian (i + n * j) = z.entry i j := by
  have hre : z.toArray.re (i + n * j) = (z.entry i j).re := getD_flatten_map Cartesian.re z i j
  have him : z.toArray.im (i + n * j) = (z.entry i j).im := getD_flatten_map Cartesian.im z i j
  rw [NDArray.cartesian, hre, him]

end Mat

namespace Dense

section

variable (K : Type) [ArrayElement K] [Arith K] [MatrixScalar K Float] {a b : NDArray} {m n k : Nat}

/-- Without equations the solution has no elements. -/
theorem solve_of_no_rows (ha : a.dims.isMatrix = true) (hb : b.dims.isMatrix = true) (hrows : a.rows = b.rows)
    (h : a.rows = 0) :
    solve K a b = Logged.ofExcept (result K fun _ => (Mat.zero : Mat K a.cols b.cols)) :=
  (solve_of_matrices K ha hb hrows).trans (if_pos (Or.inl h))

theorem solve_of_extents (ha : a.dims.isMatrix = true) (hb : b.dims.isMatrix = true) (hm : a.rows = m)
    (hn : a.cols = n) (hrows : b.rows = m) (hk : b.cols = k) (hmpos : 1 ≤ m) (hnpos : 1 ≤ n) :
    solve K a b = answer K (Mat.solver? (Mat.ofArray a m n)) (Mat.ofArray b m k) := by
  subst hm hn hk
  exact solve_eq_answer K ha hb hrows.symm hmpos hnpos

end

variable {a b c : NDArray} {n k : Nat}

omit [RealElement X] in
/-- Matrices of one size become arrays or are too large, whatever their entries are. -/
theorem result_denotes {x : Mat X n k} {z : Mat (Cartesian Float) n k} (h : z.Denotes x)
    (hok : result X (fun _ => x) = .ok c) : n * k ≤ maxCount ∧ z.Denotes x ∧ c = x.toArray ∧
      result (Cartesian Float) (fun _ => z) = .ok z.toArray := by
  rw [result_eq] at hok ⊢
  split at hok
  · rename_i hfits
    exact ⟨hfits, h, (Except.ok.inj hok).symm, if_pos hfits⟩
  · cases hok

/-- What the solvers find for a square system of real numbers. -/
theorem solve_denotes (ha : a.RealMatrix n n) (hb : b.RealMatrix n k)
    (hsame : (Mat.ofArray a n n).Quotients (SameQuotient (X := X)) (Mat.ofArray b n k))
    (hok : (solve X a b).result = .ok c) :
    (∃ (x : Mat X n k) (z : Mat (Cartesian Float) n k), n * k ≤ maxCount ∧ z.Denotes x ∧ c = x.toArray ∧
        (solve (Cartesian Float) a b).result = .ok z.toArray) ∧
      (solve (Cartesian Float) a b).events = (solve X a b).events := by
  by_cases hn : n = 0
  · obtain rfl := ha.cols_eq
    obtain rfl := hb.cols_eq
    have hrows : a.rows = b.rows := ha.rows_eq.trans hb.rows_eq.symm
    have hzero : a.rows = 0 := ha.rows_eq.trans hn
    rw [solve_of_no_rows _ ha.isMatrix hb.isMatrix hrows hzero] at hok ⊢
    rw [solve_of_no_rows _ ha.isMatrix hb.isMatrix hrows hzero]
    have hempty : (Mat.zero : Mat (Cartesian Float) a.cols b.cols).Denotes (Mat.zero : Mat X a.cols b.cols) :=
      fun i => absurd i.isLt (by omega)
    exact ⟨⟨_, _, result_denotes hempty hok⟩, rfl⟩
  · have hpos : 1 ≤ n := Nat.one_le_iff_ne_zero.mpr hn
    have hreal := solve_of_extents X ha.isMatrix hb.isMatrix ha.rows_eq ha.cols_eq hb.rows_eq hb.cols_eq
      hpos hpos
    have hcomplex := solve_of_extents (Cartesian Float) ha.isMatrix hb.isMatrix ha.rows_eq ha.cols_eq
      hb.rows_eq hb.cols_eq hpos hpos
    rw [hreal] at hok ⊢
    rw [hcomplex]
    cases hs : (Mat.solver? (Mat.ofArray a n n) : Option (Mat.ColumnSolver X Float n n)) with
    | none =>
      rw [hs] at hok
      cases hok
    | some s =>
      obtain ⟨s', hs', hwarnings, hdenotes⟩ := Mat.solver?_denotes ha.denotes hb.denotes hsame hs
      rw [hs] at hok
      rw [hs']
      refine ⟨⟨_, _, result_denotes hdenotes hok⟩, ?_⟩
      rw [events_answer, events_answer, hwarnings]

end Dense

namespace Engine

/-- The complex solver succeeds as a real one does that finds `c`: both solutions are finite, they are the
    same numbers up to the signs of zeros, and there are the same warnings. -/
structure SolvedAlike (complex real : Logged NDArray) (c : NDArray) : Prop where
  finite : c.AllFinite
  exists_solution : ∃ d, complex.result = .ok d ∧ d.AllFinite ∧ d.dims = c.dims ∧
    ∀ p < c.size, Denotes (d.cartesian p) (c.re p)
  events_eq : complex.events = real.events

theorem solvedAlike {a b c : NDArray} {n k : Nat} (ha : a.RealMatrix n n) (hb : b.RealMatrix n k)
    (hsame : (Mat.ofArray a n n).Quotients (SameQuotient (X := X)) (Mat.ofArray b n k))
    (hok : (Dense.solve X a b).result = .ok c) :
    SolvedAlike (dense.solve .complex a b) (Dense.solve X a b) c := by
  obtain ⟨⟨x, z, hfits, hdenotes, rfl, hz⟩, hevents⟩ := Dense.solve_denotes ha hb hsame hok
  have hn : n ≤ maxCount := ha.rows_eq ▸ ha.wellFormed.rows_le
  have hall : ∀ p < n * k, Denotes (z.toArray.cartesian p) (x.toArray.re p) := by
    intro p hp
    obtain ⟨i, j, rfl⟩ := Mat.exists_place hp
    rw [Mat.cartesian_toArray, Mat.toFloat_entry]
    exact (hdenotes i j).congr rfl
  have hsize : z.toArray.size = n * k := Mat.size_toArray z hn hfits
  have hdims : z.toArray.dims = x.toArray.dims := by
    rw [Mat.dims_toArray, Mat.toArray_eq]
  have hsize' : x.toArray.size = n * k := by
    rw [← hsize, NDArray.size, NDArray.size, hdims]
  constructor
  · intro p hp
    rw [NDArray.im_of_real (congrArg NDArray.imag x.toArray_eq)]
    exact ⟨(hall p (hsize' ▸ hp)).finite, by decide⟩
  · refine ⟨z.toArray, hz, fun p hp => ?_, hdims, fun p hp => hall p (hsize' ▸ hp)⟩
    have hp := hall p (hsize ▸ hp)
    exact ⟨hp.re_finite, Binary64.isFinite_of_beq_zero hp.im⟩
  · exact hevents

end Engine

/-! ### Both divisions -/

namespace Mat

variable {n k : Nat}

/-- The quotients that division takes are finite, and the formula of the textbook yields the same. -/
def SameQuotients (a : Mat Float n n) (b : Mat Float n k) : Prop := a.Quotients SameQuotient b

instance (a : Mat Float n n) (b : Mat Float n k) : Decidable (a.SameQuotients b) :=
  inferInstanceAs (Decidable (a.Quotients _ b))

/-- The quotients that the formula of the textbook takes are finite. -/
def FiniteQuotients (a : Mat Textbook n n) (b : Mat Textbook n k) : Prop :=
  a.Quotients (fun x y => FiniteDouble (x / y)) b

instance (a : Mat Textbook n n) (b : Mat Textbook n k) : Decidable (a.FiniteQuotients b) :=
  inferInstanceAs (Decidable (a.Quotients _ b))

theorem FiniteQuotients.quotients {a : Mat Textbook n n} {b : Mat Textbook n k} (h : a.FiniteQuotients b) :
    a.Quotients SameQuotient b :=
  fun f hf => (h f hf).mono fun _ _ => sameQuotient_textbook

end Mat

namespace Engine

/-- A square system of finite real numbers. As long as the quotients are finite, the complex solver does what
    elimination does that divides by the formula of the textbook. It does what the real solver does if the
    quotients are the same by this formula. No bound on the numbers makes them so: two quotients that differ
    in their last place may make one pivot zero and leave the other one. -/
theorem dense_solve_real_data (n k : Nat) (a b : NDArray) (ha : a.RealMatrix n n) (hb : b.RealMatrix n k) :
    (∀ c, (Mat.ofArray a n n).FiniteQuotients (Mat.ofArray b n k) →
        (Dense.solve Textbook a b).result = .ok c →
          SolvedAlike (dense.solve .complex a b) (Dense.solve Textbook a b) c) ∧
      ∀ c, (Mat.ofArray a n n).SameQuotients (Mat.ofArray b n k) →
        (dense.solve .real a b).result = .ok c →
          SolvedAlike (dense.solve .complex a b) (dense.solve .real a b) c :=
  ⟨fun _ hfinite hok => solvedAlike ha hb hfinite.quotients hok, fun _ hsame hok => solvedAlike ha hb hsame hok⟩

/-- Rows are exchanged, and the second pivot is no power of two. -/
def exchanged : NDArray := ⟨[2, 2], #[1, 2, 2, 1], none, .double⟩

def threes : NDArray := ⟨[2, 1], #[3, 3], none, .double⟩

/-- A system whose first unknown comes out one place apart by the two quotients. -/
def thirds : NDArray := ⟨[2, 2], #[0, 3, 3, 2], none, .double⟩

def oneTwo : NDArray := ⟨[2, 1], #[1, 2], none, .double⟩

theorem exchanged_realMatrix : exchanged.RealMatrix 2 2 :=
  .of_data (by decide) (by decide) (by decide) (by decide)

theorem threes_realMatrix : threes.RealMatrix 2 1 := .of_data (by decide) (by decide) (by decide) (by decide)

theorem thirds_realMatrix : thirds.RealMatrix 2 2 :=
  .of_data (by decide) (by decide) (by decide) (by decide)

theorem oneTwo_realMatrix : oneTwo.RealMatrix 2 1 := .of_data (by decide) (by decide) (by decide) (by decide)

/-- Both solvers find ones for the first system. For the second one they find different numbers. -/
theorem dense_solve_real_data_exchanged :
    ((Mat.ofArray exchanged 2 2).SameQuotients (Mat.ofArray threes 2 1) ∧
      (dense.solve .real exchanged threes).result = .ok ⟨[2, 1], #[1, 1], none, .double⟩ ∧
      ∃ d, (dense.solve .complex exchanged threes).result = .ok d ∧ d.AllFinite) ∧
    (Mat.ofArray thirds 2 2).FiniteQuotients (Mat.ofArray oneTwo 2 1) ∧
      ¬ (Mat.ofArray thirds 2 2).SameQuotients (Mat.ofArray oneTwo 2 1) ∧
      ∃ c d, (Dense.solve Textbook thirds oneTwo).result = .ok c ∧
        (dense.solve .real thirds oneTwo).result ≠ .ok c ∧
        (dense.solve .complex thirds oneTwo).result = .ok d ∧ d.AllFinite ∧ Denotes (d.cartesian 0) (c.re 0) := by
  constructor
  · have hsame : (Mat.ofArray exchanged 2 2).SameQuotients (Mat.ofArray threes 2 1) := by decide +kernel
    have hok : (dense.solve .real exchanged threes).result = .ok ⟨[2, 1], #[1, 1], none, .double⟩ := by
      decide +kernel
    obtain ⟨-, hreal⟩ := dense_solve_real_data 2 1 exchanged threes exchanged_realMatrix threes_realMatrix
    obtain ⟨d, hd, hfinite, -⟩ := (hreal _ hsame hok).exists_solution
    exact ⟨hsame, hok, d, hd, hfinite⟩
  · have hfinite : (Mat.ofArray thirds 2 2).FiniteQuotients (Mat.ofArray oneTwo 2 1) := by decide +kernel
    obtain ⟨c, hc, hne, hcount⟩ : ∃ c, (Dense.solve Textbook thirds oneTwo).result = .ok c ∧
        (dense.solve .real thirds oneTwo).result ≠ .ok c ∧ 0 < c.size :=
      ⟨⟨[2, 1], #[.ofBits 0x3FDC71C71C71C71C, .ofBits 0x3FD5555555555555], none, .double⟩, by decide +kernel⟩
    obtain ⟨htextbook, -⟩ := dense_solve_real_data 2 1 thirds oneTwo thirds_realMatrix oneTwo_realMatrix
    obtain ⟨d, hd, hall, -, hsame⟩ := (htextbook c hfinite hc).exists_solution
    exact ⟨hfinite, by decide +kernel, c, d, hc, hne, hd, hall, hsame 0 hcount⟩

/-- A number whose square is too small. -/
def tiny : NDArray := ⟨[1, 1], #[Float.ofBits 0x1A70000000000000], none, .double⟩

def one : NDArray := ⟨[1, 1], #[1], none, .double⟩

/-- Without the conditions on quotients it fails: one divided by a tiny number is finite, and the complex
    solver, which divides by the square of that number, finds an infinity beside what is no number. -/
theorem dense_solve_complex_not_finite : tiny.RealMatrix 1 1 ∧ one.RealMatrix 1 1 ∧
    ∃ c d, (dense.solve .real tiny one).result = .ok c ∧ c.AllFinite ∧
      (dense.solve .complex tiny one).result = .ok d ∧ ¬ d.AllFinite :=
  ⟨.of_data (by decide) (by decide) (by decide) (by decide),
    .of_data (by decide) (by decide) (by decide) (by decide),
    ⟨[1, 1], #[Float.ofBits 0x6570000000000000], none, .double⟩,
    ⟨[1, 1], #[Binary64.infinity], some #[Binary64.nan], .double⟩, by decide +kernel⟩

/-- The rows `0.1, 1` and `0.05, 0.5`, the last number one place lower. -/
def nearlyDependent : NDArray :=
  ⟨[2, 2], #[.ofBits 0x3FB999999999999A, .ofBits 0x3FA999999999999A, 1, .ofBits 0x3FDFFFFFFFFFFFFF], none, .double⟩

/-- Numbers of moderate size do not suffice: by the formula of the textbook the second pivot is zero. -/
theorem dense_solve_complex_singular : nearlyDependent.RealMatrix 2 2 ∧ threes.RealMatrix 2 1 ∧
    (∃ c, (dense.solve .real nearlyDependent threes).result = .ok c ∧ c.AllFinite) ∧
      (dense.solve .complex nearlyDependent threes).result = .error .singularMatrix :=
  ⟨.of_data (by decide) (by decide) (by decide) (by decide), threes_realMatrix,
    ⟨⟨[2, 1], #[.ofBits 0x438E000000000001, .ofBits 0xC358000000000000], none, .double⟩, by decide +kernel⟩,
    by decide +kernel⟩

end Engine
end NumericArrays
