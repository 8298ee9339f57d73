import NumericArrays.Mat.Solve

/-! Right-hand sides are solved one by one: what is done to a column depends on the matrix alone. -/
namespace NumericArrays.Mat

open MatrixScalar (conj)

/-- What the factors of a matrix make of a right-hand side, with the warnings they call for. -/
structure ColumnSolver (K R : Type) (m n : Nat) where
  column : Vector K m → Vector K n
  warnings : List (Warning R)

def ColumnSolver.apply {K R : Type} {m n k : Nat} (s : ColumnSolver K R m n) (b : Mat K m k) :
    Solved K R n k :=
  ⟨b.mapColumns s.column, s.warnings⟩

section

variable {K R : Type} [Arith K] [Arith R] [LT R] [DecidableLT R] [RealScalar R] [MatrixScalar K R]
variable {m n k : Nat}

def squareSolver (a : Mat K n n) : Option (ColumnSolver K R n n) :=
  (LU.factor? a).map fun f =>
    let ratio : R := f.pivotRatio
    ⟨f.solveColumn, if ratio < RealScalar.epsilon then [.nearlySingular ratio] else []⟩

def tallSolver (a : Mat K m n) : ColumnSolver K R m n :=
  let f := PivotedQR.factor a
  ⟨leastSquaresColumn f, rankWarnings f.rank n⟩

def wideSolver (a : Mat K m n) : ColumnSolver K R m n :=
  let f := PivotedQR.factor (transposeWith conj a)
  ⟨shortestColumn f, rankWarnings f.rank m⟩

/-- The solver of a matrix; a singular square matrix has none. -/
def solver? (a : Mat K m n) : Option (ColumnSolver K R m n) :=
  if h : n = m then
    match n, h, a with
    | _, rfl, a => squareSolver a
  else if n < m then some (tallSolver a)
  else some (wideSolver a)

theorem solve_square (a : Mat K n n) (b : Mat K n k) : a.solve (R := R) b = solveSquare a b := by
  unfold solve
  rw [dif_pos rfl]

theorem solve_tall (h : n < m) (a : Mat K m n) (b : Mat K m k) :
    a.solve (R := R) b = some (solveTall a b) := by
  unfold solve
  rw [dif_neg (Nat.ne_of_lt h), if_pos h]

theorem solve_wide (h : m < n) (a : Mat K m n) (b : Mat K m k) :
    a.solve (R := R) b = some (solveWide a b) := by
  unfold solve
  rw [dif_neg (Nat.ne_of_gt h), if_neg (Nat.lt_asymm h)]

/-- Solving is applying the solver of the matrix. -/
theorem solve_eq_apply (a : Mat K m n) (b : Mat K m k) :
    a.solve (R := R) b = (solver? a).map (·.apply b) := by
  unfold solve solver?
  split
  · rename_i h
    subst h
    simp only [solveSquare, squareSolver, Option.map_map]
    rfl
  · split
    · rfl
    · rfl

end

/-! ### Matrices side by side -/

section

variable {K : Type} {m n k l : Nat}

def append (x : Mat K m k) (y : Mat K m l) : Mat K m (k + l) := ⟨x.columns ++ y.columns⟩

theorem mapColumns_append (f : Vector K m → Vector K n) (x : Mat K m k) (y : Mat K m l) :
    (x.append y).mapColumns f = (x.mapColumns f).append (y.mapColumns f) := by
  simp [mapColumns, append, Vector.map_append]

theorem entry_append (x : Mat K m k) (y : Mat K m l) (i : Fin m) (j : Fin (k + l)) :
    (x.append y).entry i j =
      if h : j.val < k then x.entry i ⟨j, h⟩ else y.entry i ⟨j - k, by omega⟩ := by
  unfold entry append
  change ((x.columns ++ y.columns)[j.val]).get i = _
  rw [Vector.getElem_append]
  split
  · rfl
  · rfl

theorem toArray_flatten_append (x : Mat K m k) (y : Mat K m l) :
    (x.append y).columns.flatten.toArray = x.columns.flatten.toArray ++ y.columns.flatten.toArray := by
  obtain ⟨⟨x, rfl⟩⟩ := x
  obtain ⟨⟨y, rfl⟩⟩ := y
  simp [append, Vector.flatten]

end

end NumericArrays.Mat
