import NumericArrays.Scalar.Basic

/-! Matrices of fixed size, stored by columns: their products, their transposes, and triangular systems. -/
namespace NumericArrays

structure Mat (K : Type) (m n : Nat) where
  columns : Vector (Vector K m) n

namespace Mat

variable {K : Type} {m n : Nat}

theorem get_ofFn {α : Type} (f : Fin n → α) (i : Fin n) : (Vector.ofFn f).get i = f i := by
  change (Vector.ofFn f)[i.val] = f i
  simp

def entry (a : Mat K m n) (i : Fin m) (j : Fin n) : K := (a.columns.get j).get i

def ofFn (f : Fin m → Fin n → K) : Mat K m n :=
  ⟨.ofFn fun j => .ofFn fun i => f i j⟩

@[simp] theorem entry_ofFn (f : Fin m → Fin n → K) (i : Fin m) (j : Fin n) :
    (ofFn f).entry i j = f i j := by
  rw [ofFn, entry, get_ofFn, get_ofFn]

theorem ext_entry {a b : Mat K m n} (h : ∀ i j, a.entry i j = b.entry i j) : a = b := by
  obtain ⟨a⟩ := a
  obtain ⟨b⟩ := b
  congr 1
  apply Vector.ext
  intro j hj
  apply Vector.ext
  intro i hi
  exact h ⟨i, hi⟩ ⟨j, hj⟩

def zero [Zero K] : Mat K m n := ofFn fun _ _ => 0

def setEntry (a : Mat K m n) (i : Fin m) (j : Fin n) (x : K) : Mat K m n :=
  ⟨a.columns.set j ((a.columns.get j).set i x i.isLt) j.isLt⟩

def mapColumns {p : Nat} (f : Vector K m → Vector K p) (a : Mat K m n) : Mat K p n :=
  ⟨a.columns.map f⟩

def swapRows (a : Mat K m n) (i k : Fin m) : Mat K m n :=
  a.mapColumns (·.swap i k i.isLt k.isLt)

def swapColumns (a : Mat K m n) (j k : Fin n) : Mat K m n := ⟨a.columns.swap j k j.isLt k.isLt⟩

def after (c : Fin n) : List (Fin n) := (List.finRange n).filter (c < ·)

/-! ### Products -/

def addMultiple [Add K] [Mul K] (x : Vector K m) (column : Vector K m) (factor : K) : Vector K m :=
  .ofFn fun i => x.get i + column.get i * factor

/-- The combination of the columns of `a` with the given factors, from the first column on. -/
def combine [Zero K] [Add K] [Mul K] (a : Mat K m n) (factors : Vector K n) : Vector K m :=
  (List.finRange n).foldl (fun x k => addMultiple x (a.columns.get k) (factors.get k)) (.replicate m 0)

/-- The matrix product: each of its columns combines the columns of `a`. -/
def product {p : Nat} [Zero K] [Add K] [Mul K] (a : Mat K m n) (b : Mat K n p) : Mat K m p :=
  b.mapColumns a.combine

/-! ### Transposes, copied tile by tile -/

def tileEdge : Nat := 32

/-- The numbers below `n`, cut into runs of `edge`; the last run may be shorter. -/
def runs (edge n : Nat) : List (List (Fin n)) :=
  (List.range ((n + edge - 1) / edge)).map fun b =>
    (List.finRange n).filter fun i => i.val / edge = b

/-- The places of a matrix, tile after tile along the rows of tiles, and by columns inside each. -/
def tiledPlaces (m n : Nat) : List (Fin m × Fin n) :=
  (runs tileEdge n).flatMap fun js =>
    (runs tileEdge m).flatMap fun is =>
      js.flatMap fun j => is.map fun i => (i, j)

def transposeWith {K : Type} [Zero K] {m n : Nat} (f : K → K) (a : Mat K m n) : Mat K n m :=
  (tiledPlaces m n).foldl (fun out (i, j) => out.setEntry j i (f (a.entry i j))) zero

/-! ### Triangular systems, solved one unknown at a time -/

section

variable [Sub K] [Mul K] {r : Nat}

/-- The first `k` unknowns of a lower triangular system with right-hand side `c`. Each is what remains of
    its right-hand side after the unknowns before it are taken off, finished by `finish`. -/
def forwardUpTo (l : Fin r → Fin r → K) (finish : Fin r → K → K) (c : Fin r → K) :
    (k : Nat) → k ≤ r → Vector K k
  | 0, _ => #v[]
  | k + 1, h =>
    let x := forwardUpTo l finish c k (Nat.le_of_succ_le h)
    let i : Fin r := ⟨k, h⟩
    x.push (finish i
      ((List.finRange k).foldl
        (fun sum j => sum - l i (j.castLE (Nat.le_of_succ_le h)) * x.get j) (c i)))

def forward (l : Fin r → Fin r → K) (finish : Fin r → K → K) (c : Fin r → K) : Vector K r :=
  forwardUpTo l finish c r (Nat.le_refl r)

/-- The last `k` unknowns of an upper triangular system with right-hand side `c`. -/
def backwardUpTo [Div K] (u : Fin r → Fin r → K) (c : Fin r → K) :
    (k : Nat) → k ≤ r → Vector K k
  | 0, _ => #v[]
  | k + 1, h =>
    let x := backwardUpTo u c k (Nat.le_of_succ_le h)
    let i : Fin r := ⟨r - (k + 1), by omega⟩
    let rest := (List.finRange k).foldl
      (fun sum (s : Fin k) => sum - u i ⟨r - k + s, by omega⟩ * x.get s) (c i)
    x.insertIdx 0 (rest / u i i)

def backward [Div K] (u : Fin r → Fin r → K) (c : Fin r → K) : Vector K r :=
  backwardUpTo u c r (Nat.le_refl r)

end

end Mat
end NumericArrays
