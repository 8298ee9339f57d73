import NumericArrays.InPlace.Basic
import NumericArrays.Mat.OfArray

/-! Matrices in memory, by columns in one buffer. Every access is checked: positions are computed in 64-bit
    words, and a computation that reaches past the end of a buffer stops. -/
namespace NumericArrays

namespace Kernel

open InPlace (Stop addWord mulWord)

variable {α β : Type}

/-! ### Buffers -/

def between (start stop : Nat) : List Nat := List.range' start (stop - start)

def fetch (xs : Array α) (p : Nat) : Except Stop α :=
  match xs[p]? with
  | some x => .ok x
  | none => .error .outOfBounds

def put (xs : Array α) (p : Nat) (x : α) : Except Stop (Array α) :=
  if p < xs.size then .ok (xs.setIfInBounds p x) else .error .outOfBounds

def exchange (xs : Array α) (p q : Nat) : Except Stop (Array α) := do
  let x ← fetch xs p
  let y ← fetch xs q
  let xs ← put xs p y
  put xs q x

def slice (xs : Array α) (start stop : Nat) : Except Stop (Array α) :=
  if start ≤ stop ∧ stop ≤ xs.size then .ok (xs.extract start stop) else .error .outOfBounds

def split (xs : Array α) (p : Nat) : Except Stop (Array α × Array α) :=
  if p ≤ xs.size then .ok (xs.extract 0 p, xs.extract p xs.size) else .error .outOfBounds

/-- Changes the elements from `start` on and below `stop`, each by its place among them. -/
def alter (xs : Array α) (start stop : Nat) (f : Nat → α → α) : Except Stop (Array α) :=
  if start ≤ stop ∧ stop ≤ xs.size then
    .ok (xs.mapIdx fun p x => if start ≤ p ∧ p < stop then f (p - start) x else x)
  else .error .outOfBounds

/-- What a loop over two slices does to an element of the first. It ends with the shorter one. -/
def along (ys : Array β) (f : α → β → α) (t : Nat) (x : α) : α :=
  match ys[t]? with
  | some y => f x y
  | none => x

end Kernel

/-- A matrix in memory. Column `j` has the elements from `j * nrows` on and below `(j + 1) * nrows`. -/
structure Buffer (K : Type) where
  data : Array K
  nrows : Nat
  ncols : Nat

namespace Buffer

open InPlace (Stop addWord mulWord)
open Kernel

variable {K : Type}

def zeros [Zero K] (nrows ncols : Nat) : Except Stop (Buffer K) := do
  let size ← mulWord nrows ncols
  return ⟨.replicate size 0, nrows, ncols⟩

/-- The entries are computed by columns. -/
def fromFn (nrows ncols : Nat) (f : Nat → Nat → Except Stop K) : Except Stop (Buffer K) := do
  let _ ← mulWord nrows ncols
  let places := (List.range ncols).flatMap fun j => (List.range nrows).map fun i => (i, j)
  let data ← places.mapM fun (i, j) => f i j
  return ⟨data.toArray, nrows, ncols⟩

/-! ### Entries -/

def place (b : Buffer K) (i j : Nat) : Except Stop Nat := do
  let base ← mulWord j b.nrows
  addWord base i

def read (b : Buffer K) (i j : Nat) : Except Stop K := do
  let p ← b.place i j
  fetch b.data p

def write (b : Buffer K) (i j : Nat) (x : K) : Except Stop (Buffer K) := do
  let p ← b.place i j
  let data ← put b.data p x
  return { b with data }

/-! ### Columns and rows -/

/-- Where rows `row` and after of column `j` begin and end. -/
def span (b : Buffer K) (j row : Nat) : Except Stop (Nat × Nat) := do
  let base ← mulWord j b.nrows
  let start ← addWord base row
  let stop ← addWord base b.nrows
  return (start, stop)

def column (b : Buffer K) (j row : Nat) : Except Stop (Array K) := do
  let (start, stop) ← b.span j row
  slice b.data start stop

/-- Changes rows `row` and after of column `j`, each entry by its place among them. -/
def alterColumn (b : Buffer K) (j row : Nat) (f : Nat → K → K) : Except Stop (Buffer K) := do
  let (start, stop) ← b.span j row
  let data ← alter b.data start stop f
  return { b with data }

/-- The buffer cut before column `l`, and rows `row` and after of column `j` in the first part. -/
def cut (b : Buffer K) (j l row : Nat) : Except Stop (Array K × Array K × Array K) := do
  let middle ← mulWord l b.nrows
  let (left, right) ← split b.data middle
  let base ← mulWord j b.nrows
  let start ← addWord base row
  let stop ← mulWord (j + 1) b.nrows
  let v ← slice left start stop
  return (left, right, v)

def twoColumns (b : Buffer K) (j l row : Nat) : Except Stop (Array K × Array K) := do
  let (_, right, v) ← b.cut j l row
  let target ← slice right row b.nrows
  return (v, target)

/-- Changes rows `row` and after of column `l` by those of an earlier column `j`. -/
def alterBeside (b : Buffer K) (j l row : Nat) (f : K → K → K) : Except Stop (Buffer K) := do
  let (left, right, v) ← b.cut j l row
  let right ← alter right row b.nrows (along v f)
  return { b with data := left ++ right }

/-- Exchanges column `j` with a later one. The slices exchanged must be equally long. -/
def swapApart (b : Buffer K) (j l : Nat) : Except Stop (Buffer K) := do
  let (left, right, x) ← b.cut j l 0
  let y ← slice right 0 b.nrows
  if x.size = y.size then
    let start ← mulWord j b.nrows
    let stop ← mulWord (j + 1) b.nrows
    let left ← alter left start stop (along y fun _ y => y)
    let right ← alter right 0 b.nrows (along x fun _ x => x)
    return { b with data := left ++ right }
  else throw .outOfBounds

/-- Exchanges two columns. Nothing is looked at if they are the same. -/
def swapColumns (b : Buffer K) (j l : Nat) : Except Stop (Buffer K) :=
  if j = l then .ok b else if j < l then b.swapApart j l else b.swapApart l j

/-- Exchanges two rows, in one column after the other. -/
def swapRows (b : Buffer K) (i k : Nat) : Except Stop (Buffer K) :=
  if i = k then .ok b
  else do
    let data ← (List.range b.ncols).foldlM
      (fun data j => do
        let base ← mulWord j b.nrows
        let p ← addWord base i
        let q ← addWord base k
        exchange data p q)
      b.data
    return { b with data }

end Buffer

/-! ### Products and transposes -/

namespace Kernel

open InPlace (Stop)

variable {K : Type}

/-- The product. Each of its columns gathers multiples of the columns of the first factor. -/
def product [Zero K] [Add K] [Mul K] (a b : Buffer K) : Except Stop (Buffer K) := do
  let out ← Buffer.zeros a.nrows b.ncols
  (List.range b.ncols).foldlM
    (fun out j =>
      (List.range a.ncols).foldlM
        (fun out k => do
          let factor ← b.read k j
          let column ← a.column k 0
          out.alterColumn j 0 (along column fun x y => x + y * factor))
        out)
    out

def tiles (n : Nat) : List Nat :=
  (List.range ((n + Mat.tileEdge - 1) / Mat.tileEdge)).map (· * Mat.tileEdge)

def tile (n start : Nat) : List Nat := between start (min (start + Mat.tileEdge) n)

def transposeWith [Zero K] (f : K → K) (a : Buffer K) : Except Stop (Buffer K) := do
  let out ← Buffer.zeros a.ncols a.nrows
  (tiles a.ncols).foldlM
    (fun out right =>
      (tiles a.nrows).foldlM
        (fun out down =>
          (tile a.ncols right).foldlM
            (fun out j =>
              (tile a.nrows down).foldlM
                (fun out i => do
                  let x ← a.read i j
                  out.write j i (f x))
                out)
            out)
        out)
    out

end Kernel
end NumericArrays
