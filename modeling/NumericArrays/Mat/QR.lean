import NumericArrays.Mat.Basic

/-! Orthogonal-triangular factors of a matrix by reflections, with columns exchanged for the sake of
    large ones. -/
namespace NumericArrays

/-- The factors after some steps. Step `s` leaves row `s` of the triangular factor on and to the right of
    the diagonal and the vector of its reflection below it; the vector has a 1 on the diagonal that is
    not stored. Column `j` of the product is column `perm[j]` of the factored matrix. -/
structure PivotedQR (K : Type) (m n steps : Nat) where
  packed : Mat K m n
  /-- Factors of the reflections; zero stands for none. -/
  factors : Vector K steps
  perm : Vector (Fin n) n

namespace PivotedQR

open Mat (after)
open MatrixScalar (conj modulus ofReal normSq)

variable {K R : Type} [Arith K] [Arith R] [LT R] [DecidableLT R] [RealScalar R] [MatrixScalar K R]
variable {m n steps : Nat}

/-- Reflects `x` along the vector with a 1 in row `c` and the entries of `v` below it: takes off `t` times
    the component along the vector. -/
def reflect (c : Fin m) (v : Vector K m) (t : K) (x : Vector K m) : Vector K m :=
  let dot := ((after c).foldl (fun sum i => sum + conj (v.get i) * x.get i) 0 + x.get c) * t
  .ofFn fun i =>
    if i < c then x.get i
    else if i = c then x.get i - dot
    else x.get i - dot * v.get i

/-- Square of the length of column `j` from row `c` on. -/
def lengthSq (a : Mat K m n) (c : Fin m) (j : Fin n) : R :=
  (c :: after c).foldl (fun sum i => sum + normSq (a.entry i j)) 0

/-- The first column, from `d` on, that is longest from row `c` on, and the square of its length. Columns
    whose length is no number are passed over; the square is below zero if there are no others. -/
def pivot (a : Mat K m n) (c : Fin m) (d : Fin n) : Fin n × R :=
  (d :: after d).foldl
    (fun best j =>
      let length := lengthSq a c j
      if best.2 < length then (j, length) else best)
    (d, -1)

/-- A number of the given length in the direction of `x`, or on the real axis if `x` is zero. -/
def directed (length : R) (x : K) : K :=
  let size := modulus x
  if size == 0 then ofReal length else ofReal length * (x / ofReal size)

/-- Reflects the columns from `d` on so that column `d` vanishes below row `c`, where `sigma` is its
    length in the direction of its leading entry. Returns the factor of the reflection as well. -/
def clearColumn (a : Mat K m n) (c : Fin m) (d : Fin n) (sigma : K) : Mat K m n × K :=
  let lead := a.entry c d + sigma
  let t := lead / sigma
  let inverse := 1 / lead
  let v := Vector.ofFn fun i : Fin m => a.entry i d * inverse
  let columns := Vector.ofFn fun j : Fin n =>
    if j < d then a.columns.get j
    else if j = d then
      .ofFn fun i => if i < c then a.entry i d else if i = c then -sigma else v.get i
    else reflect c v t (a.columns.get j)
  (⟨columns⟩, t)

/-- One more step. Remaining columns of length zero need no reflection. -/
def step (f : PivotedQR K m n steps) (hm : steps < m) (hn : steps < n) :
    PivotedQR K m n (steps + 1) :=
  let c : Fin m := ⟨steps, hm⟩
  let d : Fin n := ⟨steps, hn⟩
  let (j, best) := pivot f.packed c d
  let a := f.packed.swapColumns d j
  let perm := f.perm.swap d j d.isLt j.isLt
  let lengthSq := if best < 0 then 0 else best
  if lengthSq == 0 then ⟨a, f.factors.push 0, perm⟩
  else
    let sigma := directed (RealScalar.sqrt lengthSq) (a.entry c d)
    let (a, t) := clearColumn a c d sigma
    ⟨a, f.factors.push t, perm⟩

def factorUpTo (a : Mat K m n) : (k : Nat) → k ≤ min m n → PivotedQR K m n k
  | 0, _ => ⟨a, #v[], .ofFn id⟩
  | k + 1, h => (factorUpTo a k (Nat.le_of_succ_le h)).step (by omega) (by omega)

def factor (a : Mat K m n) : PivotedQR K m n (min m n) := factorUpTo a (min m n) (Nat.le_refl _)

def reflectAt (f : PivotedQR K m n (min m n)) (s : Fin (min m n)) (x : Vector K m) : Vector K m :=
  let c := s.castLE (Nat.min_le_left m n)
  let d := s.castLE (Nat.min_le_right m n)
  let t := f.factors.get s
  if t == 0 then x else reflect c (f.packed.columns.get d) t x

/-- The conjugate transpose of the orthogonal factor, applied to a column. -/
def applyAdjoint (f : PivotedQR K m n (min m n)) (x : Vector K m) : Vector K m :=
  (List.finRange (min m n)).foldl (fun x s => f.reflectAt s x) x

def applyOrthogonal (f : PivotedQR K m n (min m n)) (x : Vector K m) : Vector K m :=
  (List.finRange (min m n)).foldr f.reflectAt x

def upper (f : PivotedQR K m n (min m n)) (i j : Fin (min m n)) : K :=
  f.packed.entry (i.castLE (Nat.min_le_left m n)) (j.castLE (Nat.min_le_right m n))

/-- What a diagonal entry of the triangular factor must pass to count. -/
def tolerance (f : PivotedQR K m n (min m n)) : R :=
  match min m n, f.upper with
  | 0, _ => 0
  | _ + 1, u => RealScalar.ofNat (max m n) * RealScalar.epsilon * modulus (u 0 0)

/-- How many diagonal entries of the triangular factor count before the first that does not. -/
def rank (f : PivotedQR K m n (min m n)) : Nat :=
  ((List.finRange (min m n)).takeWhile fun i => f.tolerance < modulus (f.upper i i)).length

omit [Arith K] in
theorem rank_le (f : PivotedQR K m n (min m n)) : f.rank ≤ min m n := by
  simpa [rank] using ((List.finRange (min m n)).takeWhile_sublist
    (fun i => f.tolerance < modulus (f.upper i i))).length_le

omit [Arith K] in
theorem rank_le_rows (f : PivotedQR K m n (min m n)) : f.rank ≤ m :=
  Nat.le_trans f.rank_le (Nat.min_le_left m n)

omit [Arith K] in
theorem rank_le_columns (f : PivotedQR K m n (min m n)) : f.rank ≤ n :=
  Nat.le_trans f.rank_le (Nat.min_le_right m n)

end PivotedQR
end NumericArrays
