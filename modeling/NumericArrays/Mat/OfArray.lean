import NumericArrays.Mat.Basic
import NumericArrays.NDArray.Basic

/-! Arrays read as matrices, and matrices as arrays. -/
namespace NumericArrays

namespace NDArray

def rows (a : NDArray) : Nat := a.dims.extent 0

def cols (a : NDArray) : Nat := if a.rows = 0 then a.dims.extent 1 else a.size / a.rows

end NDArray

class ArrayElement (K : Type) where
  /-- Element at a position. -/
  read : NDArray → Nat → K
  /-- Double array of a shape with the elements in storage order. -/
  pack : Shape → Array K → NDArray

/-- Imaginary parts are not read. -/
instance : ArrayElement Float where
  read := NDArray.re
  pack dims data := ⟨dims, data, none, .double⟩

/-- Real arrays have imaginary part zero; arrays made from complex numbers are complex. -/
instance : ArrayElement (Cartesian Float) where
  read := NDArray.cartesian
  pack dims data := ⟨dims, data.map (·.re), some (data.map (·.im)), .double⟩

namespace Mat

variable {K : Type} [ArrayElement K] {m n : Nat}

def ofArray (a : NDArray) (m n : Nat) : Mat K m n :=
  ofFn fun i j => ArrayElement.read a (i + j * m)

def toArray (a : Mat K m n) : NDArray :=
  ArrayElement.pack [m, n] a.columns.flatten.toArray

/-- A matrix as an array. It is computed only if it has entries: otherwise one of its extents is zero, and
    the other one may be too large to go through. -/
def collect (a : Unit → Mat K m n) : NDArray :=
  if m = 0 ∨ n = 0 then ArrayElement.pack [m, n] (#[] : Array K) else (a ()).toArray

theorem collect_eq (a : Unit → Mat K m n) : collect a = (a ()).toArray := by
  unfold collect
  split
  · rename_i h
    have empty : (a ()).columns.flatten.toArray = #[] := by
      apply Array.eq_empty_of_size_eq_zero
      rcases h with rfl | rfl <;> simp
    rw [toArray, empty]
  · rfl

end Mat
end NumericArrays
