import Mathlib
import NumericArrays.Mat.Basic

/-! Where the entries of a matrix are stored, how single entries and columns change, and what the entries of a
    product are. -/
namespace NumericArrays

/-- The products of the first `n` numbers of two sequences, added to zero one after the other. -/
def dot {K : Type} [Zero K] [Add K] [Mul K] (n : Nat) (x y : Nat → K) : K :=
  (List.range n).foldl (fun sum k => sum + x k * y k) 0

namespace Mat

/-! ### Storage by columns -/

section Storage

variable {K : Type} {n k : Nat}

/-- Where entries are stored. -/
theorem place_lt (i : Fin n) (j : Fin k) : i.val + j * n < n * k := by
  calc i.val + j * n < n + j * n := by omega
    _ = n * (j + 1) := by ring
    _ ≤ n * k := Nat.mul_le_mul_left n j.isLt

theorem exists_place {p : Nat} (hp : p < n * k) : ∃ (i : Fin n) (j : Fin k), i + n * j = p := by
  have hn : 0 < n := Nat.pos_of_mul_pos_right (Nat.zero_lt_of_lt hp)
  exact ⟨⟨p % n, Nat.mod_lt p hn⟩, ⟨p / n, Nat.div_lt_of_lt_mul hp⟩, Nat.mod_add_div p n⟩

/-- Entries are stored by columns. -/
theorem flatten_getElem? (a : Mat K n k) (i : Fin n) (j : Fin k) :
    a.columns.flatten.toArray[i + n * j]? = some (a.entry i j) := by
  have hdiv : (i + n * j) / n = j := by
    rw [Nat.add_mul_div_left _ _ i.pos, Nat.div_eq_of_lt i.isLt, Nat.zero_add]
  have hmod : (i + n * j) % n = i := by
    rw [Nat.add_mul_mod_self_left, Nat.mod_eq_of_lt i.isLt]
  have hplace : i + n * j < k * n := by
    rw [Nat.mul_comm n j, Nat.mul_comm k n]
    exact place_lt i j
  rw [Vector.getElem?_toArray, Vector.getElem?_flatten, dif_pos hplace]
  simp only [hdiv, hmod]
  rfl

/-- Which places are those of a column from row `row` on. -/
theorem place_mem_span (i : Fin n) (j : Fin k) (l row : Nat) :
    l * n + row ≤ i + n * j ∧ i + n * j < l * n + n ↔ j.val = l ∧ row ≤ i := by
  rw [Nat.mul_comm l n]
  rcases lt_trichotomy j.val l with h | h | h
  · have hle : n * (j + 1) ≤ n * l := Nat.mul_le_mul_left n h
    rw [Nat.mul_add, Nat.mul_one] at hle
    omega
  · rw [h]
    omega
  · have hle : n * (l + 1) ≤ n * j := Nat.mul_le_mul_left n h
    rw [Nat.mul_add, Nat.mul_one] at hle
    omega

end Storage

/-! ### Entries and columns -/

section Columns

variable {K : Type} {m n : Nat}

theorem entry_setEntry (a : Mat K m n) (i r : Fin m) (j c : Fin n) (x : K) :
    (a.setEntry i j x).entry r c = if r = i ∧ c = j then x else a.entry r c := by
  change ((a.columns.set j ((a.columns.get j).set i x i.isLt) j.isLt)[c.val]).get r = _
  rw [Vector.getElem_set]
  by_cases hc : c = j
  · subst hc
    rw [if_pos rfl]
    change ((a.columns.get c).set i x i.isLt)[r.val] = _
    rw [Vector.getElem_set]
    by_cases hr : r = i
    · rw [if_pos (congrArg Fin.val hr.symm), if_pos ⟨hr, rfl⟩]
    · rw [if_neg (fun h => hr (Fin.ext h.symm)), if_neg (fun h => hr h.1)]
      rfl
  · rw [if_neg (fun h => hc (Fin.ext h.symm)), if_neg (fun h => hc h.2)]
    rfl

/-- Matrices with the same columns are the same. -/
theorem ext_columns {a b : Mat K m n} (h : ∀ j, a.columns.get j = b.columns.get j) : a = b :=
  ext_entry fun i j => congrArg (·.get i) (h j)

theorem columns_get_mapColumns {p : Nat} (f : Vector K m → Vector K p) (a : Mat K m n) (j : Fin n) :
    (a.mapColumns f).columns.get j = f (a.columns.get j) := by
  change (a.columns.map f)[j.val] = f a.columns[j.val]
  simp

theorem columns_get_zero [Zero K] (j : Fin n) : (zero : Mat K m n).columns.get j = .replicate m 0 := by
  apply Vector.ext
  intro i hi
  exact (entry_ofFn (fun _ _ => 0) ⟨i, hi⟩ j).trans (by simp)

def changeColumn (a : Mat K m n) (j : Fin n) (f : Vector K m → Vector K m) : Mat K m n :=
  ⟨a.columns.set j (f (a.columns.get j)) j.isLt⟩

theorem columns_get_changeColumn (a : Mat K m n) (j l : Fin n) (f : Vector K m → Vector K m) :
    (a.changeColumn j f).columns.get l = if l = j then f (a.columns.get j) else a.columns.get l := by
  change (a.columns.set j (f (a.columns.get j)) j.isLt)[l.val] = _
  rw [Vector.getElem_set]
  by_cases hl : l = j
  · rw [if_pos (congrArg Fin.val hl.symm), if_pos hl]
  · rw [if_neg (fun h => hl (Fin.ext h.symm)), if_neg hl]
    rfl

theorem entry_changeColumn (a : Mat K m n) (i : Fin m) (j l : Fin n) (f : Vector K m → Vector K m) :
    (a.changeColumn j f).entry i l = if l = j then (f (a.columns.get j)).get i else a.entry i l := by
  rw [entry, columns_get_changeColumn]
  split <;> rfl

def fromRow (row : Nat) (f : Fin m → K → K) (x : Vector K m) : Vector K m :=
  .ofFn fun i => if row ≤ i.val then f i (x.get i) else x.get i

theorem get_fromRow (row : Nat) (f : Fin m → K → K) (x : Vector K m) (i : Fin m) :
    (fromRow row f x).get i = if row ≤ i.val then f i (x.get i) else x.get i :=
  get_ofFn _ i

/-- From the first row on nothing is left of a column. -/
theorem fromRow_zero (v : Vector K m) : (fromRow 0 fun i _ => v.get i) = fun _ => v := by
  funext x
  apply Vector.ext
  intro i hi
  exact (get_fromRow 0 (fun i _ => v.get i) x ⟨i, hi⟩).trans (if_pos (Nat.zero_le i))

theorem fromRow_congr {row : Nat} {f g : Fin m → K → K} (h : ∀ i x, row ≤ i.val → f i x = g i x) :
    fromRow row f = fromRow row g := by
  funext x
  rw [fromRow, fromRow]
  congr 1
  funext i
  split
  · exact h i _ ‹_›
  · rfl

end Columns

/-! ### Products -/

section Product

variable {K : Type} [Zero K] [Add K] [Mul K] {m n p : Nat}

omit [Zero K] in
theorem get_addMultiple (x column : Vector K m) (factor : K) (i : Fin m) :
    (addMultiple x column factor).get i = x.get i + column.get i * factor :=
  get_ofFn _ i

omit [Zero K] in
/-- A column to which multiples of columns have been added, in one of its rows. -/
theorem get_foldl_addMultiple (a : Mat K m n) (factors : Vector K n) (ks : List (Fin n)) (x : Vector K m)
    (i : Fin m) :
    (ks.foldl (fun x k => addMultiple x (a.columns.get k) (factors.get k)) x).get i =
      ks.foldl (fun sum k => sum + a.entry i k * factors.get k) (x.get i) := by
  induction ks generalizing x with
  | nil => rfl
  | cons k ks ih =>
    rw [List.foldl_cons, List.foldl_cons, ih, get_addMultiple]
    rfl

theorem get_combine (a : Mat K m n) (factors : Vector K n) (i : Fin m) :
    (a.combine factors).get i =
      (List.finRange n).foldl (fun sum k => sum + a.entry i k * factors.get k) 0 := by
  have hstart : (Vector.replicate m (0 : K)).get i = 0 := by
    change (Vector.replicate m (0 : K))[i.val] = 0
    simp
  rw [combine, get_foldl_addMultiple, hstart]

theorem entry_product (a : Mat K m n) (b : Mat K n p) (i : Fin m) (j : Fin p) :
    (a.product b).entry i j =
      (List.finRange n).foldl (fun sum k => sum + a.entry i k * b.entry k j) 0 := by
  have hcolumn : (a.product b).columns.get j = a.combine (b.columns.get j) := by
    change (b.columns.map a.combine)[j.val] = a.combine b.columns[j.val]
    simp
  rw [entry, hcolumn, get_combine]
  rfl

/-- Indices with and without their bound. -/
theorem foldl_finRange_eq_dot (x y : Nat → K) :
    (List.finRange n).foldl (fun sum (k : Fin n) => sum + x k * y k) 0 = dot n x y := by
  have hindices : (List.finRange n).map Fin.val = List.range n := by simp
  rw [dot, ← hindices, List.foldl_map]

end Product

end Mat
end NumericArrays
