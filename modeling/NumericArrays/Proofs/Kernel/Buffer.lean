import NumericArrays.Kernel.Buffer
import NumericArrays.Proofs.InPlace.Words
import NumericArrays.Proofs.Kernel.Loops
import NumericArrays.Proofs.Mat.Exact

/-! Vectors and matrices in memory: every access to an entry, a column or a row that the matrix has is within the
    buffer, and changes the matrix as it should. -/
namespace NumericArrays

namespace Kernel

variable {α β : Type} {n : Nat}

/-! ### Vectors -/

theorem fetch_of_getElem? {xs : Array α} {p : Nat} {x : α} (h : xs[p]? = some x) : fetch xs p = .ok x := by
  rw [fetch, h]

theorem fetch_toArray (v : Vector α n) (i : Fin n) : fetch v.toArray i = .ok (v.get i) :=
  fetch_of_getElem? (by rw [Vector.getElem?_toArray, Vector.getElem?_eq_getElem i.isLt]; rfl)

theorem put_toArray (v : Vector α n) (i : Fin n) (x : α) :
    put v.toArray i x = .ok (v.set i x i.isLt).toArray := by
  rw [put, if_pos (by simp), Vector.toArray_set, Array.setIfInBounds, dif_pos (by simp)]

theorem exchange_toArray (v : Vector α n) (i j : Fin n) :
    exchange v.toArray i j = .ok (v.swap i j i.isLt j.isLt).toArray := by
  have hfirst : put v.toArray i (v.get j) = .ok (v.set i (v.get j) i.isLt).toArray := put_toArray v i _
  have hsecond := put_toArray (v.set i (v.get j) i.isLt) j (v.get i)
  rw [exchange, fetch_toArray, InPlace.ok_bind, fetch_toArray, InPlace.ok_bind, hfirst, InPlace.ok_bind,
    hsecond]
  congr 1

theorem slice_of_le {xs : Array α} {start stop : Nat} (h : start ≤ stop) (hstop : stop ≤ xs.size) :
    slice xs start stop = .ok (xs.extract start stop) := if_pos ⟨h, hstop⟩

theorem split_of_le {xs : Array α} {p : Nat} (h : p ≤ xs.size) :
    split xs p = .ok (xs.extract 0 p, xs.extract p xs.size) := if_pos h

theorem alter_of_le {xs : Array α} {start stop : Nat} (h : start ≤ stop) (hstop : stop ≤ xs.size)
    (f : Nat → α → α) : alter xs start stop f =
      .ok (xs.mapIdx fun p x => if start ≤ p ∧ p < stop then f (p - start) x else x) :=
  if_pos ⟨h, hstop⟩

theorem along_of_getElem? {ys : Array β} {f : α → β → α} {t : Nat} {x : α} {y : β} (h : ys[t]? = some y) :
    along ys f t x = f x y := by
  rw [along, h]

/-- The loop over the rest of a vector meets its elements. -/
theorem along_extract (v : Vector β n) (f : α → β → α) {row : Nat} (i : Fin n) (h : row ≤ i) (x : α) :
    along (v.toArray.extract row n) f (i - row) x = f x (v.get i) := by
  apply along_of_getElem?
  rw [Array.getElem?_extract, Vector.size_toArray, Nat.min_self, if_pos (by omega), Nat.add_sub_cancel' h,
    Vector.getElem?_toArray, Vector.getElem?_eq_getElem i.isLt]
  rfl

/-! ### Indices -/

open Mat (after mem_after mem_cons_after)

theorem zipIdx_toArray (v : Vector α n) :
    v.toArray.toList.zipIdx = (List.finRange n).map fun i => (v.get i, i.val) := by
  apply List.ext_getElem?
  intro i
  rw [List.getElem?_zipIdx, List.getElem?_map, Array.getElem?_toList, Vector.getElem?_toArray, Nat.zero_add]
  by_cases hi : i < n
  · rw [Vector.getElem?_eq_getElem hi, List.getElem?_eq_getElem (by simpa using hi), List.getElem_finRange]
    rfl
  · rw [Vector.getElem?_eq_none (not_lt.1 hi), List.getElem?_eq_none (by simpa using hi)]
    rfl

/-- Ascending lists with the same members are the same. -/
theorem between_eq_map {stop : Nat} {l : List (Fin n)} (hl : l.Pairwise (· < ·)) {start : Nat}
    (hmem : ∀ i : Fin n, i ∈ l ↔ start ≤ i.val ∧ i.val < stop) (hstop : stop ≤ n) :
    between start stop = l.map Fin.val := by
  have hbetween : (between start stop).Pairwise (· < ·) := List.pairwise_lt_range'
  refine hbetween.eq_of_mem_iff (hl.map Fin.val fun _ _ h => h) fun p => ?_
  rw [between, List.mem_range'_1, List.mem_map]
  constructor
  · intro hp
    exact ⟨⟨p, by omega⟩, (hmem _).2 ⟨hp.1, by simp only; omega⟩, rfl⟩
  · rintro ⟨i, hi, rfl⟩
    have := (hmem i).1 hi
    omega

theorem pairwise_after (c : Fin n) : (after c).Pairwise (· < ·) :=
  (List.sortedLT_finRange n).pairwise.filter _

theorem between_succ (c : Fin n) : between (c + 1) n = (after c).map Fin.val :=
  between_eq_map (pairwise_after c) (fun i => by rw [mem_after]; omega) le_rfl

theorem between_self (c : Fin n) : between c n = (c :: after c).map Fin.val := by
  refine between_eq_map (List.pairwise_cons.2 ⟨fun i hi => mem_after.1 hi, pairwise_after c⟩) (fun i => ?_) le_rfl
  rw [mem_cons_after]
  omega

/-- The rest of a vector, in order. -/
theorem toList_extract (v : Vector α n) {row : Nat} {l : List (Fin n)} (h : between row n = l.map Fin.val) :
    (v.toArray.extract row n).toList = l.map v.get := by
  apply List.ext_getElem?
  intro t
  have hplace : l[t]?.map Fin.val = if t < n - row then some (row + t) else none := by
    rw [← List.getElem?_map, ← h, between]
    split
    · rename_i ht
      rw [List.getElem?_range' ht, Nat.one_mul]
    · exact List.getElem?_eq_none (by simpa using ‹¬ t < n - row›)
  rw [Array.getElem?_toList, Array.getElem?_extract, Vector.size_toArray, Nat.min_self, List.getElem?_map]
  cases hl : l[t]? with
  | none =>
    rw [hl] at hplace
    rw [if_neg fun ht => by simp [ht] at hplace]
    rfl
  | some i =>
    rw [hl] at hplace
    split at hplace
    · rename_i ht
      have hi : i.val = row + t := Option.some.inj hplace
      rw [if_pos ht, ← hi, Vector.getElem?_toArray, Vector.getElem?_eq_getElem i.isLt]
      rfl
    · cases hplace

end Kernel

/-! ### Exchanges with the same place -/

namespace Mat

variable {α K : Type} {m n : Nat}

theorem swap_self (v : Vector α n) (i : Fin n) : v.swap i i i.isLt i.isLt = v := by
  apply Vector.ext
  intro j hj
  change (v.swap i i i.isLt i.isLt).get ⟨j, hj⟩ = _
  rw [get_swap, Equiv.swap_self]
  rfl

theorem swapRows_self (a : Mat K m n) (i : Fin m) : a.swapRows i i = a := by
  apply ext_columns
  intro j
  rw [swapRows, columns_get_mapColumns, swap_self]

theorem swapColumns_self (a : Mat K m n) (j : Fin n) : a.swapColumns j j = a := by
  rw [swapColumns, swap_self]

/-! ### Columns changed by an earlier one -/

/-- A loop over the columns after one changes them by that column, which stays. -/
theorem columns_get_foldl_after (f : Vector K m → Vector K m → Vector K m) (a : Mat K m n) (d j : Fin n) :
    ((after d).foldl (fun b j => b.changeColumn j (f (b.columns.get d))) a).columns.get j =
      if d < j then f (a.columns.get d) (a.columns.get j) else a.columns.get j := by
  have hloop := columns_get_foldl (I := fun b => b.columns.get d = a.columns.get d)
    (f := fun b _ => f (b.columns.get d)) (g := fun _ => f (a.columns.get d)) (l := after d)
    ((Kernel.pairwise_after d).imp ne_of_lt)
    (fun b j hj hb => by rw [columns_get_changeColumn, if_neg (ne_of_lt (mem_after.1 hj)), hb])
    (fun b j _ hb => by rw [hb]) rfl j
  rw [hloop]
  exact if_congr mem_after rfl rfl

end Mat

namespace Kernel

variable {α : Type}

/-! ### Slices of a whole -/

/-- A slice of the first part. -/
theorem alter_append_left (xs ys : Array α) {start stop : Nat} (h : start ≤ stop) (hstop : stop ≤ xs.size)
    (f : Nat → α → α) : alter (xs ++ ys) start stop f = (· ++ ys) <$> alter xs start stop f := by
  rw [alter_of_le h (by rw [Array.size_append]; omega), alter_of_le h hstop, InPlace.ok_map,
    Array.mapIdx_append]
  congr 2
  apply Array.ext_getElem?
  intro p
  rw [Array.getElem?_mapIdx]
  cases ys[p]? with
  | none => rfl
  | some y => rw [Option.map_some, if_neg (by omega)]

/-- A slice of the second part. -/
theorem alter_append_right (xs ys : Array α) {start stop : Nat} (h : start ≤ stop) (hstop : stop ≤ ys.size)
    (f : Nat → α → α) :
    alter (xs ++ ys) (xs.size + start) (xs.size + stop) f = (xs ++ ·) <$> alter ys start stop f := by
  rw [alter_of_le (by omega) (by rw [Array.size_append]; omega), alter_of_le h hstop, InPlace.ok_map,
    Array.mapIdx_append]
  congr 2
  · apply Array.ext_getElem?
    intro p
    rw [Array.getElem?_mapIdx]
    cases hp : xs[p]? with
    | none => rfl
    | some x =>
      have hlt : p < xs.size := (Array.getElem?_eq_some_iff.1 hp).1
      rw [Option.map_some, if_neg (by omega)]
  · congr 1
    funext p x
    congr 1
    · simp only [eq_iff_iff]
      omega
    · congr 1
      omega

end Kernel

namespace Buffer

open InPlace (addWord_of_le mulWord_of_le ok_bind ok_map)
open Kernel
open Mat (place_lt place_mem_span fromRow)

variable {K : Type} {m n : Nat}

def ofMat (a : Mat K m n) : Buffer K := ⟨a.columns.flatten.toArray, m, n⟩

@[simp] theorem nrows_ofMat (a : Mat K m n) : (ofMat a).nrows = m := rfl

@[simp] theorem ncols_ofMat (a : Mat K m n) : (ofMat a).ncols = n := rfl

theorem size_ofMat (a : Mat K m n) : (ofMat a).data.size = m * n := by simp [ofMat, Nat.mul_comm]

theorem getElem?_ofMat (a : Mat K m n) (i : Fin m) (j : Fin n) :
    (ofMat a).data[i + m * j]? = some (a.entry i j) := Mat.flatten_getElem? a i j

/-- A buffer with the entries of a matrix. -/
theorem eq_ofMat {data : Array K} {a : Mat K m n} (hsize : data.size = m * n)
    (h : ∀ i j, data[i.val + m * j.val]? = some (a.entry i j)) : data = (ofMat a).data := by
  apply Array.ext_getElem?
  intro p
  by_cases hp : p < m * n
  · obtain ⟨i, j, rfl⟩ := Mat.exists_place hp
    rw [h, getElem?_ofMat]
  · rw [Array.getElem?_eq_none (by omega), Array.getElem?_eq_none (by rw [size_ofMat]; omega)]

theorem zeros_eq [Zero K] (h : m * n ≤ maxCount) : zeros m n = .ok (ofMat (Mat.zero : Mat K m n)) := by
  rw [zeros, mulWord_of_le h, ok_bind]
  refine congrArg (fun data => Except.ok (⟨data, m, n⟩ : Buffer K)) (eq_ofMat (by simp) fun i j => ?_)
  have hplace : i.val + m * j.val < m * n := by
    rw [Nat.mul_comm m j]
    exact place_lt i j
  rw [Array.getElem?_replicate, if_pos hplace, Mat.zero, Mat.entry_ofFn]

/-- The entries are computed one after the other, as they lie in memory. -/
theorem fromFn_eq (h : m * n ≤ maxCount) {f : Nat → Nat → Except InPlace.Stop K} {g : Fin m → Fin n → K}
    (hf : ∀ (i : Fin m) (j : Fin n), f i j = .ok (g i j)) : fromFn m n f = .ok (ofMat (Mat.ofFn g)) := by
  let places : List (Fin m × Fin n) := (List.finRange n).flatMap fun j => (List.finRange m).map fun i => (i, j)
  let index (t : Fin m × Fin n) : Nat × Nat := (t.1.val, t.2.val)
  let compute (t : Nat × Nat) : Except InPlace.Stop K := f t.1 t.2
  let entry (t : Fin m × Fin n) : K := g t.1 t.2
  have hplaces : ((List.range n).flatMap fun j => (List.range m).map fun i => (i, j)) = places.map index := by
    rw [← List.map_coe_finRange_eq_range (n := n), ← List.map_coe_finRange_eq_range (n := m), List.flatMap_map,
      List.map_flatMap]
    simp only [List.map_map, Function.comp_def, index]
  have hdata : (places.map index).mapM compute = .ok (places.map entry) := by
    rw [List.mapM_map]
    exact mapM_eq_map fun t _ => hf t.1 t.2
  rw [fromFn, mulWord_of_le h, ok_bind, hplaces]
  change (do
    let data ← (places.map index).mapM compute
    return (⟨data.toArray, m, n⟩ : Buffer K)) = _
  rw [hdata, ok_bind, List.map_flatMap]
  refine congrArg (fun data => Except.ok (⟨data, m, n⟩ : Buffer K)) (Array.toList_inj.1 ?_)
  simp [Mat.ofFn, Vector.flatten, List.flatMap_def, List.ofFn_eq_map, Function.comp_def]
  rfl

section Fitting

variable (h : m * n ≤ maxCount) (a : Mat K m n)

include h

/-! ### Entries -/

theorem place_ofMat (i : Fin m) (j : Fin n) : (ofMat a).place i j = .ok (i + m * j) := by
  have hplace := place_lt i j
  rw [place]
  change (do let base ← InPlace.mulWord j m; InPlace.addWord base i) = _
  rw [mulWord_of_le (by omega), ok_bind, addWord_of_le (by omega), Nat.add_comm, Nat.mul_comm m j]

theorem read_ofMat (i : Fin m) (j : Fin n) : (ofMat a).read i j = .ok (a.entry i j) := by
  rw [read, place_ofMat h, ok_bind, fetch_of_getElem? (getElem?_ofMat a i j)]

omit h in
theorem put_ofMat (i : Fin m) (j : Fin n) (x : K) :
    put (ofMat a).data (i + m * j) x = .ok (ofMat (a.setEntry i j x)).data := by
  have hplace := place_lt i j
  have hlt : i + m * j < (ofMat a).data.size := by rw [size_ofMat, Nat.mul_comm m j]; exact hplace
  rw [put, if_pos hlt]
  refine congrArg Except.ok (eq_ofMat (by rw [Array.size_setIfInBounds, size_ofMat]) fun r c => ?_)
  rw [Array.getElem?_setIfInBounds, Mat.entry_setEntry, getElem?_ofMat]
  by_cases heq : r = i ∧ c = j
  · obtain ⟨rfl, rfl⟩ := heq
    rw [if_pos rfl, if_pos hlt, if_pos ⟨rfl, rfl⟩]
  · have hne : ¬ i + m * j = r.val + m * c.val := by
      intro hsame
      have hr := (place_mem_span r c j i).1 (by rw [Nat.mul_comm j.val m]; omega)
      have hi := (place_mem_span i j c r).1 (by rw [Nat.mul_comm c.val m]; omega)
      exact heq ⟨Fin.ext (by omega), Fin.ext (by omega)⟩
    rw [if_neg hne, if_neg heq]

theorem write_ofMat (i : Fin m) (j : Fin n) (x : K) :
    (ofMat a).write i j x = .ok (ofMat (a.setEntry i j x)) := by
  rw [write, place_ofMat h, ok_bind, put_ofMat]
  rfl

/-! ### Columns -/

omit h in
theorem le_size {j l : Nat} (hl : l ≤ n) (hj : j ≤ l * m) : j ≤ (ofMat a).data.size := by
  rw [size_ofMat, Nat.mul_comm]
  exact hj.trans (Nat.mul_le_mul_right m hl)

omit h in
/-- The elements of a column lie side by side. -/
theorem extract_ofMat (j : Fin n) (row : Nat) :
    (ofMat a).data.extract (j * m + row) (j * m + m) = (a.columns.get j).toArray.extract row m := by
  have hstop : (j + 1) * m ≤ (ofMat a).data.size := le_size a j.isLt le_rfl
  rw [Nat.add_mul, Nat.one_mul] at hstop
  apply Array.ext_getElem?
  intro t
  rw [Array.getElem?_extract, Array.getElem?_extract, Nat.min_eq_left hstop, Vector.size_toArray, Nat.min_self,
    Nat.add_sub_add_left]
  split
  · rename_i ht
    have hplace : j * m + row + t = (⟨row + t, by omega⟩ : Fin m) + m * j := by
      rw [Nat.mul_comm m j]
      simp only
      omega
    rw [hplace, getElem?_ofMat, Vector.getElem?_toArray, Vector.getElem?_eq_getElem (by omega)]
    rfl
  · rfl

theorem span_ofMat (j : Fin n) {row : Nat} (hrow : row ≤ m) :
    (ofMat a).span j row = .ok (j * m + row, j * m + m) := by
  have hstop : (j + 1) * m ≤ n * m := Nat.mul_le_mul_right m j.isLt
  rw [Nat.add_mul, Nat.one_mul, Nat.mul_comm n m] at hstop
  rw [span]
  change (do
    let base ← InPlace.mulWord j m
    let start ← InPlace.addWord base row
    let stop ← InPlace.addWord base m
    return (start, stop)) = _
  rw [mulWord_of_le (by omega), ok_bind, addWord_of_le (by omega), ok_bind, addWord_of_le (by omega), ok_bind]
  rfl

theorem column_ofMat (j : Fin n) {row : Nat} (hrow : row ≤ m) :
    (ofMat a).column j row = .ok ((a.columns.get j).toArray.extract row m) := by
  have hstop : (j + 1) * m ≤ (ofMat a).data.size := le_size a j.isLt le_rfl
  rw [Nat.add_mul, Nat.one_mul] at hstop
  rw [column, span_ofMat h a j hrow, ok_bind]
  dsimp only
  rw [slice_of_le (by omega) hstop, extract_ofMat]

omit h in
theorem alter_ofMat (j : Fin n) {row : Nat} (hrow : row ≤ m) (f : Nat → K → K) :
    alter (ofMat a).data (j * m + row) (j * m + m) f =
      .ok (ofMat (a.changeColumn j (fromRow row fun i => f (i - row)))).data := by
  have hstop : (j + 1) * m ≤ (ofMat a).data.size := le_size a j.isLt le_rfl
  rw [Nat.add_mul, Nat.one_mul] at hstop
  rw [alter_of_le (by omega) hstop]
  refine congrArg Except.ok (eq_ofMat (by rw [Array.size_mapIdx, size_ofMat]) fun i l => ?_)
  rw [Array.getElem?_mapIdx, getElem?_ofMat, Option.map_some, Mat.entry_changeColumn, Mat.get_fromRow]
  by_cases hl : l = j
  · subst hl
    have hplace : i + m * l - (l * m + row) = i - row := by
      rw [Nat.mul_comm m l]
      omega
    rw [if_pos rfl, hplace]
    congr 1
    apply if_congr
    · rw [place_mem_span]
      exact and_iff_right rfl
    · rfl
    · rfl
  · rw [if_neg hl, if_neg fun hspan => hl (Fin.ext ((place_mem_span i l j row).1 hspan).1)]

theorem alterColumn_ofMat (j : Fin n) {row : Nat} (hrow : row ≤ m) (f : Nat → K → K) :
    (ofMat a).alterColumn j row f = .ok (ofMat (a.changeColumn j (fromRow row fun i => f (i - row)))) := by
  rw [alterColumn, span_ofMat h a j hrow, ok_bind]
  dsimp only
  rw [alter_ofMat a j hrow, ok_bind]
  rfl

/-- A column changed in a loop over another one. -/
theorem alterColumn_along (j : Fin n) {row : Nat} (hrow : row ≤ m) (v : Vector K m) (f : K → K → K) :
    (ofMat a).alterColumn j row (along (v.toArray.extract row m) f) =
      .ok (ofMat (a.changeColumn j (fromRow row fun i x => f x (v.get i)))) := by
  rw [alterColumn_ofMat h a j hrow]
  rw [Mat.fromRow_congr fun i x hi => along_extract v f i hi x]

/-! ### Two columns -/

/-- A buffer in two parts, and a column in the first of them. -/
theorem cut_ofMat {j l : Fin n} (hjl : j < l) {row : Nat} (hrow : row ≤ m) :
    ∃ left right, (ofMat a).cut j l row = .ok (left, right, (a.columns.get j).toArray.extract row m) ∧
      (ofMat a).data = left ++ right ∧ left.size = l * m ∧ m ≤ right.size := by
  have hsize : (ofMat a).data.size = n * m := by rw [size_ofMat, Nat.mul_comm]
  have hstop : (j + 1) * m ≤ l * m := Nat.mul_le_mul_right m hjl
  have hlast : (l + 1) * m ≤ n * m := Nat.mul_le_mul_right m l.isLt
  rw [Nat.mul_comm] at h
  rw [Nat.add_mul, Nat.one_mul] at hstop hlast
  refine ⟨(ofMat a).data.extract 0 (l * m), (ofMat a).data.extract (l * m) (ofMat a).data.size, ?_, ?_, ?_, ?_⟩
  · rw [cut]
    change (do
      let middle ← InPlace.mulWord l m
      let parts ← split (ofMat a).data middle
      let base ← InPlace.mulWord j m
      let start ← InPlace.addWord base row
      let stop ← InPlace.mulWord (j + 1) m
      let v ← slice parts.1 start stop
      return (parts.1, parts.2, v)) = _
    have hv : slice ((ofMat a).data.extract 0 (l * m)) (j * m + row) ((j + 1) * m) =
        .ok ((a.columns.get j).toArray.extract row m) := by
      rw [Nat.add_mul, Nat.one_mul, slice_of_le (by omega) (by rw [Array.size_extract]; omega),
        Array.extract_extract, Nat.zero_add, Nat.zero_add, Nat.min_eq_left hstop, extract_ofMat]
    rw [mulWord_of_le (by omega), ok_bind, split_of_le (by omega), ok_bind, mulWord_of_le (by omega)]
    dsimp only
    rw [ok_bind, addWord_of_le (by omega), ok_bind,
      mulWord_of_le (by rw [Nat.add_mul, Nat.one_mul]; omega), ok_bind, hv, ok_bind]
    rfl
  · rw [Array.extract_append_extract, Nat.zero_min, Nat.max_eq_right (by omega), Array.extract_size]
  · rw [Array.size_extract]
    omega
  · rw [Array.size_extract]
    omega

omit h in
/-- A column at the beginning of the second part. -/
theorem slice_right {l : Fin n} {left right : Array K} (hdata : (ofMat a).data = left ++ right)
    (hleft : left.size = l * m) (hright : m ≤ right.size) {row : Nat} (hrow : row ≤ m) :
    slice right row m = .ok ((a.columns.get l).toArray.extract row m) := by
  have hnone : left.extract (left.size + row) (left.size + m) = #[] :=
    Array.extract_empty_of_size_le_start (Nat.le_add_right left.size row)
  rw [slice_of_le hrow hright, ← extract_ofMat a l row, hdata, ← hleft, Array.extract_append, hnone,
    Array.empty_append, Nat.add_sub_cancel_left, Nat.add_sub_cancel_left]

omit h in
/-- A column changed at the beginning of the second part. -/
theorem exists_alter_right {l : Fin n} {left right : Array K} (hdata : (ofMat a).data = left ++ right)
    (hleft : left.size = l * m) (hright : m ≤ right.size) {row : Nat} (hrow : row ≤ m) (v : Vector K m)
    (f : K → K → K) : ∃ changed, alter right row m (along (v.toArray.extract row m) f) = .ok changed ∧
      left ++ changed = (ofMat (a.changeColumn l (fromRow row fun i x => f x (v.get i)))).data := by
  have hwhole := alter_append_right left right hrow hright (along (v.toArray.extract row m) f)
  rw [← hdata, hleft, alter_ofMat a l hrow, alter_of_le hrow hright, ok_map,
    Mat.fromRow_congr fun i x hi => along_extract v f i hi x] at hwhole
  exact ⟨_, alter_of_le hrow hright _, (Except.ok.inj hwhole).symm⟩

omit h in
/-- A column changed within the first part. -/
theorem exists_alter_left {j : Fin n} {left right : Array K} (hdata : (ofMat a).data = left ++ right)
    (hleft : (j + 1) * m ≤ left.size) (v : Vector K m) (f : K → K → K) :
    ∃ changed, alter left (j * m) ((j + 1) * m) (along (v.toArray.extract 0 m) f) = .ok changed ∧
      changed.size = left.size ∧
      changed ++ right = (ofMat (a.changeColumn j (fromRow 0 fun i x => f x (v.get i)))).data := by
  rw [Nat.add_mul, Nat.one_mul] at hleft ⊢
  have hwhole := alter_append_left left right (Nat.le_add_right (j * m) m) hleft
    (along (v.toArray.extract 0 m) f)
  have halter := alter_ofMat a j (Nat.zero_le m) (along (v.toArray.extract 0 m) f)
  rw [Nat.add_zero, hdata, hwhole, alter_of_le (by omega) hleft, ok_map,
    Mat.fromRow_congr fun i x hi => along_extract v f i hi x] at halter
  exact ⟨_, alter_of_le (by omega) hleft _, Array.size_mapIdx, Except.ok.inj halter⟩

theorem twoColumns_ofMat {j l : Fin n} (hjl : j < l) {row : Nat} (hrow : row ≤ m) :
    (ofMat a).twoColumns j l row =
      .ok ((a.columns.get j).toArray.extract row m, (a.columns.get l).toArray.extract row m) := by
  obtain ⟨left, right, hcut, hdata, hleft, hright⟩ := cut_ofMat h a hjl hrow
  rw [twoColumns, hcut, ok_bind]
  change (do
    let target ← slice right row m
    return ((a.columns.get j).toArray.extract row m, target)) = _
  rw [slice_right a hdata hleft hright hrow, ok_bind]
  rfl

/-- A column changed by an earlier one. -/
theorem alterBeside_ofMat {j l : Fin n} (hjl : j < l) {row : Nat} (hrow : row ≤ m) (f : K → K → K) :
    (ofMat a).alterBeside j l row f =
      .ok (ofMat (a.changeColumn l (fromRow row fun i x => f x (a.entry i j)))) := by
  obtain ⟨left, right, hcut, hdata, hleft, hright⟩ := cut_ofMat h a hjl hrow
  obtain ⟨changed, hchanged, hwhole⟩ := exists_alter_right a hdata hleft hright hrow (a.columns.get j) f
  rw [alterBeside, hcut, ok_bind]
  change (do
    let right ← alter right row m (along ((a.columns.get j).toArray.extract row m) f)
    return { ofMat a with data := left ++ right }) = _
  rw [hchanged, ok_bind, hwhole]
  rfl

/-! ### Exchanges -/

omit h in
theorem exchange_ofMat (i k : Fin m) (j : Fin n) :
    exchange (ofMat a).data (i + m * j) (k + m * j) =
      .ok (ofMat (a.changeColumn j fun x => x.swap i k i.isLt k.isLt)).data := by
  rw [exchange, fetch_of_getElem? (getElem?_ofMat a i j), ok_bind, fetch_of_getElem? (getElem?_ofMat a k j), ok_bind,
    put_ofMat, ok_bind, put_ofMat]
  congr 3
  apply Mat.ext_entry
  intro r c
  rw [Mat.entry_setEntry, Mat.entry_setEntry, Mat.entry_changeColumn]
  by_cases hc : c = j
  · subst hc
    rw [if_pos rfl, Mat.get_swap, Equiv.swap_apply_def]
    by_cases hk : r = k
    · subst hk
      rw [if_pos ⟨rfl, rfl⟩]
      split <;> simp_all [Mat.entry]
    · rw [if_neg fun h => hk h.1, if_neg hk]
      simp only [and_true]
      split <;> rfl
  · rw [if_neg fun hr => hc hr.2, if_neg fun hr => hc hr.2, if_neg hc]

/-- An exchange with the same place changes nothing. -/
theorem swapRows_ofMat (i k : Fin m) : (ofMat a).swapRows i k = .ok (ofMat (a.swapRows i k)) := by
  rw [swapRows]
  split
  · rename_i hik
    obtain rfl := Fin.ext hik
    rw [Mat.swapRows_self]
  · rw [Mat.swapRows, ← Mat.foldl_changeColumn]
    change (do
      let data ← (List.range n).foldlM _ (ofMat a).data
      return { ofMat a with data }) = _
    rw [← List.map_coe_finRange_eq_range, foldlM_eq_foldl (fun a : Mat K m n => (ofMat a).data)
      (fun a j => a.changeColumn j fun x => x.swap i k i.isLt k.isLt) fun a j _ => ?_, ok_bind]
    · rfl
    · have hi := place_lt i j
      have hk := place_lt k j
      change (do
        let base ← InPlace.mulWord j m
        let p ← InPlace.addWord base i
        let q ← InPlace.addWord base k
        exchange (ofMat a).data p q) = _
      rw [mulWord_of_le (by omega), ok_bind, addWord_of_le (by omega), ok_bind, addWord_of_le (by omega), ok_bind,
        Nat.add_comm _ i.val, Nat.add_comm _ k.val, Nat.mul_comm, exchange_ofMat]

theorem swapApart_ofMat {j l : Fin n} (hjl : j < l) :
    (ofMat a).swapApart j l = .ok (ofMat (a.swapColumns j l)) := by
  obtain ⟨left, right, hcut, hdata, hleft, hright⟩ := cut_ofMat h a hjl (Nat.zero_le m)
  have hstop : (j + 1) * m ≤ l * m := Nat.mul_le_mul_right m hjl
  have hsize : ((a.columns.get j).toArray.extract 0 m).size = ((a.columns.get l).toArray.extract 0 m).size := by
    simp
  obtain ⟨first, hfirst, hsame, hboth⟩ :=
    exists_alter_left (j := j) a hdata (hleft ▸ hstop) (a.columns.get l) fun _ y => y
  obtain ⟨second, hsecond, hlast⟩ :=
    exists_alter_right (l := l) _ hboth.symm (hsame.trans hleft) hright (Nat.zero_le m) (a.columns.get j) fun _ x => x
  rw [Mat.fromRow_zero, Mat.fromRow_zero] at hlast
  have hstart : j * m ≤ (j + 1) * m := Nat.mul_le_mul_right m (Nat.le_succ j)
  have hwords : (j + 1) * m ≤ m * n := by
    rw [Nat.mul_comm m n]
    exact Nat.mul_le_mul_right m j.isLt
  rw [swapApart, hcut, ok_bind]
  change (do
    let y ← slice right 0 m
    if ((a.columns.get j).toArray.extract 0 m).size = y.size then
      let start ← InPlace.mulWord j m
      let stop ← InPlace.mulWord (j + 1) m
      let left ← alter left start stop (along y fun _ y => y)
      let right ← alter right 0 m (along ((a.columns.get j).toArray.extract 0 m) fun _ x => x)
      return { ofMat a with data := left ++ right }
    else throw InPlace.Stop.outOfBounds) = _
  rw [slice_right a hdata hleft hright (Nat.zero_le m), ok_bind, if_pos hsize, mulWord_of_le (by omega), ok_bind,
    mulWord_of_le (by omega), ok_bind, hfirst, ok_bind, hsecond, ok_bind, hlast]
  refine congrArg (fun b => Except.ok (ofMat b)) (Mat.ext_columns fun c => ?_)
  rw [Mat.columns_get_changeColumn, Mat.columns_get_changeColumn, Mat.swapColumns, Mat.get_swap,
    Equiv.swap_apply_def]
  split
  · rename_i hc
    rw [if_neg fun hj => absurd hjl (by omega)]
  · exact (apply_ite a.columns.get _ _ _).symm

theorem swapColumns_ofMat (j l : Fin n) : (ofMat a).swapColumns j l = .ok (ofMat (a.swapColumns j l)) := by
  rw [swapColumns]
  split
  · rename_i hjl
    obtain rfl := Fin.ext hjl
    rw [Mat.swapColumns_self]
  · split
    · exact swapApart_ofMat h a ‹_›
    · rw [swapApart_ofMat h a (by omega)]
      congr 2
      apply Mat.ext_entry
      intro r c
      rw [Mat.entry_swapColumns, Mat.entry_swapColumns, Equiv.swap_comm]

end Fitting

end Buffer
end NumericArrays
