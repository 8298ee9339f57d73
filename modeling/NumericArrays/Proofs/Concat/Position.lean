import NumericArrays.Proofs.Concat.Turns

/-! Positions in a joined array: where the element of a part at given coordinates lies. -/
namespace NumericArrays

/-! ### Offsets axis by axis -/

namespace Shape

variable {s t : Shape} {c e : List Nat} {axis m : Nat}

theorem offset_append (s t : Shape) (c : List Nat) :
    offset (s ++ t) c = offset s (c.take s.length) + s.prod * offset t (c.drop s.length) := by
  induction s generalizing c with
  | nil => simp [offset]
  | cons d s ih =>
    cases c with
    | nil => simp [offset]
    | cons x c =>
      simp only [List.cons_append, offset, List.length_cons, List.take_succ_cons, List.drop_succ_cons,
        List.prod_cons, ih c]
      ring

theorem offset_cons (d : Nat) (s : Shape) (c : List Nat) :
    offset (d :: s) c = c.getD 0 0 + d * offset s (c.drop 1) := by
  cases c with
  | nil => simp [offset]
  | cons x c => rfl

def front (axis : Nat) (s : Shape) : Shape := (List.range axis).map s.extent

def back (axis m : Nat) (s : Shape) : Shape := (List.range m).map fun i => s.extent (axis + 1 + i)

theorem front_congr (h : ∀ i, i ≠ axis → s.extent i = t.extent i) : front axis s = front axis t := by
  apply List.map_congr_left
  intro i hi
  exact h i (by rw [List.mem_range] at hi; omega)

theorem back_congr (h : ∀ i, i ≠ axis → s.extent i = t.extent i) : back axis m s = back axis m t := by
  apply List.map_congr_left
  intro i _
  exact h _ (by omega)

theorem extent_front_back (h : s.length ≤ axis + 1 + m) (i : Nat) :
    extent (front axis s ++ s.extent axis :: back axis m s) i = s.extent i := by
  have hfront : (front axis s).length = axis := by simp [front]
  unfold extent
  rcases Nat.lt_trichotomy i axis with hi | rfl | hi
  · rw [List.getD_append _ _ _ _ (by omega), List.getD_eq_getElem _ _ (by omega)]
    simp [front, extent]
  · rw [List.getD_append_right _ _ _ _ (by omega), hfront, Nat.sub_self]
    rfl
  · obtain ⟨j, rfl⟩ : ∃ j, i = axis + 1 + j := ⟨i - (axis + 1), by omega⟩
    have hj : axis + 1 + j - axis = j + 1 := by omega
    rw [List.getD_append_right _ _ _ _ (by omega), hfront, hj, List.getD_cons_succ]
    by_cases hm : j < m
    · rw [List.getD_eq_getElem _ _ (by simpa [back] using hm)]
      simp [back, extent]
    · rw [List.getD_eq_default _ _ (by simp [back]; omega), List.getD_eq_default _ _ (by omega)]

theorem prod_front (axis : Nat) (s : Shape) :
    (front axis s).prod = ∏ i ∈ Finset.range axis, s.extent i := by
  induction axis with
  | zero => rfl
  | succ n ih =>
    rw [front, List.range_succ, List.map_append, List.prod_append, Finset.prod_range_succ, ← ih]
    simp [front]

/-- The offset of coordinates, with the joined axis taken apart from those before and after it. -/
theorem offset_split (h : s.length ≤ axis + 1 + m) (c : List Nat) :
    s.offset c = offset (front axis s) (c.take axis) + (front axis s).prod *
      (c.getD axis 0 + s.extent axis * offset (back axis m s) (c.drop (axis + 1))) := by
  have hfront : (front axis s).length = axis := by simp [front]
  rw [← offset_congr_extent (extent_front_back h), offset_append, hfront, offset_cons, List.drop_drop]
  simp

theorem offset_front_lt (h : s.covers c = true) : offset (front axis s) (c.take axis) < (front axis s).prod := by
  apply offset_lt
  rw [covers_iff] at h ⊢
  intro i
  by_cases hi : i < axis
  · have hextent : extent (front axis s) i = s.extent i := by
      unfold extent
      rw [List.getD_eq_getElem _ _ (by simpa [front] using hi)]
      simp [front, extent]
    have htake : (c.take axis).getD i 0 = c.getD i 0 := by
      simp [List.getD_eq_getElem?_getD, hi]
    rw [hextent, htake]
    exact h i
  · rw [List.getD_eq_default _ _ (by simp; omega), extent_of_length_le (by simp [front]; omega)]
    exact one_pos

theorem pageSize_eq_front (axis : Nat) (s : Shape) :
    Concat.pageSize axis s = (front axis s).prod * s.extent axis := by
  rw [Concat.pageSize_eq_prod, Finset.prod_range_succ, prod_front]

end Shape

namespace Concat

variable {axis pages k p r low : Nat} {parts : List NDArray} {f : NDArray → Nat → Float} {c e : List Nat}
  {s t : Shape}

/-! ### Coordinates along the joined axis -/

def shift (axis k : Nat) (c : List Nat) : List Nat := (Shape.pad c (axis + 1)).set axis (c.getD axis 1 + k)

theorem getD_shift (axis k : Nat) (c : List Nat) (i : Nat) :
    (shift axis k c).getD i 1 = if i = axis then c.getD axis 1 + k else c.getD i 1 := by
  have hlength : axis < (Shape.pad c (axis + 1)).length := by
    simp only [Shape.pad, List.length_append, List.length_replicate]
    omega
  have hset := Shape.extent_set (s := Shape.pad c (axis + 1)) (n := c.getD axis 1 + k) hlength i
  rw [Shape.extent_pad] at hset
  exact hset

theorem length_shift (h : axis < c.length) : (shift axis k c).length = c.length := by
  simp only [shift, Shape.pad, List.length_set, List.length_append, List.length_replicate]
  omega

/-- How far a part is moved along the axis: as far as the parts before it reach. -/
def lead (axis : Nat) (parts : List NDArray) (p : Nat) : Nat :=
  ((parts.take p).map fun part => part.dims.extent axis).sum

theorem lead_succ (hp : p < parts.length) :
    lead axis parts (p + 1) = lead axis parts p + parts[p].dims.extent axis := by
  simp only [lead, List.take_succ_eq_append_getElem hp, List.map_append, List.sum_append, List.map_cons,
    List.map_nil, List.sum_singleton]

theorem lead_mono {q : Nat} (h : p ≤ q) : lead axis parts p ≤ lead axis parts q := by
  obtain ⟨d, rfl⟩ := Nat.exists_eq_add_of_le h
  simp only [lead, List.take_add, List.map_append, List.sum_append]
  omega

theorem lead_length : lead axis parts parts.length = (parts.map fun part => part.dims.extent axis).sum := by
  rw [lead, List.take_length]

/-- Every coordinate along the axis belongs to a part. -/
theorem exists_part (axis : Nat) (parts : List NDArray) {x : Nat} (h : x < lead axis parts parts.length) :
    ∃ (p : Nat) (hp : p < parts.length), lead axis parts p ≤ x ∧
      x < lead axis parts p + parts[p].dims.extent axis := by
  have hfind : ∃ n ≤ parts.length, x < lead axis parts n := ⟨parts.length, le_rfl, h⟩
  classical
  obtain ⟨hn, hx⟩ := Nat.find_spec hfind
  have hmin := fun m (hm : m < Nat.find hfind) => Nat.find_min hfind hm
  cases hfound : Nat.find hfind with
  | zero =>
    rw [hfound] at hx
    exact absurd hx (Nat.not_lt_zero x)
  | succ p =>
    rw [hfound] at hn hx hmin
    have hbefore := hmin p (Nat.lt_succ_self p)
    refine ⟨p, hn, ?_, ?_⟩
    · by_contra hlt
      exact hbefore ⟨by omega, by omega⟩
    · rwa [← lead_succ hn]

/-- It belongs to one part only. -/
theorem part_unique (axis : Nat) {q x : Nat} (hp : p < parts.length) (hq : q < parts.length)
    (hlp : lead axis parts p ≤ x) (hup : x < lead axis parts p + parts[p].dims.extent axis)
    (hlq : lead axis parts q ≤ x) (huq : x < lead axis parts q + parts[q].dims.extent axis) : p = q := by
  rw [← lead_succ hp] at hup
  rw [← lead_succ hq] at huq
  rcases Nat.lt_trichotomy p q with h | h | h
  · have hle : lead axis parts (p + 1) ≤ lead axis parts q := lead_mono h
    omega
  · exact h
  · have hle : lead axis parts (q + 1) ≤ lead axis parts p := lead_mono h
    omega

/-! ### Elements of the interleaved buffer -/

theorem getElem?_flatMap_range {g : Nat → List Float} {w n i j : Nat} (hw : ∀ i, (g i).length = w)
    (hi : i < n) (hj : j < w) : ((List.range n).flatMap g)[i * w + j]? = (g i)[j]? := by
  induction n with
  | zero => omega
  | succ n ih =>
    have hlength : ((List.range n).flatMap g).length = n * w := by
      simp [List.length_flatMap, hw]
    rw [List.range_succ, List.flatMap_append, List.flatMap_singleton]
    rcases Nat.lt_succ_iff_lt_or_eq.mp hi with hlt | rfl
    · have hroom : i * w + j < n * w := by
        calc i * w + j < i * w + w := by omega
          _ = (i + 1) * w := (Nat.succ_mul i w).symm
          _ ≤ n * w := Nat.mul_le_mul_right w hlt
      rw [List.getElem?_append_left (by omega), ih hlt]
    · rw [List.getElem?_append_right (by omega), hlength, Nat.add_sub_cancel_left]

/-- An element of page `r` of a part in the buffer of the joined array. -/
theorem getD_interleave (hp : p < parts.length) (hr : r < pages) (hl : low < pageSize axis parts[p].dims) :
    (interleave axis f parts pages).getD
        (r * roundSize axis parts + (roundSize axis (parts.take p) + low)) 0 =
      f parts[p] (r * pageSize axis parts[p].dims + low) := by
  have hlength : ∀ l : List NDArray, ∀ i,
      (l.flatMap fun part => page axis f part i).length = roundSize axis l := by
    intro l i
    simp only [List.length_flatMap, length_page, roundSize]
  have hround : roundSize axis (parts.take p) + low < roundSize axis parts := by
    have hle := roundSize_take_le axis parts (p + 1)
    rw [roundSize_take_succ hp] at hle
    omega
  have hcell : (parts.flatMap fun part => page axis f part r)[roundSize axis (parts.take p) + low]? =
      some (f parts[p] (r * pageSize axis parts[p].dims + low)) := by
    have hparts : parts.take p ++ parts[p] :: parts.drop (p + 1) = parts := by
      rw [← List.drop_eq_getElem_cons hp, List.take_append_drop]
    have hsplit := congrArg (List.flatMap fun part => page axis f part r) hparts
    rw [List.flatMap_append, List.flatMap_cons] at hsplit
    have hpage : low < (page axis f parts[p] r).length := by
      rw [length_page]
      exact hl
    rw [← hsplit, List.getElem?_append_right (by rw [hlength]; omega), hlength, Nat.add_sub_cancel_left,
      List.getElem?_append_left hpage, List.getElem?_eq_getElem hpage]
    simp [page]
  have hget : (interleave axis f parts pages)[r * roundSize axis parts +
      (roundSize axis (parts.take p) + low)]? =
        some (f parts[p] (r * pageSize axis parts[p].dims + low)) := by
    rw [interleave, List.getElem?_toArray, getElem?_flatMap_range (hlength parts) hr hround, hcell]
  rw [Array.getD_eq_getD_getElem?, hget, Option.getD_some]

end Concat
end NumericArrays
