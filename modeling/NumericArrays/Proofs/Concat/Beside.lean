import NumericArrays.Proofs.Concat.Placement
import NumericArrays.Proofs.Engine.Mismatch

/-! Matrices side by side: the columns of the one, then those of the other. -/
namespace NumericArrays

variable {a b c : NDArray}

/-- `c` has the columns of `a` and then those of `b`. -/
structure NDArray.Beside (a b c : NDArray) : Prop where
  wellFormed : c.WellFormed
  isMatrix : c.dims.isMatrix = true
  rows_eq : c.rows = a.rows
  cols_eq : c.cols = a.cols + b.cols
  cartesian_eq : ∀ p, c.cartesian p = if p < a.size then a.cartesian p else b.cartesian (p - a.size)

namespace Concat

variable {n k l : Nat}

theorem agree_of_isMatrix (ha : a.dims.isMatrix = true) (hb : b.dims.isMatrix = true)
    (h : a.rows = b.rows) : Agree 1 [a, b] := by
  have hoff : ∀ x ∈ [a, b], ∀ i, i ≠ 1 → x.dims.extent i = if i = 0 then a.rows else 1 := by
    intro x hx i hi
    have hmatrix : x.dims.isMatrix = true ∧ x.rows = a.rows := by
      rcases List.mem_pair.mp hx with rfl | rfl
      · exact ⟨ha, rfl⟩
      · exact ⟨hb, h.symm⟩
    match i with
    | 0 => exact hmatrix.2
    | 1 => contradiction
    | j + 2 =>
      have hone := Shape.isMatrix_iff.mp hmatrix.1 j
      rw [Nat.add_comm] at hone
      rw [hone, if_neg (by omega)]
  intro x hx y hy i hi
  rw [hoff x hx i hi, hoff y hy i hi]

/-- A matrix is a single page. -/
theorem pageSize_of_isMatrix (ha : a.WellFormed) (hm : a.dims.isMatrix = true) :
    pageSize 1 a.dims = a.size := by
  rw [pageSize_eq_prod, Finset.prod_range_succ, Finset.prod_range_one, ha.size_of_isMatrix hm, NDArray.rows]

section

variable (ha : a.WellFormed) (hb : b.WellFormed) (hma : a.dims.isMatrix = true) (hmb : b.dims.isMatrix = true)
  (h0 : a.size ≠ 0)

include ha hma h0 in
theorem pages_of_isMatrix : a.size / pageSize 1 a.dims = 1 := by
  rw [pageSize_of_isMatrix ha hma]
  exact Nat.div_self (Nat.pos_of_ne_zero h0)

include ha hma h0 in
theorem cartesian_joined_left {p : Nat} (hp : p < a.size) :
    (joined 1 a [b]).cartesian p = NDArray.stored (kindOf [a, b]) (a.cartesian p) := by
  have hpages := pages_of_isMatrix ha hma h0
  have hcell := @cartesian_joined 0 1 a [b] 0 p (by simp) (by omega)
    (by rw [List.getElem_cons_zero, pageSize_of_isMatrix ha hma]; exact hp)
  simpa only [List.take_zero, roundSize, List.map_nil, List.sum_nil, Nat.zero_mul, Nat.zero_add,
    List.getElem_cons_zero] using hcell

include ha hb hma hmb h0 in
theorem cartesian_joined_right {p : Nat} (hp : p < b.size) :
    (joined 1 a [b]).cartesian (a.size + p) = NDArray.stored (kindOf [a, b]) (b.cartesian p) := by
  have hpages := pages_of_isMatrix ha hma h0
  have hcell := @cartesian_joined 1 1 a [b] 0 p (by simp) (by omega)
    (by rw [List.getElem_cons_succ, List.getElem_cons_zero, pageSize_of_isMatrix hb hmb]; exact hp)
  simpa only [List.take_succ_cons, List.take_zero, roundSize, List.map_cons, List.map_nil, List.sum_cons,
    List.sum_nil, pageSize_of_isMatrix ha hma, Nat.zero_mul, Nat.zero_add, Nat.add_zero,
    List.getElem_cons_succ, List.getElem_cons_zero] using hcell

include ha hb hma hmb h0 in
theorem beside_joined (hrows : a.rows = b.rows) (hfa : a.Faithful) (hfb : b.Faithful)
    (h : join 1 a [b] = .ok c) : a.Beside b c := by
  have hagree := agree_of_isMatrix hma hmb hrows
  have hw : c.WellFormed := join_wellFormed ha (by simpa using hb) h0 h
  have hp : ∀ part ∈ [a, b], part.WellFormed := by simp [ha, hb]
  obtain rfl : joined 1 a [b] = c := by
    rw [join_of_agree hagree] at h
    split at h
    · cases h
    · exact Except.ok.inj h
  have hoff : ∀ i, i ≠ 1 → (joined 1 a [b]).dims.extent i = a.dims.extent i := fun i hi => by
    rw [extent_joined, if_neg hi]
  have hmatrix : (joined 1 a [b]).dims.isMatrix = true := by
    rw [Shape.isMatrix_iff] at hma ⊢
    intro i
    rw [hoff _ (by omega), hma i]
  have hsize : (joined 1 a [b]).size = a.size + b.size := by
    rw [hw.size_eq_prod, prod_joined hp h0 hagree]
    simp
  refine ⟨hw, hmatrix, hoff 0 (by decide), ?_, fun p => ?_⟩
  · rw [hw.cols_eq hmatrix, ha.cols_eq hma, hb.cols_eq hmb, extent_joined, if_pos rfl]
    simp [lead]
  · have hkept : ∀ x ∈ [a, b], x.Faithful → ∀ q,
        NDArray.stored (kindOf [a, b]) (x.cartesian q) = x.cartesian q := fun x hx hf q =>
      NDArray.stored_of_width_le (width_le_kindOf hx) (hf q)
    by_cases hlow : p < a.size
    · rw [if_pos hlow, cartesian_joined_left ha hma h0 hlow, hkept a (by simp) hfa]
    · obtain ⟨q, rfl⟩ := Nat.exists_eq_add_of_le (Nat.not_lt.mp hlow)
      rw [if_neg hlow, Nat.add_sub_cancel_left]
      by_cases hhigh : q < b.size
      · rw [cartesian_joined_right ha hb hma hmb h0 hhigh, hkept b (by simp) hfb]
      · rw [hw.cartesian_of_size_le (by omega), hb.cartesian_of_size_le (by omega)]

end

/-! ### Buffers as they are -/

theorem interleave_one {axis : Nat} {f : NDArray → Nat → Float} {x y : Array Float}
    (hx : x.size = pageSize axis a.dims) (hy : y.size = pageSize axis b.dims)
    (hfx : ∀ p, f a p = x.getD p 0) (hfy : ∀ p, f b p = y.getD p 0) :
    interleave axis f [a, b] 1 = x ++ y := by
  have hpage : ∀ (part : NDArray) (z : Array Float), z.size = pageSize axis part.dims →
      (∀ p, f part p = z.getD p 0) → page axis f part 0 = z.toList := by
    intro part z hz hf
    apply List.ext_getElem
    · rw [length_page, Array.length_toList, hz]
    · intro i h1 h2
      rw [Array.length_toList] at h2
      simp only [page, List.getElem_map, List.getElem_range, Nat.zero_mul, Nat.zero_add, hf, getD_of_lt h2,
        Array.getElem_toList]
  unfold interleave
  simp only [List.range_one, List.flatMap_cons, List.flatMap_nil, List.append_nil, hpage a x hx hfx,
    hpage b y hy hfy]
  rw [← Array.toList_append, Array.toArray_toList]

/-- Shape of two matrices that are joined. -/
theorem dims_joined (ha : a.dims = [n, k]) (hb : b.dims = [n, l]) :
    (joined 1 a [b]).dims = [n, k + l] := by
  show joinedDims _ _ _ _ = _
  simp [joinedDims, rankOf, lead, Shape.pad, ha, hb, Shape.extent]

/-- The buffers of two double matrices follow each other. -/
theorem buffer_joined {f : NDArray → Nat → Float} {x y : Array Float} (ha : a.dims = [n, k])
    (hb : b.dims = [n, l]) (hka : a.kind = .double) (hkb : b.kind = .double) (hsize : a.size = n * k)
    (hpos : 0 < n * k) (hx : x.size = n * k) (hy : y.size = n * l) (hfx : ∀ p, f a p = x.getD p 0)
    (hfy : ∀ p, f b p = y.getD p 0) :
    interleave 1 (fun part p => (kindOf [a, b]).store (f part p)) [a, b] (a.size / pageSize 1 a.dims) =
      x ++ y := by
  have hpage : ∀ d, pageSize 1 [n, d] = n * d := by
    intro d
    simp [pageSize_eq_prod, Finset.prod_range_succ, Shape.extent]
  have hkind : kindOf [a, b] = .double := by
    simp only [kindOf, List.foldl_cons, List.foldl_nil, hka, hkb]
    decide
  rw [hkind, hsize, ha, hpage, Nat.div_self hpos]
  apply interleave_one
  · rw [ha, hpage, hx]
  · rw [hb, hpage, hy]
  · exact hfx
  · exact hfy

section

variable {x y u v : Array Float} (hn : n ≤ maxCount) (hfits : n * k ≤ maxCount) (hpos : 0 < n * k)
  (hx : x.size = n * k) (hy : y.size = n * l)

include hn hfits hpos hx hy

theorem joined_real : joined 1 ⟨[n, k], x, none, .double⟩ [⟨[n, l], y, none, .double⟩] =
    ⟨[n, k + l], x ++ y, none, .double⟩ := by
  have hsize : NDArray.size ⟨[n, k], x, none, .double⟩ = n * k :=
    Shape.count_of_count? (Shape.count?_pair hn hfits)
  have hreal := buffer_joined (f := NDArray.re) (a := ⟨[n, k], x, none, .double⟩)
    (b := ⟨[n, l], y, none, .double⟩) rfl rfl rfl rfl hsize hpos hx hy (fun _ => rfl) fun _ => rfl
  have hdims := dims_joined (a := ⟨[n, k], x, none, .double⟩) (b := ⟨[n, l], y, none, .double⟩) rfl rfl
  exact NDArray.mk.injEq .. |>.mpr ⟨hdims, hreal, rfl, rfl⟩

theorem joined_complex (hu : u.size = n * k) (hv : v.size = n * l) :
    joined 1 ⟨[n, k], x, some u, .double⟩ [⟨[n, l], y, some v, .double⟩] =
      ⟨[n, k + l], x ++ y, some (u ++ v), .double⟩ := by
  have hsize : NDArray.size ⟨[n, k], x, some u, .double⟩ = n * k :=
    Shape.count_of_count? (Shape.count?_pair hn hfits)
  have hreal := buffer_joined (f := NDArray.re) (a := ⟨[n, k], x, some u, .double⟩)
    (b := ⟨[n, l], y, some v, .double⟩) rfl rfl rfl rfl hsize hpos hx hy (fun _ => rfl) fun _ => rfl
  have himag := buffer_joined (f := NDArray.im) (a := ⟨[n, k], x, some u, .double⟩)
    (b := ⟨[n, l], y, some v, .double⟩) rfl rfl rfl rfl hsize hpos hu hv (fun _ => rfl) fun _ => rfl
  have hdims := dims_joined (a := ⟨[n, k], x, some u, .double⟩) (b := ⟨[n, l], y, some v, .double⟩) rfl rfl
  exact NDArray.mk.injEq .. |>.mpr ⟨hdims, hreal, congrArg some himag, rfl⟩

end

end Concat

/-! ### Values -/

namespace Value

/-- Joining two matrices with as many rows, whose elements are numbers of their kinds. -/
theorem beside_ok (ha : a.WellFormed) (hb : b.WellFormed) (hma : a.dims.isMatrix = true)
    (hmb : b.dims.isMatrix = true) (hrows : a.rows = b.rows) (hpos : 1 ≤ a.rows) (hfa : a.Faithful)
    (hfb : b.Faithful) (h : beside [.array a, .array b] = .ok c) : a.Beside b c := by
  have hcols : ∀ {x : NDArray}, x.WellFormed → x.dims.isMatrix = true → 1 ≤ x.rows → x.size = 0 →
      x.cols = 0 := by
    intro x hx hm hr h0
    rw [hx.size_of_isMatrix hm] at h0
    rw [hx.cols_eq hm]
    exact (Nat.mul_eq_zero.mp h0).resolve_left (by omega)
  by_cases h1 : a.size = 0
  · have ha0 := hcols ha hma hpos h1
    rw [beside, concat_of_empty_left h1] at h
    by_cases h2 : b.size = 0
    · rw [if_pos h2] at h
      cases h
      refine ⟨ha, hma, rfl, by rw [hcols hb hmb (by omega) h2, Nat.add_zero], fun p => ?_⟩
      rw [if_neg (by omega), ha.cartesian_of_size_le (by omega), hb.cartesian_of_size_le (by omega)]
    · rw [if_neg h2] at h
      cases h
      refine ⟨hb, hmb, hrows.symm, by rw [ha0, Nat.zero_add], fun p => ?_⟩
      rw [if_neg (by omega), h1, Nat.sub_zero]
  · by_cases h2 : b.size = 0
    · rw [beside, concat_of_empty_right h1 h2] at h
      cases h
      refine ⟨ha, hma, rfl, by rw [hcols hb hmb (by omega) h2, Nat.add_zero], fun p => ?_⟩
      by_cases hp : p < a.size
      · rw [if_pos hp]
      · rw [if_neg hp, ha.cartesian_of_size_le (by omega), hb.cartesian_of_size_le (by omega)]
    · rw [beside, concat_pair h1 h2] at h
      exact Concat.beside_joined ha hb hma hmb h1 hrows hfa hfb h

end Value
end NumericArrays
