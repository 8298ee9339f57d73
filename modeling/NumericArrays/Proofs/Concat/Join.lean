import NumericArrays.Concat
import NumericArrays.Proofs.NDArray.Capacity

/-! Joined arrays: they are well formed, and the room at the end of the parts does not show in them. -/
namespace NumericArrays

namespace Concat

variable {axis rank pages : Nat} {s t : Shape} {first a b c : NDArray} {others parts : List NDArray}

/-! ### Shapes -/

theorem pageSize_eq_prod (axis : Nat) (s : Shape) :
    pageSize axis s = ∏ i ∈ Finset.range (axis + 1), s.extent i := by
  unfold pageSize
  induction axis + 1 with
  | zero => rfl
  | succ n ih =>
    rw [List.range_succ, List.foldl_append, ih, Finset.prod_range_succ]
    rfl

/-- A shape splits at the joined axis into a page and the number of its pages. -/
theorem prod_eq_pageSize_mul (h : s.length ≤ axis + 1 + rank) :
    s.prod = pageSize axis s * ∏ i ∈ Finset.range rank, s.extent (axis + 1 + i) := by
  rw [Shape.prod_eq_prod_extent s h, Finset.prod_range_add, pageSize_eq_prod]

theorem agreeOff_iff (hs : s.length ≤ rank) (ht : t.length ≤ rank) :
    agreeOff axis rank s t = true ↔ ∀ i, i ≠ axis → s.extent i = t.extent i := by
  simp only [agreeOff, List.all_eq_true, List.mem_range, Bool.or_eq_true, beq_iff_eq]
  constructor
  · intro h i hi
    by_cases hl : i < rank
    · exact (h i hl).resolve_left hi
    · rw [Shape.extent_of_length_le (by omega), Shape.extent_of_length_le (by omega)]
  · intro h i _
    exact or_iff_not_imp_left.mpr (h i)

def joinedDims (axis rank length : Nat) (s : Shape) : Shape :=
  (s.pad (max rank (axis + 1))).set axis length

theorem length_joinedDims {length : Nat} (h : s.length ≤ rank) :
    (joinedDims axis rank length s).length = max rank (axis + 1) := by
  simp only [joinedDims, Shape.pad, List.length_set, List.length_append, List.length_replicate]
  omega

theorem extent_joinedDims {length : Nat} (i : Nat) :
    (joinedDims axis rank length s).extent i = if i = axis then length else s.extent i := by
  have haxis : axis < (s.pad (max rank (axis + 1))).length := by
    simp only [Shape.pad, List.length_append, List.length_replicate]
    omega
  rw [joinedDims, Shape.extent_set haxis, Shape.extent_pad]

/-- As many pages as before, each as long as the pages of all parts together. -/
theorem prod_joinedDims {length : Nat} (hs : s.length ≤ rank) (hpos : 0 < s.prod) :
    (joinedDims axis rank length s).prod =
      s.prod / pageSize axis s * ((∏ i ∈ Finset.range axis, s.extent i) * length) := by
  have hrest : ∀ i, (joinedDims axis rank length s).extent (axis + 1 + i) = s.extent (axis + 1 + i) := by
    intro i
    rw [extent_joinedDims, if_neg (by omega)]
  have hlead : ∀ i ∈ Finset.range axis, (joinedDims axis rank length s).extent i = s.extent i := by
    intro i hi
    rw [extent_joinedDims, if_neg (by rw [Finset.mem_range] at hi; omega)]
  have hsplit : s.prod = pageSize axis s * ∏ i ∈ Finset.range rank, s.extent (axis + 1 + i) :=
    prod_eq_pageSize_mul (by omega)
  have hpage : 0 < pageSize axis s := Nat.pos_of_mul_pos_right (hsplit ▸ hpos)
  have hjoined : (joinedDims axis rank length s).length ≤ axis + 1 + rank := by
    rw [length_joinedDims hs]
    omega
  rw [prod_eq_pageSize_mul hjoined, pageSize_eq_prod, Finset.prod_range_succ,
    Finset.prod_congr rfl hlead, extent_joinedDims, if_pos rfl, hsplit,
    Nat.mul_div_cancel_left _ hpage]
  simp only [hrest]
  ring

/-! ### What is gathered from the parts -/

theorem foldl_max_ge (parts : List NDArray) (n : Nat) :
    n ≤ parts.foldl (fun n part => max n part.dims.length) n ∧
      ∀ part ∈ parts, part.dims.length ≤ parts.foldl (fun n part => max n part.dims.length) n := by
  induction parts generalizing n with
  | nil => simp
  | cons p parts ih =>
    obtain ⟨hn, hparts⟩ := ih (max n p.dims.length)
    refine ⟨by simp only [List.foldl_cons]; omega, ?_⟩
    intro part hmem
    rcases List.mem_cons.mp hmem with rfl | hmem
    · simp only [List.foldl_cons]
      omega
    · exact hparts part hmem

theorem foldl_extent_eq_sum (parts : List NDArray) (n : Nat) :
    parts.foldl (fun n part => n + part.dims.extent axis) n =
      n + (parts.map fun part => part.dims.extent axis).sum := by
  induction parts generalizing n with
  | nil => rfl
  | cons p parts ih => rw [List.foldl_cons, ih, List.map_cons, List.sum_cons, add_assoc]

/-- The joined kind is logical only if all parts are. -/
theorem foldl_promote_eq_logical {k : Storage}
    (h : parts.foldl (fun k part => k.promote part.kind) k = .logical) :
    k = .logical ∧ ∀ part ∈ parts, part.kind = .logical := by
  induction parts generalizing k with
  | nil => exact ⟨h, by simp⟩
  | cons p parts ih =>
    obtain ⟨hk, hparts⟩ := ih h
    obtain ⟨hk, hp⟩ := Storage.promote_eq_logical hk
    refine ⟨hk, ?_⟩
    intro part hmem
    rcases List.mem_cons.mp hmem with rfl | hmem
    · exact hp
    · exact hparts part hmem

theorem size_interleave (f : NDArray → Nat → Float) :
    (interleave axis f parts pages).size =
      pages * (parts.map fun part => pageSize axis part.dims).sum := by
  have hpages : ∀ k, (parts.flatMap fun part => page axis f part k).length =
      (parts.map fun part => pageSize axis part.dims).sum := by
    intro k
    simp [List.length_flatMap, page]
  unfold interleave
  rw [List.size_toArray, List.length_flatMap]
  simp only [hpages, List.map_const', List.length_range, List.sum_replicate, nsmul_eq_mul, Nat.cast_id]

/-- Parts that agree with `s` off the axis have pages that differ in their extent along it only. -/
theorem sum_pageSize (h : ∀ part ∈ parts, ∀ i, i ≠ axis → s.extent i = part.dims.extent i) :
    (parts.map fun part => pageSize axis part.dims).sum =
      (∏ i ∈ Finset.range axis, s.extent i) * (parts.map fun part => part.dims.extent axis).sum := by
  rw [← List.sum_map_mul_left]
  congr 1
  apply List.map_congr_left
  intro part hmem
  rw [pageSize_eq_prod, Finset.prod_range_succ]
  congr 1
  refine Finset.prod_congr rfl fun i hi => (h part hmem i ?_).symm
  rw [Finset.mem_range] at hi
  omega

/-! ### Joining -/

theorem joinedDims_prod_pos {length : Nat} (hs : 0 < s.prod) (hl : 0 < length) :
    0 < (joinedDims axis rank length s).prod := by
  rw [Shape.prod_pos_iff]
  intro i
  rw [extent_joinedDims]
  split
  · exact hl
  · exact Shape.prod_pos_iff.mp hs i

theorem agree_of_find? (hle : ∀ part ∈ first :: others, part.dims.length ≤ rank)
    (h : others.find? (fun part => !agreeOff axis rank first.dims part.dims) = none) :
    ∀ part ∈ first :: others, ∀ i, i ≠ axis → first.dims.extent i = part.dims.extent i := by
  intro part hmem
  rcases List.mem_cons.mp hmem with rfl | hother
  · exact fun _ _ => rfl
  · have hagree := List.find?_eq_none.mp h part hother
    exact (agreeOff_iff (hle first List.mem_cons_self) (hle part hmem)).mp (by simpa using hagree)

/-- Truth values are joined to truth values only, and those have no imaginary part. -/
theorem not_isComplex_of_logical (hp : ∀ part ∈ parts, part.WellFormed)
    (hk : parts.foldl (fun k part => k.promote part.kind) Storage.logical = .logical) :
    ¬ parts.any (·.isComplex) = true := by
  rw [List.any_eq_true]
  rintro ⟨part, hmem, hcomplex⟩
  have hkind := (foldl_promote_eq_logical hk).2 part hmem
  exact NDArray.isComplex_iff.mp hcomplex ((hp part hmem).logical_real hkind)

/-- As many elements are collected as the joined shape has places. -/
theorem size_interleave_eq_prod {length : Nat} (hf : first.WellFormed) (h0 : first.size ≠ 0)
    (hrank : first.dims.length ≤ rank)
    (hlength : length = ((first :: others).map fun part => part.dims.extent axis).sum)
    (h : ∀ part ∈ first :: others, ∀ i, i ≠ axis → first.dims.extent i = part.dims.extent i)
    (f : NDArray → Nat → Float) :
    (interleave axis f (first :: others) (first.size / pageSize axis first.dims)).size =
      (joinedDims axis rank length first.dims).prod := by
  have hprod : 0 < first.dims.prod := by
    rw [← hf.size_eq_prod]
    omega
  rw [size_interleave, sum_pageSize h, ← hlength, prod_joinedDims hrank hprod, hf.size_eq_prod]

theorem join_wellFormed (hf : first.WellFormed) (ho : ∀ part ∈ others, part.WellFormed)
    (h0 : first.size ≠ 0) (h : join axis first others = .ok c) : c.WellFormed := by
  unfold join at h
  dsimp only at h
  split at h
  · cases h
  rename_i hfind
  split at h
  · cases h
  rename_i hcount
  cases h
  set rank := (first :: others).foldl (fun n part => max n part.dims.length) 0
  set length := (first :: others).foldl (fun n part => n + part.dims.extent axis) 0 with hlength
  have hle : ∀ part ∈ first :: others, part.dims.length ≤ rank := (foldl_max_ge _ 0).2
  have hrank := hle first List.mem_cons_self
  have hprod : 0 < first.dims.prod := by
    rw [← hf.size_eq_prod]
    omega
  have hsum : length = ((first :: others).map fun part => part.dims.extent axis).sum := by
    rw [hlength, foldl_extent_eq_sum, Nat.zero_add]
  have hpos : 0 < (joinedDims axis rank length first.dims).prod := by
    refine joinedDims_prod_pos hprod ?_
    have hextent := Shape.prod_pos_iff.mp hprod axis
    rw [hsum, List.map_cons, List.sum_cons]
    omega
  obtain ⟨count, hc⟩ : ∃ n, (joinedDims axis rank length first.dims).count? = some n :=
    Option.ne_none_iff_exists'.mp (by simpa [joinedDims] using hcount)
  have hcp := Shape.prod_of_count? hc
  have hsize := fun f => (size_interleave_eq_prod hf h0 hrank hsum (agree_of_find? hle hfind) f).trans hcp.symm
  refine NDArray.wellFormed_exact ?_ ?_ ?_ ?_ fun hk => if_neg ?_
  · show 2 ≤ (joinedDims axis rank length first.dims).length
    have haxes := hf.two_axes
    rw [length_joinedDims hrank]
    omega
  · intro d hd
    obtain ⟨i, -, rfl⟩ := Shape.exists_extent hd
    exact (Shape.extent_le_prod hpos i).trans (hcp ▸ Shape.le_of_count? hc)
  · rw [hsize]
    exact hc
  · intro im him
    split at him
    · cases him
      rw [hsize, hsize]
    · cases him
  · exact not_isComplex_of_logical (List.forall_mem_cons.mpr ⟨hf, ho⟩) hk

/-! ### The room at the end -/

theorem interleave_trim {f : NDArray → Nat → Float} (hp : ∀ part ∈ parts, part.WellFormed)
    (hf : ∀ part : NDArray, part.WellFormed → ∀ p, f part.trim p = f part p) :
    interleave axis f (parts.map NDArray.trim) pages = interleave axis f parts pages := by
  have hpage : ∀ k, (parts.map NDArray.trim).flatMap (fun part => page axis f part k) =
      parts.flatMap fun part => page axis f part k := by
    intro k
    rw [List.flatMap_map]
    apply List.flatMap_congr
    intro part hmem
    unfold page
    simp only [hf part (hp part hmem)]
    rfl
  unfold interleave
  simp only [hpage]

theorem join_trim (hf : first.WellFormed) (ho : ∀ part ∈ others, part.WellFormed) :
    join axis first.trim (others.map NDArray.trim) = join axis first others := by
  have hp : ∀ part ∈ first :: others, part.WellFormed := List.forall_mem_cons.mpr ⟨hf, ho⟩
  have hre : ∀ (k : Storage) n, interleave axis (fun part p => k.store (part.re p))
      ((first :: others).map NDArray.trim) n =
        interleave axis (fun part p => k.store (part.re p)) (first :: others) n :=
    fun k n => interleave_trim hp fun part hpart p => congrArg k.store (NDArray.re_trim hpart)
  have him : ∀ (k : Storage) n, interleave axis (fun part p => k.store (part.im p))
      ((first :: others).map NDArray.trim) n =
        interleave axis (fun part p => k.store (part.im p)) (first :: others) n :=
    fun k n => interleave_trim hp fun part hpart p => congrArg k.store (NDArray.im_trim hpart)
  have hcomplex : ((first :: others).map NDArray.trim).any (·.isComplex) =
      (first :: others).any (·.isComplex) := by
    rw [List.any_map]
    congr 1
    funext part
    exact NDArray.isComplex_trim
  rw [List.map_cons] at hre him hcomplex
  unfold join
  simp only [hre, him, hcomplex, List.foldl_cons, List.foldl_map, List.find?_map, NDArray.dims_trim,
    NDArray.kind_trim, NDArray.size_trim, Function.comp_def]
  cases others.find? _ with
  | none => rfl
  | some part => rfl

end Concat

/-! ### Values -/

namespace Value

variable {axis : Nat} {values : List Value}

/-- The parts that are joined. -/
theorem parts_wellFormed (hv : ∀ v ∈ values, v.WellFormed) :
    ∀ a ∈ (values.filter (!·.isEmpty)).map toArray, a.WellFormed ∧ a.size ≠ 0 := by
  intro a ha
  obtain ⟨v, hmem, rfl⟩ := List.mem_map.mp ha
  obtain ⟨hmem, hne⟩ := List.mem_filter.mp hmem
  refine ⟨(hv v hmem).toArray, ?_⟩
  rw [size_toArray]
  simpa [isEmpty] using hne

theorem parts_trim (values : List Value) :
    ((values.map trim).filter (!·.isEmpty)).map toArray =
      ((values.filter (!·.isEmpty)).map toArray).map NDArray.trim := by
  have hempty : ((!·.isEmpty) ∘ trim : Value → Bool) = (!·.isEmpty) := by
    funext v
    show (!(v.trim.size == 0)) = !(v.size == 0)
    rw [size_trim]
  rw [List.filter_map, hempty, List.map_map, List.map_map]
  exact List.map_congr_left fun v _ => toArray_trim v

theorem concat_wellFormed {c : NDArray} (hv : ∀ v ∈ values, v.WellFormed)
    (h : concat axis values = .ok c) : c.WellFormed := by
  have hparts := parts_wellFormed hv
  unfold concat at h
  split at h
  · split at h
    · cases h
      exact NDArray.wellFormed_empty
    · cases h
      exact (hv _ List.mem_cons_self).toArray
  · rename_i a heq
    cases h
    exact (hparts _ (by rw [heq]; exact List.mem_cons_self)).1
  · rename_i first others _ heq
    rw [heq] at hparts
    obtain ⟨⟨hf, h0⟩, ho⟩ := List.forall_mem_cons.mp hparts
    exact Concat.join_wellFormed hf (fun part hmem => (ho part hmem).1) h0 h

/-- Joining values without room at their end yields the same, up to the room of a value that is returned
    as it is. -/
theorem concat_trim (hv : ∀ v ∈ values, v.WellFormed) :
    (concat axis (values.map trim)).map NDArray.trim = (concat axis values).map NDArray.trim := by
  have hparts := parts_wellFormed hv
  unfold concat
  rw [parts_trim]
  generalize (values.filter (!·.isEmpty)).map toArray = parts at hparts
  match parts with
  | [] =>
    cases values with
    | nil => rfl
    | cons v vs =>
      have hvw := (hv v List.mem_cons_self).toArray
      show Except.ok v.trim.toArray.trim = Except.ok v.toArray.trim
      rw [toArray_trim, NDArray.trim_trim hvw]
  | [a] => exact congrArg Except.ok (NDArray.trim_trim (hparts a List.mem_cons_self).1)
  | first :: a :: others =>
    obtain ⟨⟨hf, -⟩, ho⟩ := List.forall_mem_cons.mp hparts
    exact congrArg (Except.map NDArray.trim)
      (Concat.join_trim hf fun part hmem => (ho part hmem).1)

end Value
end NumericArrays
