import NumericArrays.Proofs.NDArray.Elements
import NumericArrays.Proofs.Shape.Growth

/-! Growing an array: what each path yields, that it is well formed, and where its elements are. -/
namespace NumericArrays.NDArray

variable {a b : NDArray} {dims : Shape} {count : Nat}

theorem WellFormed.size_eq_prod (h : a.WellFormed) : a.size = a.dims.prod :=
  Shape.count_eq_prod h.counted

theorem WellFormed.size_le_maxCount (h : a.WellFormed) : a.size ≤ maxCount :=
  Shape.count_le h.counted

theorem isEmpty_iff : a.isEmpty = true ↔ a.size = 0 := by
  simp [isEmpty]

/-! ### The paths -/

theorem resize_of_count?_eq_none (h : dims.normalize.count? = none) :
    a.resize dims = .error (.outOfMemory dims.normalize) := by
  simp only [resize, h]

theorem resize_of_empty (hc : dims.normalize.count? = some count) (h0 : a.size = 0) :
    a.resize dims =
      if isAllocatable count then
        .ok { a with
          dims := dims.normalize
          real := .replicate count 0
          imag := a.imag.map fun _ => .replicate count 0 }
      else .error (.outOfMemory dims.normalize) := by
  simp only [resize, hc, isEmpty_iff.mpr h0, if_true]

theorem resize_of_exceeds (hc : dims.normalize.count? = some count) (h0 : a.size ≠ 0)
    (hx : a.dims.exceeds dims.normalize = true) :
    a.resize dims = .error (.unsupported .shrinking) := by
  simp only [resize, hc, isEmpty_iff, h0, hx, if_false, if_true]

theorem resize_of_room (hc : dims.normalize.count? = some count) (h0 : a.size ≠ 0)
    (hx : a.dims.exceeds dims.normalize = false) (hv : a.dims.isVector = true)
    (hv' : dims.normalize.isVector = true) (hcap : count ≤ a.capacity) :
    a.resize dims = .ok { a with dims := dims.normalize } := by
  simp [resize, hc, isEmpty_iff, h0, hx, hv, hv', hcap]

theorem resize_of_move (hc : dims.normalize.count? = some count) (h0 : a.size ≠ 0)
    (hx : a.dims.exceeds dims.normalize = false)
    (hr : ¬ (a.dims.isVector = true ∧ dims.normalize.isVector = true ∧ count ≤ a.capacity)) :
    a.resize dims =
      if isAllocatable (min (growthFactor * count) maxCount) then
        let move := relocate a.dims dims.normalize (min (growthFactor * count) maxCount)
        .ok { a with dims := dims.normalize, real := move a.real, imag := a.imag.map move }
      else .error (.outOfMemory dims.normalize) := by
  have hb : (a.dims.isVector && dims.normalize.isVector && decide (count ≤ a.capacity)) = false := by
    simpa [and_assoc] using hr
  simp only [resize, hc, isEmpty_iff, h0, hx, hb, if_false, Bool.false_eq_true]

inductive Grown (a : NDArray) (dims : Shape) (count : Nat) : NDArray → Prop where
  | fresh (h0 : a.size = 0) (hm : isAllocatable count = true) :
      Grown a dims count { a with
        dims, real := .replicate count 0, imag := a.imag.map fun _ => .replicate count 0 }
  | room (h0 : a.size ≠ 0) (hx : ∀ axis, a.dims.extent axis ≤ dims.extent axis)
      (hv : a.dims.isVector = true) (hv' : dims.isVector = true) (hcap : count ≤ a.capacity) :
      Grown a dims count { a with dims }
  | move (h0 : a.size ≠ 0) (hx : ∀ axis, a.dims.extent axis ≤ dims.extent axis)
      (length : Nat) (hlen : count ≤ length) (hm : isAllocatable length = true) :
      Grown a dims count { a with
        dims, real := relocate a.dims dims length a.real
        imag := a.imag.map (relocate a.dims dims length) }

theorem grown_of_resize (h : a.resize dims = .ok b) :
    ∃ count, dims.normalize.count? = some count ∧ Grown a dims.normalize count b := by
  cases hc : dims.normalize.count? with
  | none => rw [resize_of_count?_eq_none hc] at h; cases h
  | some count =>
    refine ⟨count, rfl, ?_⟩
    by_cases h0 : a.size = 0
    · rw [resize_of_empty hc h0] at h
      split at h <;> cases h
      exact .fresh h0 ‹_›
    · cases hx : a.dims.exceeds dims.normalize with
      | true => rw [resize_of_exceeds hc h0 hx] at h; cases h
      | false =>
        have hle := Shape.exceeds_eq_false_iff.mp hx
        by_cases hr : a.dims.isVector = true ∧ dims.normalize.isVector = true ∧ count ≤ a.capacity
        · obtain ⟨hv, hv', hcap⟩ := hr
          rw [resize_of_room hc h0 hx hv hv' hcap] at h
          cases h
          exact .room h0 hle hv hv' hcap
        · rw [resize_of_move hc h0 hx hr] at h
          split at h <;> cases h
          have := Shape.le_of_count? hc
          exact .move h0 hle _ (by simp only [growthFactor]; omega) ‹_›

/-! ### Relocated buffers -/

section Relocate

variable {old new : Shape} {length : Nat} {buffer : Array Float} {c : List Nat}

@[simp] theorem size_relocate : (relocate old new length buffer).size = length := by
  simp [relocate]

theorem getD_relocate (hc : new.count? = some count) (hlen : count ≤ length) (p : Nat) :
    (relocate old new length buffer).getD p 0 =
      if p < count ∧ old.covers (new.coordsOf p) = true then
        buffer.getD (old.offset (new.coordsOf p)) 0
      else 0 := by
  have h := getD_ofFn (n := length) (p := p) (g := fun p =>
    if p < count ∧ old.covers (new.coordsOf p) = true then
      buffer.getD (old.offset (new.coordsOf p)) 0
    else 0)
  simp only [relocate, Shape.count_of_count? hc, Bool.and_eq_true, decide_eq_true_eq]
  beta_reduce at h
  rw [h]
  by_cases hp : p < count
  · rw [if_pos (hp.trans_le hlen)]
  · simp only [hp, false_and, if_false, ite_self]

/-- Elements keep their coordinates. -/
theorem getD_relocate_offset (hc : new.count? = some count) (hlen : count ≤ length)
    (hcov : new.covers c = true) :
    (relocate old new length buffer).getD (new.offset c) 0 =
      if old.covers c = true then buffer.getD (old.offset c) 0 else 0 := by
  have hback := Shape.getD_coordsOf_offset hcov
  have hlt : new.offset c < count := by
    rw [Shape.prod_of_count? hc]
    exact Shape.offset_lt hcov
  rw [getD_relocate hc hlen, Shape.covers_congr hback, Shape.offset_congr hback]
  simp [hlt]

end Relocate

/-! ### Growing -/

theorem Grown.dims_eq (h : Grown a dims count b) : b.dims = dims := by
  cases h <;> rfl

theorem Grown.kind_eq (h : Grown a dims count b) : b.kind = a.kind := by
  cases h <;> rfl

theorem Grown.isComplex_eq (h : Grown a dims count b) : b.isComplex = a.isComplex := by
  cases h <;> simp [isComplex]

theorem Grown.wellFormed (h : Grown a dims count b) (ha : a.WellFormed)
    (hc : dims.count? = some count) (h2 : 2 ≤ dims.length) (hd : ∀ d ∈ dims, d ≤ maxCount) :
    b.WellFormed := by
  have hcount := Shape.count_of_count? hc
  have hlogical : a.kind = .logical → a.imag = none := ha.logical_real
  cases h with
  | fresh h0 hm =>
    refine wellFormed_exact h2 hd (by simpa using hc) (fun im him => ?_) (fun hk => ?_)
    · obtain ⟨_, -, rfl⟩ := Option.map_eq_some_iff.mp him
      simp
    · simp [hlogical hk]
  | room h0 hx hv hv' hcap =>
    have hsize : a.size ≤ count := by
      rw [ha.size_eq_prod, Shape.prod_of_count? hc]
      exact Shape.prod_le_prod hx
    refine wellFormed_iff.mpr ⟨h2, hd, by simpa [size, hcount] using hc, by simpa [size, hcount],
      ha.imag_size, fun p hp => ?_, fun p hp => ?_, hlogical⟩
    · exact ha.re_of_size_le (hsize.trans (by simpa [size, hcount] using hp))
    · exact ha.im_of_size_le (hsize.trans (by simpa [size, hcount] using hp))
  | move h0 hx length hlen hm =>
    have hzero : ∀ (buffer : Array Float) p, count ≤ p →
        (relocate a.dims dims length buffer).getD p 0 = 0 := fun buffer p hp => by
      rw [getD_relocate hc hlen, if_neg fun h => by omega]
    refine wellFormed_iff.mpr ⟨h2, hd, by simpa [size, hcount] using hc,
      by simpa [size, hcount, capacity], fun im him => ?_, fun p hp => ?_, fun p hp => ?_,
      fun hk => by simp [hlogical hk]⟩
    · obtain ⟨_, -, rfl⟩ := Option.map_eq_some_iff.mp him
      simp [capacity]
    · exact hzero _ p (by simpa [size, hcount] using hp)
    · cases him : a.imag with
      | none => exact im_of_real rfl
      | some im =>
        exact (im_of_complex rfl).trans (hzero im p (by simpa [size, hcount] using hp))

theorem resize_wellFormed (ha : a.WellFormed) (hd : ∀ d ∈ dims, d ≤ maxCount)
    (h : a.resize dims = .ok b) : b.WellFormed := by
  obtain ⟨count, hc, hg⟩ := grown_of_resize h
  refine hg.wellFormed ha hc (Shape.length_normalize dims) fun d hmem => ?_
  rcases Shape.mem_normalize hmem with rfl | hmem
  · decide
  · exact hd d hmem

/-- Along a grown vector, coordinates that the old vector did not have come after all it had. -/
theorem size_le_sum_of_not_covers {n : Nat} {old new : Shape} {c : List Nat} (hn : n = old.prod)
    (h0 : n ≠ 0) (hx : ∀ axis, old.extent axis ≤ new.extent axis) (hv : new.isVector = true)
    (hcov : new.covers c = true) (hold : ¬ old.covers c = true) : n ≤ c.sum := by
  obtain ⟨k, hk⟩ := Shape.isVector_iff.mp hv
  have hpos : ∀ axis, 0 < old.extent axis := Shape.prod_pos_iff.mp (by omega)
  have hone : ∀ i, i ≠ k → old.extent i = 1 := fun i hi => by
    have := hx i
    have := hpos i
    have := hk i hi
    omega
  rw [Shape.covers_iff] at hold
  push Not at hold
  obtain ⟨axis, haxis⟩ := hold
  have hlt := Shape.covers_iff.mp hcov axis
  have hkey : axis = k := by
    by_contra hne
    rw [hk axis hne] at hlt
    have := hpos axis
    omega
  subst hkey
  rw [hn, Shape.prod_of_single hone]
  refine haxis.trans ?_
  by_cases hl : axis < c.length
  · rw [List.getD_eq_getElem _ _ hl]
    exact List.single_le_sum (fun _ _ => Nat.zero_le _) _ (List.getElem_mem hl)
  · rw [List.getD_eq_default _ _ (by omega)]
    exact Nat.zero_le _

/-- Both parts moved alike: the elements are moved. -/
theorem cartesian_of_moved {move : Array Float → Array Float} {P : Prop} [Decidable P] {p q : Nat}
    (h : ∀ buffer, (move buffer).getD p 0 = if P then buffer.getD q 0 else 0) (dims : Shape) :
    cartesian { a with dims, real := move a.real, imag := a.imag.map move } p =
      if P then a.cartesian q else ⟨0, 0⟩ := by
  refine Cartesian.ext ((h a.real).trans ?_) ?_
  · split <;> rfl
  · change NDArray.im _ _ = _
    cases him : a.imag with
    | none =>
      rw [im_of_real rfl]
      split
      · exact (im_of_real him).symm
      · rfl
    | some im =>
      refine (im_of_complex rfl).trans ((h im).trans ?_)
      split
      · exact (im_of_complex him).symm
      · rfl

/-- Every element is where its coordinates say, and all new ones are zero. -/
theorem Grown.cartesian_offset (h : Grown a dims count b) (ha : a.WellFormed)
    (hc : dims.count? = some count) {c : List Nat} (hcov : dims.covers c = true) :
    b.cartesian (dims.offset c) =
      if a.dims.covers c = true then a.cartesian (a.dims.offset c) else ⟨0, 0⟩ := by
  cases h with
  | fresh h0 hm =>
    have hnot : ¬ a.dims.covers c = true := by
      intro hca
      have hpos := Shape.prod_pos_of_covers hca
      rw [← ha.size_eq_prod] at hpos
      omega
    have hzeros : ∀ buffer : Array Float, (Array.replicate count (0 : Float)).getD (dims.offset c) 0 =
        if a.dims.covers c = true then buffer.getD (a.dims.offset c) 0 else 0 := by
      intro buffer
      rw [getD_replicate, if_neg hnot]
    exact cartesian_of_moved hzeros dims
  | room h0 hx hv hv' hcap =>
    have hsum := Shape.offset_of_isVector hv' hcov
    change a.cartesian (dims.offset c) = _
    by_cases hca : a.dims.covers c = true
    · rw [if_pos hca, hsum, Shape.offset_of_isVector hv hca]
    · rw [if_neg hca, hsum]
      apply ha.cartesian_of_size_le
      exact size_le_sum_of_not_covers ha.size_eq_prod h0 hx hv' hcov hca
  | move h0 hx length hlen hm =>
    exact cartesian_of_moved (fun _ => getD_relocate_offset hc hlen hcov) dims

end NumericArrays.NDArray
