import NumericArrays.Proofs.Sheet.Basic

/-! Arrays without the room at their end, which hold the same elements. -/
namespace NumericArrays.NDArray

variable {a b : NDArray} {p : Nat} {coords : List Nat} {kind : Storage}

/-- The array in buffers as long as its shape asks for. -/
def trim (a : NDArray) : NDArray := { a with real := a.reals, imag := a.imags }

/-- Equal shapes, kinds, real parts and imaginary parts, if there are any; the room at the end may
    differ. -/
structure Alike (a b : NDArray) : Prop where
  dims_eq : a.dims = b.dims
  kind_eq : a.kind = b.kind
  reals_eq : a.reals = b.reals
  imags_eq : a.imags = b.imags

/-- The same, but for ones at the end of the shapes. -/
structure Matches (a b : NDArray) : Prop where
  dims_same : a.dims.same b.dims = true
  kind_eq : a.kind = b.kind
  reals_eq : a.reals = b.reals
  imags_eq : a.imags = b.imags

theorem alike_iff : a.Alike b ↔ a.trim = b.trim := by
  constructor
  · intro h
    unfold trim
    rw [h.dims_eq, h.kind_eq, h.reals_eq, h.imags_eq]
  · intro h
    have hd : a.trim.dims = b.trim.dims := by rw [h]
    have hk : a.trim.kind = b.trim.kind := by rw [h]
    have hr : a.trim.real = b.trim.real := by rw [h]
    have hi : a.trim.imag = b.trim.imag := by rw [h]
    exact ⟨hd, hk, hr, hi⟩

@[simp] theorem dims_trim : a.trim.dims = a.dims := rfl

@[simp] theorem kind_trim : a.trim.kind = a.kind := rfl

@[simp] theorem size_trim : a.trim.size = a.size := rfl

@[simp] theorem isComplex_trim : a.trim.isComplex = a.isComplex := by
  simp [isComplex, trim, imags]

theorem re_trim (ha : a.WellFormed) : a.trim.re p = a.re p := by
  show (a.real.extract 0 a.size).getD p 0 = a.re p
  rw [getD_extract]
  split
  · rfl
  · rw [ha.re_of_size_le (by omega)]

theorem im_trim (ha : a.WellFormed) : a.trim.im p = a.im p := by
  cases h : a.imag with
  | none =>
    rw [im_of_real h]
    exact im_of_real (by simp [trim, imags, h])
  | some im =>
    have htrim : a.trim.imag = some (im.extract 0 a.size) := by simp [trim, imags, h]
    rw [im_of_complex htrim, getD_extract, ← im_of_complex h]
    split
    · rfl
    · rw [ha.im_of_size_le (by omega)]

theorem cartesian_trim (ha : a.WellFormed) : a.trim.cartesian p = a.cartesian p := by
  rw [cartesian, cartesian, re_trim ha, im_trim ha]

theorem number_trim (ha : a.WellFormed) : a.trim.number p = a.number p := by
  rw [number_eq_shaped, number_eq_shaped, cartesian_trim ha, isComplex_trim, kind_trim]

theorem size_reals (ha : a.WellFormed) : a.reals.size = a.size := size_extract ha.size_le

theorem size_of_imags (ha : a.WellFormed) {im : Array Float} (h : a.imags = some im) : im.size = a.size := by
  obtain ⟨im', him', rfl⟩ := Option.map_eq_some_iff.mp h
  refine size_extract ?_
  rw [ha.imag_size im' him']
  exact ha.size_le

theorem imags_of_logical (ha : a.WellFormed) (h : a.kind = .logical) : a.imags = none := by
  rw [imags, ha.logical_real h]
  rfl

theorem WellFormed.trim (ha : a.WellFormed) : a.trim.WellFormed :=
  ha.withBuffers (size_reals ha) (fun _ => size_of_imags ha) (imags_of_logical ha)

/-- Elements that agree within the size agree past it, where the trimmed arrays are zero. -/
theorem cartesian_trim_congr (ha : a.WellFormed) (hb : b.WellFormed) (hs : a.size = b.size)
    (h : ∀ p < a.size, a.cartesian p = b.cartesian p) (p : Nat) :
    a.trim.cartesian p = b.trim.cartesian p := by
  rw [cartesian_trim ha, cartesian_trim hb]
  by_cases hp : p < a.size
  · exact h p hp
  · rw [ha.cartesian_of_size_le (by omega), hb.cartesian_of_size_le (by omega)]

theorem reals_eq_of_cartesian (ha : a.WellFormed) (hb : b.WellFormed) (hs : a.size = b.size)
    (h : ∀ p < a.size, a.cartesian p = b.cartesian p) : a.reals = b.reals := by
  apply buffer_ext
  · rw [size_reals ha, size_reals hb, hs]
  · intro p
    exact congrArg Cartesian.re (cartesian_trim_congr ha hb hs h p)

theorem imags_eq_of_cartesian (ha : a.WellFormed) (hb : b.WellFormed) (hs : a.size = b.size)
    (hc : a.isComplex = b.isComplex) (h : ∀ p < a.size, a.cartesian p = b.cartesian p) :
    a.imags = b.imags := by
  unfold isComplex at hc
  cases hx : a.imag with
  | none =>
    cases hy : b.imag with
    | none => rw [imags, imags, hx, hy]; rfl
    | some y => simp [hx, hy] at hc
  | some x =>
    cases hy : b.imag with
    | none => simp [hx, hy] at hc
    | some y =>
      rw [imags, imags, hx, hy, Option.map_some, Option.map_some]
      congr 1
      apply buffer_ext
      · rw [size_extract (by rw [ha.imag_size x hx]; exact ha.size_le),
          size_extract (by rw [hb.imag_size y hy]; exact hb.size_le), hs]
      · intro p
        have him : a.trim.im p = b.trim.im p :=
          congrArg Cartesian.im (cartesian_trim_congr ha hb hs h p)
        have hx' : a.trim.imag = some (x.extract 0 a.size) := by simp [NDArray.trim, imags, hx]
        have hy' : b.trim.imag = some (y.extract 0 b.size) := by simp [NDArray.trim, imags, hy]
        rwa [im_of_complex hx', im_of_complex hy'] at him

/-- Well-formed arrays are alike if they agree on shape, kind, form and elements. -/
theorem trim_eq_of_cartesian (ha : a.WellFormed) (hb : b.WellFormed) (hd : a.dims = b.dims)
    (hk : a.kind = b.kind) (hc : a.isComplex = b.isComplex)
    (h : ∀ p < a.size, a.cartesian p = b.cartesian p) : a.trim = b.trim := by
  have hs : a.size = b.size := by rw [size, size, hd]
  exact alike_iff.mp ⟨hd, hk, reals_eq_of_cartesian ha hb hs h, imags_eq_of_cartesian ha hb hs hc h⟩

theorem matches_of_cartesian (ha : a.WellFormed) (hb : b.WellFormed)
    (hd : ∀ axis, a.dims.extent axis = b.dims.extent axis) (hk : a.kind = b.kind)
    (hc : a.isComplex = b.isComplex) (h : ∀ p < a.size, a.cartesian p = b.cartesian p) :
    a.Matches b := by
  have hs : a.size = b.size := by rw [ha.size_eq_prod, hb.size_eq_prod, Shape.prod_congr hd]
  exact ⟨Shape.same_iff.mpr hd, hk, reals_eq_of_cartesian ha hb hs h,
    imags_eq_of_cartesian ha hb hs hc h⟩

theorem trim_trim (ha : a.WellFormed) : a.trim.trim = a.trim :=
  trim_eq_of_cartesian ha.trim ha rfl rfl isComplex_trim fun _ _ => cartesian_trim ha

/-! ### Reading -/

theorem get_trim (ha : a.WellFormed) (coords : List Nat) : a.trim.get coords = a.get coords := by
  unfold get
  rw [dims_trim]
  congr 1
  funext p
  exact number_trim ha

theorem reals_trim (ha : a.WellFormed) : a.trim.reals = a.reals := by
  have h := congrArg NDArray.real (trim_trim ha)
  exact h

theorem imags_trim (ha : a.WellFormed) : a.trim.imags = a.imags := by
  have h := congrArg NDArray.imag (trim_trim ha)
  exact h

theorem equal_trim (ha : a.WellFormed) (hb : b.WellFormed) : a.trim.equal b.trim = a.equal b := by
  unfold equal
  rw [reals_trim ha, reals_trim hb, imags_trim ha, imags_trim hb]
  rfl

theorem elementText_trim (ha : a.WellFormed) (p : Nat) : a.trim.elementText p = a.elementText p := by
  unfold elementText
  rw [cartesian_trim ha, re_trim ha]
  cases h : a.imag with
  | none => simp [trim, imags, h]
  | some im => simp [trim, imags, h]

theorem text_trim (ha : a.WellFormed) : a.trim.text = a.text := by
  have hrow : ∀ page row, a.trim.rowText page row = a.rowText page row := by
    intro page row
    unfold rowText
    simp only [elementText_trim ha]
    rfl
  have hpage : ∀ page, a.trim.pageText page = a.pageText page := by
    intro page
    unfold pageText
    simp only [hrow]
    rfl
  unfold text
  simp only [hpage]
  rfl

/-! ### Changes of kind and form -/

theorem hasZeroImag_trim (ha : a.WellFormed) : a.trim.hasZeroImag = a.hasZeroImag := by
  unfold hasZeroImag
  rw [imags_trim ha]

theorem trim_promote (ha : a.WellFormed) : a.promote.trim = a.trim.promote.trim := by
  refine trim_eq_of_cartesian ha.promote ha.trim.promote ?_ ?_ ?_ ?_
  · rw [dims_promote, dims_promote, dims_trim]
  · rw [kind_promote ha.logical_real, kind_promote ha.trim.logical_real, kind_trim]
  · rw [isComplex_promote, isComplex_promote]
  · intro p _
    rw [cartesian_promote, cartesian_promote, cartesian_trim ha]

theorem trim_dropImag (ha : a.WellFormed) :
    trim { a with imag := none } = trim { a.trim with imag := none } := by
  refine trim_eq_of_cartesian ha.dropImag ha.trim.dropImag rfl rfl rfl ?_
  intro p _
  exact Cartesian.ext (re_trim ha).symm rfl

theorem trim_demote (ha : a.WellFormed) : a.demote.trim = a.trim.demote.trim := by
  unfold demote
  rw [hasZeroImag_trim ha]
  split
  · exact trim_dropImag ha
  · exact (trim_trim ha).symm

theorem trim_retag (ha : a.WellFormed) (hk : kind = .logical → a.imag = none) :
    (a.retag kind).trim = (a.trim.retag kind).trim := by
  have hk' : kind = .logical → a.trim.imag = none := by
    intro h
    simp [trim, imags, hk h]
  refine trim_eq_of_cartesian (ha.retag hk) (ha.trim.retag hk') rfl rfl ?_ ?_
  · rw [isComplex_retag, isComplex_retag, isComplex_trim]
  · intro p _
    refine Cartesian.ext ?_ ?_
    · show (a.retag kind).re p = (a.trim.retag kind).re p
      rw [re_retag, re_retag, re_trim ha]
    · show (a.retag kind).im p = (a.trim.retag kind).im p
      rw [im_retag, im_retag, im_trim ha]

theorem convert_trim (ha : a.WellFormed) (kind : Storage) :
    (a.convert kind).map trim = (a.trim.convert kind).map trim := by
  unfold convert
  rw [hasZeroImag_trim ha, reals_trim ha, kind_trim]
  split
  · exact congrArg Except.ok (trim_trim ha).symm
  · split
    · split
      · rfl
      · split
        · rfl
        · have hleft := WellFormed.retag ha.dropImag fun _ : Storage.logical = .logical => rfl
          have hright := WellFormed.retag ha.trim.dropImag fun _ : Storage.logical = .logical => rfl
          refine congrArg Except.ok (trim_eq_of_cartesian hleft hright rfl rfl rfl ?_)
          intro p _
          refine Cartesian.ext ?_ rfl
          show (a.retag .logical).re p = (a.trim.retag .logical).re p
          rw [re_retag, re_retag, re_trim ha]
    · rename_i hne
      exact congrArg Except.ok (trim_retag ha fun h => absurd h hne)

end NumericArrays.NDArray
