import NumericArrays.Proofs.NDArray.Trim

/-! Growing arrays with different room at their end. Memory may be refused to one of them only; otherwise
    the results differ in their room again and in nothing else. -/
namespace NumericArrays

def OutOfMemory {α : Type} (r : Except Fault α) : Prop := ∃ dims, r = .error (.outOfMemory dims)

def Value.trim : Value → Value
  | number x => .number x
  | array a => .array a.trim

namespace NDArray

variable {a b x y g g' : NDArray} {dims : Shape} {count : Nat} {coords : List Nat} {e : Entry}

/-! ### What twins share -/

/-- Well formed, and equal but for the room at the end. -/
structure Twin (a b : NDArray) : Prop where
  left : a.WellFormed
  right : b.WellFormed
  trim_eq : a.trim = b.trim

namespace Twin

theorem alike (h : a.Twin b) : a.Alike b := alike_iff.mpr h.trim_eq

theorem dims_eq (h : a.Twin b) : a.dims = b.dims := h.alike.dims_eq

theorem kind_eq (h : a.Twin b) : a.kind = b.kind := h.alike.kind_eq

theorem size_eq (h : a.Twin b) : a.size = b.size := by
  rw [size, size, h.dims_eq]

theorem isScalar_eq (h : a.Twin b) : a.isScalar = b.isScalar := isScalar_congr h.dims_eq

theorem isComplex_eq (h : a.Twin b) : a.isComplex = b.isComplex := by
  rw [← isComplex_trim (a := a), h.trim_eq, isComplex_trim]

theorem cartesian_eq (h : a.Twin b) (p : Nat) : a.cartesian p = b.cartesian p := by
  rw [← cartesian_trim h.left, h.trim_eq, cartesian_trim h.right]

theorem re_eq (h : a.Twin b) (p : Nat) : a.re p = b.re p :=
  congrArg Cartesian.re (h.cartesian_eq p)

theorem number_eq (h : a.Twin b) (p : Nat) : a.number p = b.number p := by
  rw [number_eq_shaped, number_eq_shaped, h.kind_eq, h.isComplex_eq, h.cartesian_eq]

theorem hasZeroImag_eq (h : a.Twin b) : a.hasZeroImag = b.hasZeroImag := by
  rw [← hasZeroImag_trim h.left, h.trim_eq, hasZeroImag_trim h.right]

theorem promote (h : a.Twin b) : a.promote.Twin b.promote :=
  ⟨h.left.promote, h.right.promote, by rw [trim_promote h.left, h.trim_eq, ← trim_promote h.right]⟩

theorem demote (h : a.Twin b) : a.demote.Twin b.demote :=
  ⟨h.left.demote, h.right.demote, by rw [trim_demote h.left, h.trim_eq, ← trim_demote h.right]⟩

end Twin

/-! ### Growing -/

theorem Twin.grown (h : a.Twin b) (hc : dims.count? = some count) (hx : Grown a dims count x)
    (hy : Grown b dims count y) (hxw : x.WellFormed) (hyw : y.WellFormed) : x.Twin y := by
  refine ⟨hxw, hyw, trim_eq_of_cartesian hxw hyw ?_ ?_ ?_ ?_⟩
  · rw [hx.dims_eq, hy.dims_eq]
  · rw [hx.kind_eq, hy.kind_eq, h.kind_eq]
  · rw [hx.isComplex_eq, hy.isComplex_eq, h.isComplex_eq]
  · intro p hp
    rw [hxw.size_eq_prod, hx.dims_eq] at hp
    have hcov := Shape.covers_coordsOf hp
    have hleft := hx.cartesian_offset h.left hc hcov
    have hright := hy.cartesian_offset h.right hc hcov
    rw [Shape.offset_coordsOf hp] at hleft hright
    rw [hleft, hright, h.dims_eq, h.cartesian_eq]

/-- Growing fails for want of memory, or because the array would shrink. -/
theorem resize_error {f : Fault} (h : a.resize dims = .error f) :
    OutOfMemory (a.resize dims) ∨
      f = .unsupported .shrinking ∧ a.size ≠ 0 ∧ a.dims.exceeds dims.normalize = true := by
  cases hc : dims.normalize.count? with
  | none => exact .inl ⟨_, resize_of_count?_eq_none hc⟩
  | some count =>
    by_cases h0 : a.size = 0
    · rw [resize_of_empty hc h0] at h ⊢
      split at h
      · cases h
      · rename_i hm
        rw [if_neg hm]
        exact .inl ⟨_, rfl⟩
    · cases hx : a.dims.exceeds dims.normalize with
      | true =>
        rw [resize_of_exceeds hc h0 hx] at h
        cases h
        exact .inr ⟨rfl, h0, rfl⟩
      | false =>
        by_cases hr : a.dims.isVector = true ∧ dims.normalize.isVector = true ∧ count ≤ a.capacity
        · rw [resize_of_room hc h0 hx hr.1 hr.2.1 hr.2.2] at h
          cases h
        · rw [resize_of_move hc h0 hx hr] at h ⊢
          split at h
          · cases h
          · rename_i hm
            rw [if_neg hm]
            exact .inl ⟨_, rfl⟩

theorem not_exceeds_of_resize (h : a.resize dims = .ok x) :
    ¬ (a.size ≠ 0 ∧ a.dims.exceeds dims.normalize = true) := by
  rintro ⟨h0, hx⟩
  cases hc : dims.normalize.count? with
  | none => rw [resize_of_count?_eq_none hc] at h; cases h
  | some count => rw [resize_of_exceeds hc h0 hx] at h; cases h

theorem Twin.resize (h : a.Twin b) (hd : ∀ d ∈ dims, d ≤ maxCount)
    (hma : ¬ OutOfMemory (a.resize dims)) (hmb : ¬ OutOfMemory (b.resize dims)) :
    (a.resize dims).map trim = (b.resize dims).map trim := by
  have hdims := h.dims_eq
  have hsize := h.size_eq
  cases hx : a.resize dims with
  | ok x =>
    cases hy : b.resize dims with
    | ok y =>
      obtain ⟨count, hc, hgx⟩ := grown_of_resize hx
      obtain ⟨count', hc', hgy⟩ := grown_of_resize hy
      rw [hc] at hc'
      cases hc'
      exact congrArg Except.ok (h.grown hc hgx hgy (resize_wellFormed h.left hd hx)
        (resize_wellFormed h.right hd hy)).trim_eq
    | error f =>
      rcases resize_error hy with hm | ⟨-, h0, hexc⟩
      · exact absurd hm hmb
      · rw [← hsize] at h0
        rw [← hdims] at hexc
        exact absurd ⟨h0, hexc⟩ (not_exceeds_of_resize hx)
  | error f =>
    rcases resize_error hx with hm | ⟨rfl, h0, hexc⟩
    · exact absurd hm hma
    · cases hy : b.resize dims with
      | ok y =>
        rw [hsize] at h0
        rw [hdims] at hexc
        exact absurd ⟨h0, hexc⟩ (not_exceeds_of_resize hy)
      | error f' =>
        rcases resize_error hy with hm | ⟨rfl, -, -⟩
        · exact absurd hm hmb
        · rfl

/-! ### Writing -/

theorem Twin.dims_growthForm_eq (h : a.Twin b) (coords : List Nat) :
    (a.growthForm coords).dims = (b.growthForm coords).dims := by
  have hdims := h.dims_eq
  have hsize := h.size_eq
  match coords with
  | [] | _ :: _ :: _ => exact hdims
  | [n] =>
    by_cases hv : a.dims.isVector = true
    · rw [growthForm_of_isVector hv, growthForm_of_isVector (hdims ▸ hv), hdims]
    · rw [growthForm_of_not_isVector hv, growthForm_of_not_isVector (hdims ▸ hv), hsize]

theorem Twin.grownDims_eq (h : a.Twin b) (coords : List Nat) :
    a.grownDims coords = b.grownDims coords := by
  match coords with
  | [] => exact congrArg (Shape.grownTo · []) h.dims_eq
  | [n] => exact congrArg (Shape.grownToCount · n) (h.dims_growthForm_eq [n])
  | m :: n :: rest => exact congrArg (Shape.grownTo · (m :: n :: rest)) h.dims_eq

theorem Twin.growthForm (h : a.Twin b) (coords : List Nat) :
    (a.growthForm coords).Twin (b.growthForm coords) := by
  have hleft := h.left.growthForm coords
  have hright := h.right.growthForm coords
  refine ⟨hleft, hright, trim_eq_of_cartesian hleft hright (h.dims_growthForm_eq coords) ?_ ?_ ?_⟩
  · rw [kind_growthForm, kind_growthForm, h.kind_eq]
  · rw [isComplex_growthForm, isComplex_growthForm, h.isComplex_eq]
  · intro p _
    rw [cartesian_growthForm, cartesian_growthForm, h.cartesian_eq]

theorem Twin.put (h : g.Twin g') (he : e.Proper) (hc : g.dims.Has coords) :
    (g.put coords e).trim = (g'.put coords e).trim := by
  have hpos : g.dims.position coords < g.size := by
    rw [h.left.size_eq_prod]
    exact Shape.position_lt hc
  have hpos' : g'.dims.position coords < g'.size := by rwa [← h.dims_eq, ← h.size_eq]
  have hput : (g.put coords e).kind = (g'.put coords e).kind := by
    rw [kind_put h.left he, kind_put h.right he, h.kind_eq]
  refine trim_eq_of_cartesian (h.left.put hpos e) (h.right.put hpos' e) ?_ hput ?_ ?_
  · rw [dims_put, dims_put, h.dims_eq]
  · rw [isComplex_put, isComplex_put, h.isComplex_eq]
  · intro p _
    rw [cartesian_put h.left he hpos, cartesian_put h.right he hpos', hput, h.kind_eq, ← h.dims_eq,
      h.cartesian_eq]

/-- Growing for coordinates past the end fails only for want of memory. -/
theorem growFor_error (ha : a.WellFormed) (hpos : ∀ axis, 1 ≤ coords.getD axis 1)
    (hn : ¬ a.dims.Has coords) {f : Fault} (h : a.growFor coords = .error f) :
    f = .outOfMemory (a.grownDims coords) := by
  have hout := growFor_outcome ha hpos hn
  split at hout
  · rw [h] at hout
    exact Except.error.inj hout
  · obtain ⟨x, hx⟩ := hout
    rw [h] at hx
    cases hx

theorem Twin.write (h : a.Twin b) (he : e.Proper) (hma : ¬ OutOfMemory (a.write coords e))
    (hmb : ¬ OutOfMemory (b.write coords e)) :
    (a.write coords e).map trim = (b.write coords e).map trim := by
  have ha := h.left
  have hb := h.right
  cases h0 : coords.findIdx? (· == 0) with
  | some axis => rw [write_of_zero h0, write_of_zero h0]
  | none =>
    have hpos := Shape.findIdx?_zero_eq_none_iff.mp h0
    by_cases hn : a.dims.Has coords
    · have hn' : b.dims.Has coords := h.dims_eq ▸ hn
      rw [write_of_has ha hn, write_of_has hb hn']
      exact congrArg Except.ok (h.put he hn)
    · have hn' : ¬ b.dims.Has coords := h.dims_eq ▸ hn
      rw [write_of_not_has ha hpos hn] at hma ⊢
      rw [write_of_not_has hb hpos hn'] at hmb ⊢
      cases hx : a.growFor coords with
      | error f =>
        rw [hx, growFor_error ha hpos hn hx] at hma
        exact absurd ⟨_, rfl⟩ hma
      | ok x =>
        cases hy : b.growFor coords with
        | error f =>
          rw [hy, growFor_error hb hpos hn' hy] at hmb
          exact absurd ⟨_, rfl⟩ hmb
        | ok y =>
          have hroom : Room a coords x := .grown x hn hpos hx
          have hroom' : Room b coords y := .grown y hn' hpos hy
          obtain ⟨count, hc, hgx⟩ := grown_of_growFor ha hx
          obtain ⟨count', hc', hgy⟩ := grown_of_growFor hb hy
          rw [← h.grownDims_eq] at hc' hgy
          rw [hc] at hc'
          cases hc'
          have hxy : x.Twin y := (h.growthForm coords).grown hc hgx hgy (hroom.wellFormed ha)
            (hroom'.wellFormed hb)
          exact congrArg Except.ok (hxy.put he (hroom.has ha))

end NDArray

/-! ### Values -/

namespace Value

variable {v w : Value}

theorem dims_toArray (v : Value) : v.toArray.dims = v.dims := by
  cases v with
  | number x => cases x <;> rfl
  | array a => rfl

theorem size_toArray (v : Value) : v.toArray.size = v.size := by
  cases v with
  | number x => cases x <;> rfl
  | array a => rfl

theorem kind_toArray (v : Value) : v.toArray.kind = v.kind := by
  cases v with
  | number x => cases x <;> rfl
  | array a => rfl

theorem isComplex_toArray (v : Value) : v.toArray.isComplex = v.isComplex := by
  cases v with
  | number x => cases x <;> rfl
  | array a => rfl

theorem toArray_trim (v : Value) : v.trim.toArray = v.toArray.trim := by
  cases v with
  | number x => cases x <;> rfl
  | array a => rfl

theorem isComplex_trim : v.trim.isComplex = v.isComplex := by
  cases v with
  | number x => rfl
  | array a => exact NDArray.isComplex_trim

theorem kind_trim : v.trim.kind = v.kind := by
  cases v with
  | number x => rfl
  | array a => rfl

theorem size_trim : v.trim.size = v.size := by
  cases v with
  | number x => rfl
  | array a => rfl

theorem dims_trim : v.trim.dims = v.dims := by
  cases v with
  | number x => rfl
  | array a => rfl

theorem scalar?_trim (hv : v.WellFormed) : v.trim.scalar? = v.scalar? := by
  cases v with
  | number x => rfl
  | array a =>
    show (if a.trim.isScalar = true then some (a.trim.cartesian 0) else none) = _
    rw [NDArray.cartesian_trim hv]
    rfl

theorem asEntry_trim (hv : v.WellFormed) : v.trim.asEntry = v.asEntry := by
  unfold asEntry
  rw [scalar?_trim hv, kind_trim, isComplex_trim]

theorem toIndex_trim (hv : v.WellFormed) : v.trim.toIndex = v.toIndex := by
  unfold toIndex
  rw [scalar?_trim hv]

theorem get_trim (hv : v.WellFormed) (coords : List Nat) : v.trim.get coords = v.get coords := by
  cases v with
  | number x => rfl
  | array a => exact congrArg (Except.map number) (NDArray.get_trim hv coords)

theorem text_trim (hv : v.WellFormed) : v.trim.text = v.text := by
  cases v with
  | number x => rfl
  | array a => exact NDArray.text_trim hv

theorem equal_trim (hv : v.WellFormed) (hw : w.WellFormed) : v.trim.equal w.trim = v.equal w := by
  cases v with
  | number x => cases w <;> rfl
  | array a =>
    cases w with
    | number y => rfl
    | array b => exact NDArray.equal_trim hv hw

/-! ### Twins -/

structure Twin (v w : Value) : Prop where
  left : v.WellFormed
  right : w.WellFormed
  trim_eq : v.trim = w.trim

/-- Twins are the same number, or arrays that are twins. -/
theorem Twin.cases (h : v.Twin w) :
    (∃ x, v = number x ∧ w = number x) ∨ ∃ a b, v = array a ∧ w = array b ∧ a.Twin b := by
  obtain ⟨hv, hw, h⟩ := h
  cases v with
  | number x =>
    cases w with
    | number y =>
      have hxy : x = y := number.inj h
      exact .inl ⟨x, rfl, by rw [hxy]⟩
    | array b => cases h
  | array a =>
    cases w with
    | number y => cases h
    | array b => exact .inr ⟨a, b, rfl, rfl, hv, hw, array.inj h⟩

theorem Twin.toArray (h : v.Twin w) : v.toArray.Twin w.toArray :=
  ⟨h.left.toArray, h.right.toArray, by rw [← toArray_trim, h.trim_eq, toArray_trim]⟩

theorem Twin.dims_eq (h : v.Twin w) : v.dims = w.dims := by
  rw [← dims_trim, h.trim_eq, dims_trim]

theorem Twin.kind_eq (h : v.Twin w) : v.kind = w.kind := by
  rw [← kind_trim, h.trim_eq, kind_trim]

theorem Twin.isComplex_eq (h : v.Twin w) : v.isComplex = w.isComplex := by
  rw [← isComplex_trim, h.trim_eq, isComplex_trim]

theorem Twin.isScalar_eq (h : v.Twin w) : v.isScalar = w.isScalar := by
  unfold isScalar
  rw [← size_trim, h.trim_eq, size_trim]

theorem Twin.asEntry_eq (h : v.Twin w) : v.asEntry = w.asEntry := by
  rw [← asEntry_trim h.left, h.trim_eq, asEntry_trim h.right]

theorem Twin.toIndex_eq (h : v.Twin w) : v.toIndex = w.toIndex := by
  rw [← toIndex_trim h.left, h.trim_eq, toIndex_trim h.right]

theorem Twin.get_eq (h : v.Twin w) (coords : List Nat) : v.get coords = w.get coords := by
  rw [← get_trim h.left, h.trim_eq, get_trim h.right]

theorem Twin.text_eq (h : v.Twin w) : v.text = w.text := by
  rw [← text_trim h.left, h.trim_eq, text_trim h.right]

theorem Twin.equal_eq {v' w' : Value} (hv : v.Twin v') (hw : w.Twin w') :
    v.equal w = v'.equal w' := by
  rw [← equal_trim hv.left hw.left, hv.trim_eq, hw.trim_eq, equal_trim hv.right hw.right]

theorem map_array_trim (r : Except Fault NDArray) :
    (r.map array).map trim = (r.map NDArray.trim).map array := by
  cases r <;> rfl

end Value

theorem NDArray.Twin.set {a b : NDArray} {coords : List Nat} {v w : Value} (h : a.Twin b)
    (hv : v.Twin w) (hma : ¬ OutOfMemory (a.set coords v)) (hmb : ¬ OutOfMemory (b.set coords w)) :
    (a.set coords v).map trim = (b.set coords w).map trim := by
  unfold NDArray.set at hma hmb ⊢
  rw [← hv.asEntry_eq] at hmb ⊢
  cases he : v.asEntry with
  | none => rfl
  | some e =>
    rw [he] at hma hmb
    exact h.write (Value.asEntry_proper hv.left he) hma hmb

end NumericArrays
