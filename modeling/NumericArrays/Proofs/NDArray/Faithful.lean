import NumericArrays.Proofs.Binary64.Narrow
import NumericArrays.Proofs.Concat.Join
import NumericArrays.Proofs.Elementwise.Operators
import NumericArrays.Proofs.Sheet.Write

/-! No operation puts anything into an array but numbers of its kind. -/
namespace NumericArrays

theorem ofBool_eq (b : Bool) : ofBool b = 0 ∨ ofBool b = 1 := by
  cases b with
  | false => exact .inl rfl
  | true => exact .inr rfl

namespace Storage

theorem store_logical {k : Storage} (hk : k = .logical) (x : Float) :
    k.store x = 0 ∨ k.store x = 1 := by
  subst hk
  change (if _ then _ else _) = _ ∨ (if _ then _ else _) = _
  split
  · exact .inr rfl
  · exact .inl rfl

theorem store_ofBool (k : Storage) (b : Bool) : k.store (ofBool b) = ofBool b := by
  rcases ofBool_eq b with h | h
  · rw [h, store_zero]
  · rw [h, store_one]

/-- Truth values are numbers of every kind, and those of 32-bit precision are double. -/
theorem store_of_width_le {k l : Storage} (h : k.width ≤ l.width) (x : Float) :
    l.store (k.store x) = k.store x := by
  cases k with
  | logical =>
    rcases store_logical rfl x with hx | hx
    · rw [hx, store_zero]
    · rw [hx, store_one]
  | single =>
    cases l with
    | logical => exact absurd h (by decide)
    | single => exact Binary64.narrow_narrow x
    | double => rfl
  | double =>
    cases l with
    | logical => exact absurd h (by decide)
    | single => exact absurd h (by decide)
    | double => rfl

theorem store_store (k : Storage) (x : Float) : k.store (k.store x) = k.store x :=
  store_of_width_le le_rfl x

theorem store_neg {k : Storage} (hk : k ≠ .logical) (x : Float) : k.store (-x) = -k.store x := by
  cases k with
  | logical => contradiction
  | single => exact Binary64.narrow_neg x
  | double => rfl

end Storage

namespace NDArray

variable {a b g : NDArray} {coords : List Nat} {dims : Shape} {count n : Nat} {kind : Storage}
  {real : Array Float} {imag : Option (Array Float)} {e : Entry} {z : Cartesian Float}

/-- Every element is a number of the array's kind. -/
def Faithful (a : NDArray) : Prop := ∀ p, stored a.kind (a.cartesian p) = a.cartesian p

theorem stored_zero (k : Storage) : stored k ⟨0, 0⟩ = ⟨0, 0⟩ := by
  rw [stored, k.store_zero]

theorem stored_stored {k l : Storage} (h : k.width ≤ l.width) (z : Cartesian Float) :
    stored l (stored k z) = stored k z :=
  Cartesian.ext (Storage.store_of_width_le h z.re) (Storage.store_of_width_le h z.im)

/-- Numbers of a kind are numbers of every wider kind. -/
theorem stored_of_width_le {k l : Storage} (h : k.width ≤ l.width) (hz : stored k z = z) :
    stored l z = z := by
  rw [← hz, stored_stored h]

/-! ### Arrays -/

namespace Faithful

theorem re (h : a.Faithful) (p : Nat) : a.kind.store (a.re p) = a.re p := congrArg Cartesian.re (h p)

theorem im (h : a.Faithful) (p : Nat) : a.kind.store (a.im p) = a.im p := congrArg Cartesian.im (h p)

/-- Numbers of the kind logical are truth values. -/
theorem truthful (h : a.Faithful) : a.Truthful := by
  intro hk p
  rw [← h.re p]
  exact Storage.store_logical hk _

end Faithful

theorem faithful_of_double (h : a.kind = .double) : a.Faithful := by
  intro p
  rw [h]
  rfl

theorem faithful_of_mem (hr : ∀ x ∈ real, kind.store x = x)
    (hi : ∀ im, imag = some im → ∀ x ∈ im, kind.store x = x) :
    Faithful ⟨dims, real, imag, kind⟩ := by
  have hbuffer : ∀ buffer : Array Float, (∀ x ∈ buffer, kind.store x = x) → ∀ p,
      kind.store (buffer.getD p 0) = buffer.getD p 0 := by
    intro buffer h p
    by_cases hp : p < buffer.size
    · rw [getD_of_lt hp]
      exact h _ (Array.getElem_mem hp)
    · rw [getD_of_size_le (by omega), kind.store_zero]
  intro p
  refine Cartesian.ext (hbuffer real hr p) ?_
  cases imag with
  | none => exact kind.store_zero
  | some im => exact hbuffer im (hi im rfl) p

theorem faithful_of_real (hr : ∀ x ∈ real, kind.store x = x) : Faithful ⟨dims, real, none, kind⟩ :=
  faithful_of_mem hr fun _ h => by cases h

theorem faithful_ofFn (f : Nat → Bool) :
    Faithful ⟨dims, .ofFn fun i : Fin n => ofBool (f i), none, kind⟩ := by
  apply faithful_of_real
  intro x hx
  obtain ⟨i, rfl⟩ := Array.mem_ofFn.mp hx
  exact kind.store_ofBool (f i)

/-- An array whose elements are zeros and elements of another one. -/
theorem Faithful.of_cells (ha : a.Faithful) (hk : b.kind = a.kind)
    (h : ∀ p, b.cartesian p = ⟨0, 0⟩ ∨ ∃ q, b.cartesian p = a.cartesian q) : b.Faithful := by
  intro p
  rw [hk]
  rcases h p with hz | ⟨q, hq⟩
  · rw [hz, stored_zero]
  · rw [hq]
    exact ha q

theorem ofReals?_kind (h : ofReals? dims real kind = some a) : a.kind = kind := by
  unfold ofReals? at h
  dsimp only at h
  split at h
  · cases h
    rfl
  · cases h

theorem ofParts?_kind {imag : Array Float} (h : ofParts? dims real imag = some a) :
    a.kind = .double := by
  simp only [ofParts?, bind, Option.bind_eq_some_iff] at h
  obtain ⟨r, hr, h⟩ := h
  split at h
  · cases h
    exact ofReals?_kind (a := r) hr
  · cases h

theorem ofFn?_kind {f : Nat → Float} (h : ofFn? dims f = some a) : a.kind = .double := by
  simp only [ofFn?, bind, Option.bind_eq_some_iff] at h
  obtain ⟨count, -, h⟩ := h
  split at h
  · cases h
    rfl
  · cases h

theorem zeros?_faithful (h : zeros? dims kind = some a) : a.Faithful := by
  simp only [zeros?, bind, Option.bind_eq_some_iff] at h
  obtain ⟨count, -, h⟩ := h
  split at h
  · cases h
    apply faithful_of_real
    intro x hx
    rw [Array.eq_of_mem_replicate hx, kind.store_zero]
  · cases h

theorem ofBools?_faithful {bs : Array Bool} (h : ofBools? dims bs = some a) : a.Faithful := by
  unfold ofBools? ofReals? at h
  dsimp only at h
  split at h
  · cases h
    apply faithful_of_real
    intro x hx
    obtain ⟨b, -, rfl⟩ := Array.mem_map.mp hx
    exact Storage.store_ofBool _ b
  · cases h

theorem ofNumber_faithful (x : Number) : (ofNumber x).Faithful := by
  cases x with
  | real x => exact faithful_of_double rfl
  | complex z => exact faithful_of_double rfl
  | logical b =>
    apply faithful_of_real
    intro x hx
    rw [Array.mem_singleton.mp hx]
    exact Storage.store_ofBool _ b

/-! ### Growing and writing -/

theorem Grown.faithful (h : Grown a dims count b) (ha : a.WellFormed) (hb : b.WellFormed)
    (hc : dims.count? = some count) (hf : a.Faithful) : b.Faithful := by
  refine hf.of_cells h.kind_eq fun p => ?_
  by_cases hp : p < b.size
  · rw [hb.size_eq_prod, h.dims_eq] at hp
    have hcell := h.cartesian_offset ha hc (Shape.covers_coordsOf hp)
    rw [Shape.offset_coordsOf hp] at hcell
    rw [hcell]
    split
    · exact .inr ⟨_, rfl⟩
    · exact .inl rfl
  · exact .inl (hb.cartesian_of_size_le (by omega))

theorem resize_faithful (ha : a.WellFormed) (hd : ∀ d ∈ dims, d ≤ maxCount) (hf : a.Faithful)
    (h : a.resize dims = .ok b) : b.Faithful := by
  obtain ⟨count, hc, hgrown⟩ := grown_of_resize h
  exact hgrown.faithful ha (resize_wellFormed ha hd h) hc hf

theorem Room.faithful (h : Room a coords g) (ha : a.WellFormed) (hf : a.Faithful) : g.Faithful :=
  hf.of_cells (h.kind_eq ha) (h.cartesian_cases ha)

theorem Faithful.put (hf : g.Faithful) (hg : g.WellFormed) (he : e.Proper)
    (h : g.dims.position coords < g.size) : (g.put coords e).Faithful := by
  intro p
  rw [cartesian_put hg he h]
  by_cases hp : p = g.dims.position coords
  · rw [if_pos hp, stored_stored le_rfl]
  · rw [if_neg hp, kind_put hg he]
    by_cases hchange : g.kind = .logical ∧ e.kind ≠ .logical
    · -- the array was logical and took on the kind of the element
      rw [if_pos hchange, if_pos hchange.1, stored_stored le_rfl]
    · rw [if_neg hchange]
      by_cases hk : g.kind = .logical
      · have hl : e.kind = .logical := by
          by_contra hne
          exact hchange ⟨hk, hne⟩
        rw [if_pos hk, hl, ← hk]
        exact hf p
      · rw [if_neg hk]
        exact hf p

theorem set_faithful {v : Value} (ha : a.WellFormed) (hv : v.WellFormed) (hf : a.Faithful)
    (h : a.set coords v = .ok b) : b.Faithful := by
  obtain ⟨e, he, hwrite⟩ := write_of_set h
  obtain ⟨g, hg, rfl⟩ := (write_ok_iff ha).mp hwrite
  have hproper := Value.asEntry_proper hv he
  exact (hg.faithful ha hf).put (hg.wellFormed ha) hproper (hg.position_lt ha)

/-! ### Changes of kind, form and sign -/

theorem Faithful.promote (hf : a.Faithful) : a.promote.Faithful := by
  intro p
  rw [cartesian_promote]
  unfold NDArray.promote
  split
  · exact hf p
  · change stored (if a.kind = .logical then Storage.double else a.kind) _ = _
    split
    · rfl
    · exact hf p

theorem Faithful.withoutImag (hf : a.Faithful) : Faithful { a with imag := none } := fun p =>
  Cartesian.ext (hf.re p) a.kind.store_zero

theorem Faithful.demote (hf : a.Faithful) : a.demote.Faithful := by
  unfold NDArray.demote
  split
  · exact hf.withoutImag
  · exact hf

theorem cartesian_retag (k : Storage) (p : Nat) : (a.retag k).cartesian p = stored k (a.cartesian p) :=
  Cartesian.ext (re_retag k) (im_retag k)

theorem faithful_retag (k : Storage) : (a.retag k).Faithful := by
  intro p
  rw [cartesian_retag, kind_retag, stored_stored le_rfl]

/-- Numbers of a kind are not changed by conversion to it. -/
theorem Faithful.retag_eq (hf : a.Faithful) : a.retag a.kind = a := by
  have hbuffer (buffer : Array Float) (h : ∀ p, a.kind.store (buffer.getD p 0) = buffer.getD p 0) :
      buffer.map a.kind.store = buffer := by
    apply buffer_ext (Array.size_map ..)
    intro p
    rw [getD_map a.kind.store_zero, h p]
  have himag : a.imag.map (·.map a.kind.store) = a.imag := by
    cases hi : a.imag with
    | none => rfl
    | some im =>
      refine congrArg some (hbuffer im fun p => ?_)
      rw [← im_of_complex hi]
      exact hf.im p
  unfold retag
  rw [hbuffer a.real hf.re, himag]

theorem convert_faithful (hf : a.Faithful) (h : a.convert kind = .ok b) : b.Faithful := by
  unfold convert at h
  split at h
  · cases h
    exact hf
  · split at h
    · split at h
      · cases h
      · split at h
        · cases h
        · cases h
          exact (faithful_retag (a := a) .logical).withoutImag
    · cases h
      exact faithful_retag kind

theorem exists_re_of_mem_reals {x : Float} (h : x ∈ a.reals) : ∃ p, x = a.re p := by
  obtain ⟨p, hp, rfl⟩ := Array.mem_iff_getElem.mp h
  refine ⟨p, ?_⟩
  rw [reals, Array.size_extract] at hp
  simp only [reals, Array.getElem_extract, Nat.zero_add, NDArray.re]
  rw [getD_of_lt (by omega)]

theorem exists_im_of_mem_imags {x : Float} {im : Array Float} (hi : a.imags = some im) (h : x ∈ im) :
    ∃ p, x = a.im p := by
  obtain ⟨buffer, hb, rfl⟩ := Option.map_eq_some_iff.mp hi
  obtain ⟨p, hp, rfl⟩ := Array.mem_iff_getElem.mp h
  refine ⟨p, ?_⟩
  rw [Array.size_extract] at hp
  rw [im_of_complex hb]
  simp only [Array.getElem_extract, Nat.zero_add]
  rw [getD_of_lt (by omega)]

theorem store_arithmetic_self (k : Storage) {x : Float} (h : k.store x = x) :
    (k.arithmetic k).store (-x) = -x := by
  cases k with
  | logical => rfl
  | single => exact (Storage.store_neg (by decide) x).trans (congrArg _ h)
  | double => rfl

theorem neg_faithful (hf : a.Faithful) : a.neg.Faithful := by
  apply faithful_of_mem
  · intro x hx
    obtain ⟨y, hy, rfl⟩ := Array.mem_map.mp hx
    obtain ⟨p, rfl⟩ := exists_re_of_mem_reals hy
    exact store_arithmetic_self a.kind (hf.re p)
  · intro im him x hx
    obtain ⟨buffer, hb, rfl⟩ := Option.map_eq_some_iff.mp him
    obtain ⟨y, hy, rfl⟩ := Array.mem_map.mp hx
    obtain ⟨p, rfl⟩ := exists_im_of_mem_imags hb hy
    exact store_arithmetic_self a.kind (hf.im p)

theorem conj_faithful (ha : a.WellFormed) (hf : a.Faithful) : a.conj.Faithful := by
  unfold conj
  split
  · rename_i hc
    have hk : a.kind ≠ .logical := fun hk => isComplex_iff.mp hc (ha.logical_real hk)
    apply faithful_of_mem
    · intro x hx
      obtain ⟨p, rfl⟩ := exists_re_of_mem_reals hx
      exact hf.re p
    · intro im him x hx
      obtain ⟨buffer, hb, rfl⟩ := Option.map_eq_some_iff.mp him
      obtain ⟨y, hy, rfl⟩ := Array.mem_map.mp hx
      obtain ⟨p, rfl⟩ := exists_im_of_mem_imags hb hy
      rw [Storage.store_neg hk, hf.im p]
  · exact hf

end NDArray

/-! ### Joined arrays -/

theorem Concat.mem_interleave {axis pages : Nat} {f : NDArray → Nat → Float} {parts : List NDArray}
    {x : Float} (h : x ∈ interleave axis f parts pages) : ∃ part p, x = f part p := by
  unfold interleave at h
  rw [List.mem_toArray, List.mem_flatMap] at h
  obtain ⟨k, -, h⟩ := h
  obtain ⟨part, -, h⟩ := List.mem_flatMap.mp h
  obtain ⟨i, -, rfl⟩ := List.mem_map.mp h
  exact ⟨part, _, rfl⟩

theorem Concat.join_faithful {axis : Nat} {first c : NDArray} {others : List NDArray}
    (h : join axis first others = .ok c) : c.Faithful := by
  unfold join at h
  dsimp only at h
  split at h
  · cases h
  · split at h
    · cases h
    · cases h
      apply NDArray.faithful_of_mem
      · intro x hx
        obtain ⟨part, p, rfl⟩ := mem_interleave hx
        rw [Storage.store_store]
      · intro im him x hx
        split at him
        · cases him
          obtain ⟨part, p, rfl⟩ := mem_interleave hx
          rw [Storage.store_store]
        · cases him

/-! ### Values -/

namespace Value

variable {v w r : Value}

def Faithful : Value → Prop
  | number _ => True
  | array a => a.Faithful

theorem Faithful.toArray (hv : v.Faithful) : v.toArray.Faithful := by
  cases v with
  | number x => exact NDArray.ofNumber_faithful x
  | array a => exact hv

theorem concat_faithful {axis : Nat} {values : List Value} {c : NDArray}
    (hv : ∀ v ∈ values, v.Faithful) (h : concat axis values = .ok c) : c.Faithful := by
  have hparts : ∀ a ∈ (values.filter (!·.isEmpty)).map Value.toArray, a.Faithful := by
    intro a ha
    obtain ⟨v, hmem, rfl⟩ := List.mem_map.mp ha
    exact (hv v (List.mem_filter.mp hmem).1).toArray
  unfold concat at h
  split at h
  · split at h
    · cases h
      exact NDArray.faithful_of_double rfl
    · cases h
      exact (hv _ List.mem_cons_self).toArray
  · rename_i a heq
    cases h
    exact hparts _ (by rw [heq]; exact List.mem_cons_self)
  · exact Concat.join_faithful h

theorem logicalResult_faithful {a b : NDArray} {dims : Shape} (f : Nat → Bool) :
    (Elementwise.logicalResult a b dims f).Faithful := by
  unfold Elementwise.logicalResult
  split
  · trivial
  · exact NDArray.faithful_ofFn f

theorem arithmetic_faithful {op : Arithmetic} (h : op.apply v w = .ok r) : r.Faithful := by
  unfold Arithmetic.apply at h
  split at h
  · cases h
    trivial
  · rcases Arithmetic.onArrays_ok h with ⟨x, rfl⟩ | ⟨dims, -, rfl | rfl⟩
    · trivial
    · apply NDArray.faithful_of_real
      intro x hx
      obtain ⟨i, rfl⟩ := Array.mem_ofFn.mp hx
      exact Storage.store_store _ _
    · apply NDArray.faithful_of_mem
      · intro x hx
        obtain ⟨z, hz, rfl⟩ := Array.mem_map.mp hx
        obtain ⟨i, rfl⟩ := Array.mem_ofFn.mp hz
        exact Storage.store_store _ _
      · intro im him x hx
        cases him
        obtain ⟨z, hz, rfl⟩ := Array.mem_map.mp hx
        obtain ⟨i, rfl⟩ := Array.mem_ofFn.mp hz
        exact Storage.store_store _ _

theorem comparison_faithful {op : Comparison} (h : op.apply v w = .ok r) : r.Faithful := by
  obtain ⟨dims, f, -, rfl⟩ := Comparison.apply_ok h
  exact logicalResult_faithful f

theorem connective_faithful {op : Connective} (h : op.apply v w = .ok r) : r.Faithful := by
  obtain ⟨dims, f, -, rfl⟩ := Connective.apply_ok h
  exact logicalResult_faithful f

theorem not_faithful (h : v.not = .ok r) : r.Faithful := by
  rcases not_ok h with ⟨x, rfl⟩ | ⟨a, rfl, rfl⟩
  · trivial
  · exact NDArray.faithful_ofFn fun i => !a.truth i

theorem neg_faithful (hf : v.Faithful) : v.neg.Faithful := by
  cases v with
  | number x => trivial
  | array a => exact NDArray.neg_faithful hf

theorem conj_faithful (hv : v.WellFormed) (hf : v.Faithful) : v.conj.Faithful := by
  cases v with
  | number x => trivial
  | array a => exact NDArray.conj_faithful hv hf

theorem demote_faithful (hf : v.Faithful) : v.demote.Faithful := by
  cases v with
  | number x => trivial
  | array a =>
    show Value.Faithful (if _ then _ else _)
    split
    · trivial
    · exact NDArray.Faithful.demote hf

end Value

end NumericArrays
