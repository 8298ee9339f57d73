import NumericArrays.Proofs.NDArray.Growth
import NumericArrays.Value

/-! Writing one element: the array that has room for it, what it becomes, and what it then holds. -/
namespace NumericArrays

/-- An element as values have them: a truth value is real, and a real number has no imaginary part. -/
structure Entry.Proper (e : Entry) : Prop where
  logical_real : e.kind = .logical → e.isComplex = false
  real_im : e.isComplex = false → e.value.im = 0

def Value.WellFormed : Value → Prop
  | number _ => True
  | array a => a.WellFormed

theorem Value.WellFormed.toArray {v : Value} (h : v.WellFormed) : v.toArray.WellFormed := by
  cases v with
  | number x => exact NDArray.wellFormed_ofNumber x
  | array a => exact h

theorem Value.asEntry_eq_none_iff {v : Value} : v.asEntry = none ↔ v.size ≠ 1 := by
  cases v with
  | number x => simp [asEntry, scalar?, size]
  | array a => simp [asEntry, scalar?, size, NDArray.isScalar]

theorem Value.asEntry_proper {v : Value} {e : Entry} (h : v.WellFormed) (he : v.asEntry = some e) :
    e.Proper := by
  cases v with
  | number x =>
    have hx : e = ⟨x.kind, x.isComplex, x.toCartesian⟩ := by
      simpa [asEntry, scalar?, kind, isComplex] using he.symm
    subst hx
    cases x with
    | real x => exact ⟨fun _ => rfl, fun _ => rfl⟩
    | logical b => exact ⟨fun _ => rfl, fun _ => rfl⟩
    | complex z => exact ⟨(by cases ·), (by cases ·)⟩
  | array a =>
    have ha : a.WellFormed := h
    have hx : e = ⟨a.kind, a.isComplex, a.cartesian 0⟩ := by
      simp only [asEntry, scalar?, Option.map_eq_some_iff, ite_eq_iff] at he
      obtain ⟨z, ⟨-, hz⟩ | ⟨-, hz⟩, rfl⟩ := he <;> cases hz
      rfl
    subst hx
    constructor
    · intro hk
      have := ha.logical_real hk
      simp [NDArray.isComplex, this]
    · intro hc
      apply NDArray.im_of_real
      simpa [NDArray.isComplex] using hc

namespace NDArray

variable {a b g : NDArray} {coords : List Nat} {e : Entry} {p : Nat}

/-! ### Taking on what an element needs -/

theorem dims_accommodate : (a.accommodate e).dims = a.dims := by
  unfold accommodate
  split <;> split <;> simp

theorem size_accommodate : (a.accommodate e).size = a.size := by
  rw [size, size, dims_accommodate]

theorem capacity_accommodate : (a.accommodate e).capacity = a.capacity := by
  unfold accommodate
  split <;> split <;> simp

theorem isComplex_accommodate :
    (a.accommodate e).isComplex = (a.isComplex || e.isComplex) := by
  unfold accommodate
  split <;> split <;> simp_all [isComplex_promote]

/-- Only a logical array changes its kind. -/
theorem kind_accommodate (ha : a.WellFormed) (he : e.Proper) :
    (a.accommodate e).kind = if a.kind = .logical then e.kind else a.kind := by
  unfold accommodate
  by_cases hk : a.kind = .logical
  · by_cases hl : e.kind = .logical
    · simp [hk, hl, he.logical_real hl]
    · cases e.isComplex with
      | false => simp [hk, hl]
      | true =>
        have hkind := kind_promote (a := a.retag e.kind) fun h => absurd h hl
        simp only [hk, hl, ne_eq, not_false_eq_true, and_self, if_true, hkind, kind_retag, if_false]
  · cases e.isComplex with
    | false => simp [hk]
    | true =>
      have hkind := kind_promote ha.logical_real
      simp only [hk, false_and, if_false, if_true, hkind]

theorem cartesian_accommodate :
    (a.accommodate e).cartesian p =
      if a.kind = .logical ∧ e.kind ≠ .logical then stored e.kind (a.cartesian p)
      else a.cartesian p := by
  unfold accommodate
  split <;> split <;> simp only [cartesian_promote] <;>
    exact Cartesian.ext (re_retag e.kind) (im_retag e.kind)

theorem WellFormed.accommodate (ha : a.WellFormed) (e : Entry) : (a.accommodate e).WellFormed := by
  unfold NDArray.accommodate
  split
  · rename_i h
    have hretag : (a.retag e.kind).WellFormed := ha.retag fun hl => absurd hl h.2
    split
    · exact hretag.promote
    · exact hretag
  · split
    · exact ha.promote
    · exact ha

/-! ### The array that has room -/

/-- Where a write stores: in the array itself if it has the coordinates, else in what it grows to. -/
inductive Room (a : NDArray) (coords : List Nat) : NDArray → Prop where
  | held (h : a.dims.Has coords) : Room a coords a
  | grown (g : NDArray) (h : ¬ a.dims.Has coords) (hpos : ∀ axis, 1 ≤ coords.getD axis 1)
      (hg : a.growFor coords = .ok g) : Room a coords g

theorem one_le_of_has {s : Shape} (h : s.Has coords) (axis : Nat) : 1 ≤ coords.getD axis 1 := by
  by_cases hl : coords.length = 1
  · obtain ⟨k, rfl⟩ := List.length_eq_one_iff.mp hl
    cases axis with
    | zero => exact h.1
    | succ axis => exact le_rfl
  · exact ((Shape.has_of_length_ne_one hl).mp h axis).1

namespace Room

theorem one_le (h : Room a coords g) : ∀ axis, 1 ≤ coords.getD axis 1 := by
  cases h with
  | held h => exact one_le_of_has h
  | grown _ _ hpos _ => exact hpos

theorem kind_eq (h : Room a coords g) (ha : a.WellFormed) : g.kind = a.kind := by
  cases h with
  | held h => rfl
  | grown _ _ _ hg =>
    obtain ⟨count, -, hgrown⟩ := grown_of_growFor ha hg
    rw [hgrown.kind_eq, kind_growthForm]

theorem isComplex_eq (h : Room a coords g) (ha : a.WellFormed) : g.isComplex = a.isComplex := by
  cases h with
  | held h => rfl
  | grown _ _ _ hg =>
    obtain ⟨count, -, hgrown⟩ := grown_of_growFor ha hg
    rw [hgrown.isComplex_eq, isComplex_growthForm]

theorem wellFormed (h : Room a coords g) (ha : a.WellFormed) : g.WellFormed := by
  cases h with
  | held h => exact ha
  | grown _ _ hpos hg =>
    obtain ⟨count, hc, hgrown⟩ := grown_of_growFor ha hg
    refine hgrown.wellFormed (ha.growthForm coords) hc (two_le_length_grownDims ha coords) ?_
    intro d hd
    obtain ⟨axis, -, rfl⟩ := Shape.exists_extent hd
    have hle := Shape.extent_le_prod (grownDims_prod_pos ha hpos) axis
    rw [← Shape.prod_of_count? hc] at hle
    exact hle.trans (Shape.le_of_count? hc)

theorem has (h : Room a coords g) (ha : a.WellFormed) : g.dims.Has coords := by
  cases h with
  | held h => exact h
  | grown _ _ hpos hg =>
    obtain ⟨count, -, hgrown⟩ := grown_of_growFor ha hg
    rw [hgrown.dims_eq]
    exact grownDims_has ha hpos

theorem position_lt (h : Room a coords g) (ha : a.WellFormed) : g.dims.position coords < g.size := by
  rw [(h.wellFormed ha).size_eq_prod]
  exact Shape.position_lt (h.has ha)

end Room

/-! ### Writing -/

def put (g : NDArray) (coords : List Nat) (e : Entry) : NDArray :=
  (g.accommodate e).store (g.dims.position coords) e.value

theorem write_of_zero {axis : Nat} (h : coords.findIdx? (· == 0) = some axis) :
    a.write coords e = .error (.indexBelowOne axis) := by
  rw [write, Shape.locate_of_zero h]
  rfl

theorem write_of_has (ha : a.WellFormed) (h : a.dims.Has coords) :
    a.write coords e = .ok (a.put coords e) := by
  rw [write, Shape.locate_of_has ha.counted h]
  rfl

theorem find_of_has {s : Shape} (hs : s.count? = some s.count) (h : s.Has coords) :
    s.find coords = .ok (s.position coords) := by
  rw [Shape.find, Shape.locate_of_has hs h]
  rfl

/-- A write past the end grows the array; the coordinates are then found. -/
theorem write_of_not_has (ha : a.WellFormed) (hpos : ∀ axis, 1 ≤ coords.getD axis 1)
    (h : ¬ a.dims.Has coords) :
    a.write coords e = (a.growFor coords).map (·.put coords e) := by
  rw [write, Shape.locate_of_not_has ha.counted (Shape.findIdx?_zero_eq_none_iff.mpr hpos) h]
  cases hg : a.growFor coords with
  | error f => rfl
  | ok g =>
    have hroom : Room a coords g := .grown g h hpos hg
    have hfind := find_of_has (hroom.wellFormed ha).counted (hroom.has ha)
    simp only [bind, Except.bind, Except.map, hfind]
    rfl

theorem write_of_refused (ha : a.WellFormed) (hpos : ∀ axis, 1 ≤ coords.getD axis 1)
    (h : ¬ a.dims.Has coords) (hrefused : a.refusesGrowth coords = true) :
    a.write coords e = .error (.outOfMemory (a.grownDims coords)) := by
  have hgrow := growFor_outcome ha hpos h
  rw [if_pos hrefused] at hgrow
  rw [write_of_not_has ha hpos h, hgrow]
  rfl

theorem write_of_granted (ha : a.WellFormed) (hpos : ∀ axis, 1 ≤ coords.getD axis 1)
    (hgranted : a.dims.Has coords ∨ a.refusesGrowth coords = false) :
    ∃ b, a.write coords e = .ok b := by
  by_cases h : a.dims.Has coords
  · exact ⟨_, write_of_has ha h⟩
  · have hroom : ¬ a.refusesGrowth coords = true := by simpa using hgranted.resolve_left h
    have hgrow := growFor_outcome ha hpos h
    rw [if_neg hroom] at hgrow
    obtain ⟨g, hg⟩ := hgrow
    rw [write_of_not_has ha hpos h, hg]
    exact ⟨_, rfl⟩

theorem write_ok_iff (ha : a.WellFormed) :
    a.write coords e = .ok b ↔ ∃ g, Room a coords g ∧ b = g.put coords e := by
  cases h0 : coords.findIdx? (· == 0) with
  | some axis =>
    rw [write_of_zero h0]
    constructor
    · intro h
      cases h
    · rintro ⟨g, hg, -⟩
      rw [Shape.findIdx?_zero_eq_none_iff.mpr hg.one_le] at h0
      cases h0
  | none =>
    have hpos := Shape.findIdx?_zero_eq_none_iff.mp h0
    by_cases h : a.dims.Has coords
    · rw [write_of_has ha h]
      constructor
      · intro hb
        cases hb
        exact ⟨a, .held h, rfl⟩
      · rintro ⟨g, hg, rfl⟩
        cases hg with
        | held => rfl
        | grown _ hn => contradiction
    · rw [write_of_not_has ha hpos h]
      constructor
      · intro hb
        cases hg : a.growFor coords with
        | error f => rw [hg] at hb; cases hb
        | ok g =>
          rw [hg] at hb
          cases hb
          exact ⟨g, .grown g h hpos hg, rfl⟩
      · rintro ⟨g, hg, rfl⟩
        cases hg with
        | held => contradiction
        | grown _ _ _ hg => rw [hg]; rfl

/-! ### After a write -/

theorem WellFormed.put (hg : g.WellFormed) (h : g.dims.position coords < g.size) (e : Entry) :
    (g.put coords e).WellFormed := by
  refine (hg.accommodate e).store ?_ e.value
  rwa [size_accommodate]

theorem dims_put : (g.put coords e).dims = g.dims := by
  rw [put, dims_store, dims_accommodate]

theorem isComplex_put : (g.put coords e).isComplex = (g.isComplex || e.isComplex) := by
  rw [put, isComplex_store, isComplex_accommodate]

theorem kind_put (hg : g.WellFormed) (he : e.Proper) :
    (g.put coords e).kind = if g.kind = .logical then e.kind else g.kind := by
  rw [put, kind_store, kind_accommodate hg he]

/-- The element is in its place, in the kind of the array; all others are what they were, in that kind
    if the array was logical. -/
theorem cartesian_put (hg : g.WellFormed) (he : e.Proper) (h : g.dims.position coords < g.size) :
    (g.put coords e).cartesian p =
      if p = g.dims.position coords then stored (g.put coords e).kind e.value
      else if g.kind = .logical ∧ e.kind ≠ .logical then stored e.kind (g.cartesian p)
      else g.cartesian p := by
  have hreal : (g.accommodate e).isComplex = false → e.value.im = 0 := by
    intro hc
    rw [isComplex_accommodate, Bool.or_eq_false_iff] at hc
    exact he.real_im hc.2
  rw [put, cartesian_store (hg.accommodate e) (by rwa [size_accommodate]) hreal,
    cartesian_accommodate, kind_store]

theorem write_wellFormed (ha : a.WellFormed) (h : a.write coords e = .ok b) : b.WellFormed := by
  obtain ⟨g, hg, rfl⟩ := (write_ok_iff ha).mp h
  exact (hg.wellFormed ha).put (hg.position_lt ha) e

theorem write_of_set {v : Value} (h : a.set coords v = .ok b) :
    ∃ e, v.asEntry = some e ∧ a.write coords e = .ok b := by
  unfold set at h
  split at h
  · cases h
  · exact ⟨_, ‹_›, h⟩

theorem set_wellFormed {v : Value} (ha : a.WellFormed) (h : a.set coords v = .ok b) :
    b.WellFormed := by
  obtain ⟨e, -, hwrite⟩ := write_of_set h
  exact write_wellFormed ha hwrite

end NDArray
end NumericArrays
