import NumericArrays.Proofs.Sheet.Basic

/-! Writing to an array is writing to its sheet, for one write and for any sequence of writes. -/
namespace NumericArrays.NDArray

variable {a b g : NDArray} {c coords : List Nat} {e : Entry} {p : Nat}

/-! ### Making room -/

theorem grownDims_eq_afterWrite (ha : a.WellFormed) (h : ¬ a.dims.Has coords) :
    a.grownDims coords = a.dims.afterWrite coords := by
  unfold Shape.afterWrite
  rw [if_neg h]
  match coords with
  | [] | _ :: _ :: _ => rfl
  | [n] =>
    by_cases hv : a.dims.isVector = true
    · rw [grownDims, growthForm_of_isVector hv]
    · rw [grownDims, growthForm_of_not_isVector hv]
      exact Shape.grownToCount_column ha.counted hv

theorem Room.dims_eq_afterWrite (h : Room a coords g) (ha : a.WellFormed) :
    g.dims = a.dims.afterWrite coords := by
  cases h with
  | held h => unfold Shape.afterWrite; rw [if_pos h]
  | grown _ h _ hg =>
    obtain ⟨count, -, hgrown⟩ := grown_of_growFor ha hg
    rw [hgrown.dims_eq, grownDims_eq_afterWrite ha h]

theorem growthForm_of_turnsColumn (h : a.dims.TurnsColumn coords) :
    a.growthForm coords = { a with dims := [a.size, 1] } := by
  obtain ⟨n, rfl⟩ := List.length_eq_one_iff.mp h.1
  exact growthForm_of_not_isVector h.2.2

theorem growthForm_of_not_turnsColumn (hn : ¬ a.dims.Has coords)
    (h : ¬ a.dims.TurnsColumn coords) : a.growthForm coords = a := by
  by_cases hl : coords.length = 1
  · apply growthForm_of_isVector
    by_contra hv
    exact h ⟨hl, hn, hv⟩
  · exact growthForm_of_length_ne_one hl

/-- Column view of the cells of an array. -/
theorem column_eq (ha : a.WellFormed) (c : List Nat) :
    a.sheet.column c =
      if Shape.Holds [a.size, 1] c then a.cartesian (c.getD 0 1 - 1) else ⟨0, 0⟩ := by
  unfold Sheet.column
  have hprod : a.sheet.dims.prod = a.size := ha.size_eq_prod.symm
  rw [hprod]
  split
  · rename_i hc
    apply cell_placeOf
    have h0 := hc 0
    have hfirst : Shape.extent [a.size, 1] 0 = a.size := rfl
    rw [hfirst] at h0
    rw [← ha.size_eq_prod]
    omega
  · rfl

/-- Making room keeps every number at its address, or at its place in storage where the array turns
    into a column, and adds nothing but zeros. -/
theorem Room.cell_eq (h : Room a coords g) (ha : a.WellFormed) (c : List Nat) :
    g.sheet.cell c =
      if a.dims.TurnsColumn coords then a.sheet.column c else a.sheet.cell c := by
  cases h with
  | held h => rw [if_neg fun ht => ht.2.1 h]
  | grown _ hn hpos hg =>
    obtain ⟨count, hc, hgrown⟩ := grown_of_growFor ha hg
    have hform := ha.growthForm coords
    -- the cell in terms of the form in which the array grows
    have hcell : g.sheet.cell c =
        if (a.growthForm coords).dims.Holds c then
          a.cartesian ((a.growthForm coords).dims.offset (c.map (· - 1)))
        else ⟨0, 0⟩ := by
      by_cases hg' : (a.grownDims coords).Holds c
      · have hoff := hgrown.cartesian_offset hform hc hg'.covers
        rw [cell_of_holds (by rwa [hgrown.dims_eq]), hgrown.dims_eq, hoff]
        simp only [cartesian_growthForm, Shape.holds_iff_covers,
          (Shape.holds_iff_covers.mp hg').1, implies_true, true_and]
      · rw [cell_of_not_holds (by rwa [hgrown.dims_eq]), if_neg]
        intro hold
        apply hg'
        have h0 : a.size ≠ 0 := by
          rw [← size_growthForm ha coords, hform.size_eq_prod]
          exact hold.prod_pos.ne'
        exact hold.mono (extent_le_grownDims ha h0 hpos hn)
    rw [hcell]
    by_cases ht : a.dims.TurnsColumn coords
    · rw [if_pos ht, column_eq ha, growthForm_of_turnsColumn ht]
      split
      · rename_i hold
        rw [Shape.offset_column hold]
      · rfl
    · rw [if_neg ht, growthForm_of_not_turnsColumn hn ht]
      rfl

/-- All numbers of the array with room come from the array. -/
theorem Room.cartesian_cases (h : Room a coords g) (ha : a.WellFormed) (p : Nat) :
    g.cartesian p = ⟨0, 0⟩ ∨ ∃ q, g.cartesian p = a.cartesian q := by
  by_cases hp : p < g.dims.prod
  · rw [← cell_placeOf hp, h.cell_eq ha]
    split
    · rw [column_eq ha]
      split
      · exact .inr ⟨_, rfl⟩
      · exact .inl rfl
    · by_cases hc : a.dims.Holds (g.dims.placeOf p)
      · exact .inr ⟨_, cell_of_holds hc⟩
      · exact .inl (cell_of_not_holds hc)
  · rw [← (h.wellFormed ha).size_eq_prod] at hp
    exact .inl ((h.wellFormed ha).cartesian_of_size_le (by omega))

theorem Room.truthful (h : Room a coords g) (ha : a.WellFormed) (ht : a.Truthful) :
    g.Truthful := by
  intro hk p
  rw [h.kind_eq ha] at hk
  rcases h.cartesian_cases ha p with hz | ⟨q, hq⟩
  · exact .inl (congrArg Cartesian.re hz)
  · have hre : g.re p = a.re q := congrArg Cartesian.re hq
    rw [hre]
    exact ht hk q

/-! ### Storing -/

/-- Storing overwrites the cell at the address; it converts the others only if the array was logical
    and is not any more. -/
theorem cell_put (hg : g.WellFormed) (he : e.Proper) (h : g.dims.Has coords) (c : List Nat) :
    (g.put coords e).sheet.cell c =
      if Shape.same c (g.dims.address coords) then stored (g.put coords e).kind e.value
      else if g.kind = .logical ∧ e.kind ≠ .logical then stored e.kind (g.sheet.cell c)
      else g.sheet.cell c := by
  have hpos : g.dims.position coords < g.size := by
    rw [hg.size_eq_prod]
    exact Shape.position_lt h
  by_cases hc : g.dims.Holds c
  · rw [cell_of_holds (by rwa [dims_put]), dims_put, cartesian_put hg he hpos, cell_of_holds hc,
      Shape.position_eq_offset h]
    simp only [Shape.offset_eq_iff hc h.holds_address]
  · have hne : ¬ Shape.same c (g.dims.address coords) = true := by
      intro hs
      exact hc ((Shape.Holds.congr hs).mpr h.holds_address)
    have hzero : stored e.kind ⟨0, 0⟩ = ⟨0, 0⟩ := stored_truth _ (.inl rfl) rfl
    rw [cell_of_not_holds (by rwa [dims_put]), if_neg hne, cell_of_not_holds hc, hzero, ite_self]

/-- The other cells of a truthful array keep their numbers. -/
theorem cell_put_of_truthful (hg : g.WellFormed) (he : e.Proper) (h : g.dims.Has coords)
    (ht : g.Truthful) (c : List Nat) :
    (g.put coords e).sheet.cell c =
      if Shape.same c (g.dims.address coords) then stored (g.put coords e).kind e.value
      else g.sheet.cell c := by
  rw [cell_put hg he h]
  by_cases hk : g.kind = .logical ∧ e.kind ≠ .logical
  · rw [if_pos hk]
    by_cases hc : g.dims.Holds c
    · rw [cell_of_holds hc, ht.stored_cartesian hg hk.1]
    · have hzero : stored e.kind ⟨0, 0⟩ = ⟨0, 0⟩ := stored_truth _ (.inl rfl) rfl
      rw [cell_of_not_holds hc, hzero]
  · rw [if_neg hk]

theorem Truthful.put (ht : g.Truthful) (hg : g.WellFormed) (he : e.Proper)
    (h : g.dims.position coords < g.size) : (g.put coords e).Truthful := by
  intro hk p
  have hkind := hk
  rw [kind_put hg he] at hkind
  have hcell := congrArg Cartesian.re (cartesian_put hg he h (p := p))
  change (g.put coords e).re p = _ at hcell
  rw [hcell]
  split at hkind
  · rename_i hl
    split
    · rw [hk]
      change (if _ then _ else _) = _ ∨ (if _ then _ else _) = _
      split
      · exact .inr rfl
      · exact .inl rfl
    · rw [if_neg fun hn => hn.2 hkind]
      exact ht hl p
  · contradiction

/-! ### Writing -/

/-- Writing to a truthful array is writing to its sheet. -/
theorem sheet_write (ha : a.WellFormed) (ht : a.Truthful) (he : e.Proper)
    (h : a.write coords e = .ok b) : b.sheet = a.sheet.write coords e := by
  obtain ⟨g, hroom, rfl⟩ := (write_ok_iff ha).mp h
  have hg := hroom.wellFormed ha
  have hdims := hroom.dims_eq_afterWrite ha
  have hkind : (g.put coords e).kind = if a.kind = .logical then e.kind else a.kind := by
    rw [kind_put hg he, hroom.kind_eq ha]
  apply Sheet.ext
  · show (g.put coords e).dims = a.dims.afterWrite coords
    rw [dims_put, hdims]
  · exact hkind
  · change (g.put coords e).isComplex = (a.isComplex || e.isComplex)
    rw [isComplex_put, hroom.isComplex_eq ha]
  · funext c
    rw [cell_put_of_truthful hg he (hroom.has ha) (hroom.truthful ha ht), hroom.cell_eq ha, hkind,
      hdims]
    simp only [Sheet.write, ite_apply]
    rfl

theorem truthful_write (ha : a.WellFormed) (ht : a.Truthful) (he : e.Proper)
    (h : a.write coords e = .ok b) : b.Truthful := by
  obtain ⟨g, hroom, rfl⟩ := (write_ok_iff ha).mp h
  exact (hroom.truthful ha ht).put (hroom.wellFormed ha) he (hroom.position_lt ha)

theorem set_truthful {v : Value} (ha : a.WellFormed) (hv : v.WellFormed) (ht : a.Truthful)
    (h : a.set coords v = .ok b) : b.Truthful := by
  obtain ⟨e, hentry, hwrite⟩ := write_of_set h
  exact truthful_write ha ht (Value.asEntry_proper hv hentry) hwrite

end NumericArrays.NDArray
