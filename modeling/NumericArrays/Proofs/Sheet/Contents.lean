import NumericArrays.Proofs.Sheet.Write

/-! What an array reads after a write, cell by cell, and what its sheet is after any sequence of writes. -/
namespace NumericArrays.NDArray

variable {a b g : NDArray} {c coords : List Nat} {v : Value} {e : Entry} {k n : Nat}

/-! ### Reading after a write -/

theorem get_put_target (hg : g.WellFormed) (he : e.Proper) (h : g.dims.Has coords) :
    (g.put coords e).get coords = .ok (Number.shaped (g.put coords e).kind
      (g.put coords e).isComplex (stored (g.put coords e).kind e.value)) := by
  have hpos : g.dims.position coords < g.size := by
    rw [hg.size_eq_prod]
    exact Shape.position_lt h
  have hb : (g.put coords e).dims.Has coords := by rwa [dims_put]
  rw [get_of_has (hg.put hpos e) hb, number_eq_shaped, dims_put, cartesian_put hg he hpos, if_pos rfl]

/-- Both arrays have an element at the coordinates, and it is the same number in both. -/
def ReadsAlike (a b : NDArray) (c : List Nat) : Prop :=
  ∃ x y, a.get c = .ok x ∧ b.get c = .ok y ∧ y.toCartesian = x.toCartesian

/-- Equal elements read as equal numbers in one kind, and truth values do so in any two. -/
theorem readsAlike_of_cartesian (ha : a.WellFormed) (hb : b.WellFormed)
    (ht : a.Truthful ∨ b.kind = a.kind) (hkept : a.Truthful → b.Truthful) (hca : a.dims.Has c)
    (hcb : b.dims.Has c) (h : b.cartesian (b.dims.position c) = a.cartesian (a.dims.position c)) :
    a.ReadsAlike b c := by
  have hread : a.Truthful → a.ReadsAlike b c := by
    intro hta
    refine ⟨_, _, get_of_has ha hca, get_of_has hb hcb, ?_⟩
    rw [(hkept hta).toCartesian_number hb, hta.toCartesian_number ha, h]
  rcases ht with ht | hkind
  · exact hread ht
  · by_cases hk : a.kind = .logical
    · refine ⟨_, _, get_of_has ha hca, get_of_has hb hcb, ?_⟩
      rw [number_eq_shaped, number_eq_shaped, hkind, hk, h]
      rfl
    · exact hread fun hlogical => absurd hlogical hk

/-! ### Which elements stay -/

theorem Room.holds (h : Room a coords g) (ha : a.WellFormed) (ht : ¬ a.dims.TurnsColumn coords)
    (hc : a.dims.Holds c) : g.dims.Holds c := by
  cases h with
  | held h => exact hc
  | grown _ hn hpos hg =>
    obtain ⟨count, -, hgrown⟩ := grown_of_growFor ha hg
    have h0 : a.size ≠ 0 := by
      rw [ha.size_eq_prod]
      exact hc.prod_pos.ne'
    have hle := extent_le_grownDims ha h0 hpos hn
    rw [growthForm_of_not_turnsColumn hn ht] at hle
    rw [hgrown.dims_eq]
    exact hc.mono hle

/-- The column that a nonempty array turns into is as long as the coordinate says. -/
theorem Room.dims_of_turnsColumn (h : Room a [n] g) (ha : a.WellFormed) (h0 : a.size ≠ 0)
    (ht : a.dims.TurnsColumn [n]) : g.dims = [n, 1] ∧ a.size < n := by
  obtain ⟨axis, haxis⟩ := Shape.findIdx?_long_of_not_isVector ht.2.2
  have hcount : a.dims.count ≠ 0 := h0
  constructor
  · rw [h.dims_eq_afterWrite ha]
    unfold Shape.afterWrite
    rw [if_neg ht.2.1]
    simp [Shape.grownToCount, hcount, haxis, ht.2.2]
  · have hn : 1 ≤ n := h.one_le 0
    have hout : ¬ (1 ≤ n ∧ n ≤ a.dims.prod) := ht.2.1
    rw [ha.size_eq_prod]
    omega

theorem Room.cartesian_of_turnsColumn (h : Room a [n] g) (ha : a.WellFormed) (h0 : a.size ≠ 0)
    (ht : a.dims.TurnsColumn [n]) {p : Nat} (hp : p < n) :
    g.cartesian p = if p < a.size then a.cartesian p else ⟨0, 0⟩ := by
  obtain ⟨hdims, hlt⟩ := h.dims_of_turnsColumn ha h0 ht
  have hprod : p < g.dims.prod := by simpa [hdims] using hp
  rw [← cell_placeOf hprod, h.cell_eq ha, if_pos ht, column_eq ha]
  have hholds := Shape.holds_placeOf hprod
  rw [hdims] at hholds ⊢
  have hfirst : (Shape.placeOf [n, 1] p).getD 0 1 = p + 1 := by
    rw [Shape.getD_placeOf]
    simp [Shape.coordsOf, Nat.mod_eq_of_lt hp]
  have hiff : Shape.Holds [a.size, 1] (Shape.placeOf [n, 1] p) ↔ p < a.size := by
    constructor
    · intro hc
      have hle : (Shape.placeOf [n, 1] p).getD 0 1 ≤ a.size := (hc 0).2
      omega
    · intro hlt' axis
      refine ⟨(hholds axis).1, ?_⟩
      cases axis with
      | zero => rw [hfirst]; exact hlt'
      | succ axis => exact (hholds (axis + 1)).2
  rw [hfirst]
  simp only [hiff, Nat.add_sub_cancel]

/-! ### One write -/

structure Wrote (a : NDArray) (coords : List Nat) (v : Value) (b : NDArray) : Prop where
  dims_eq : b.dims = a.dims.afterWrite coords
  /-- The element is read back, rounded to the kind that results. -/
  target : ∃ z, v.scalar? = some z ∧
    b.get coords = .ok (Number.shaped b.kind b.isComplex (stored b.kind z))
  /-- Without a turn to a column every other element stays at its coordinates. -/
  kept : a.Truthful ∨ b.kind = a.kind → ¬ a.dims.TurnsColumn coords → ∀ c, c.length ≠ 1 →
    a.dims.Has c → b.dims.position c ≠ b.dims.position coords → a.ReadsAlike b c
  /-- With one, every element stays at its place in storage. -/
  kept_column : a.Truthful ∨ b.kind = a.kind → a.size ≠ 0 → ∀ n, coords = [n] →
    a.dims.TurnsColumn [n] → b.dims = [n, 1] ∧ ∀ k, 1 ≤ k → k ≤ a.size → a.ReadsAlike b [k]
  /-- What is neither old nor written is zero. -/
  fresh : ∀ c, b.dims.Has c → b.dims.position c ≠ b.dims.position coords →
    (if a.dims.TurnsColumn coords then a.size ≤ b.dims.position c
      else ¬ a.dims.Holds (b.dims.address c)) →
    b.get c = .ok (Number.shaped b.kind b.isComplex ⟨0, 0⟩)
  kind_eq : b.kind = if a.kind = .logical then v.kind else a.kind
  isComplex_eq : b.isComplex = (a.isComplex || v.isComplex)
  truthful : a.Truthful → b.Truthful

theorem put_fresh (hroom : Room a coords g) (ha : a.WellFormed) (he : e.Proper)
    (hc : g.dims.Has c) (hne : g.dims.position c ≠ g.dims.position coords)
    (hnew : if a.dims.TurnsColumn coords then a.size ≤ g.dims.position c
      else ¬ a.dims.Holds (g.dims.address c)) :
    (g.put coords e).cartesian (g.dims.position c) = ⟨0, 0⟩ := by
  have hg := hroom.wellFormed ha
  have hzero : g.cartesian (g.dims.position c) = ⟨0, 0⟩ := by
    rw [← cell_address hc, hroom.cell_eq ha]
    by_cases ht : a.dims.TurnsColumn coords
    · rw [if_pos ht] at hnew ⊢
      rw [column_eq ha]
      split
      · rename_i hold
        exfalso
        have h0 : a.size ≠ 0 := by simpa using hold.prod_pos.ne'
        obtain ⟨n, rfl⟩ := List.length_eq_one_iff.mp ht.1
        obtain ⟨hdims, -⟩ := hroom.dims_of_turnsColumn ha h0 ht
        have hfirst := hold 0
        have hpos := Shape.position_eq_offset hc
        have haddr := hc.holds_address
        rw [hdims] at hfirst hpos haddr hnew
        rw [Shape.offset_column haddr] at hpos
        have hsize : (Shape.address [n, 1] c).getD 0 1 ≤ a.size := hfirst.2
        omega
      · rfl
    · rw [if_neg ht] at hnew ⊢
      exact cell_of_not_holds hnew
  have hstored : stored e.kind ⟨0, 0⟩ = ⟨0, 0⟩ := stored_truth _ (.inl rfl) rfl
  rw [cartesian_put hg he (hroom.position_lt ha), if_neg hne, hzero, hstored, ite_self]

theorem put_kept (hroom : Room a coords g) (ha : a.WellFormed)
    (ht : a.Truthful ∨ (g.put coords e).kind = a.kind) (he : e.Proper) {p q : Nat}
    (hne : q ≠ g.dims.position coords) (h : g.cartesian q = a.cartesian p) :
    (g.put coords e).cartesian q = a.cartesian p := by
  have hg := hroom.wellFormed ha
  rw [cartesian_put hg he (hroom.position_lt ha), if_neg hne]
  by_cases hk : g.kind = .logical ∧ e.kind ≠ .logical
  · have hta : a.Truthful := by
      refine ht.resolve_right fun hkind => hk.2 ?_
      rw [kind_put hg he, if_pos hk.1, ← hroom.kind_eq ha] at hkind
      exact hkind.trans hk.1
    rw [if_pos hk, (hroom.truthful ha hta).stored_cartesian hg hk.1, h]
  · rw [if_neg hk, h]

/-- Elements that are kept are read as before. -/
theorem readsAlike_put (hroom : Room a coords g) (ha : a.WellFormed)
    (ht : a.Truthful ∨ (g.put coords e).kind = a.kind) (he : e.Proper) (hca : a.dims.Has c)
    (hcg : g.dims.Has c) (hne : g.dims.position c ≠ g.dims.position coords)
    (h : g.cartesian (g.dims.position c) = a.cartesian (a.dims.position c)) :
    a.ReadsAlike (g.put coords e) c := by
  have hg := hroom.wellFormed ha
  have hpos := hroom.position_lt ha
  refine readsAlike_of_cartesian ha (hg.put hpos e) ht ?_ hca (by rwa [dims_put]) ?_
  · exact fun hta => (hroom.truthful ha hta).put hg he hpos
  · rw [dims_put]
    exact put_kept hroom ha ht he hne h

/-- Without a turn to a column elements stay at their coordinates. -/
theorem Room.cartesian_position (h : Room a coords g) (ha : a.WellFormed)
    (hturn : ¬ a.dims.TurnsColumn coords) (hl : c.length ≠ 1) (hc : a.dims.Has c) :
    g.dims.Has c ∧ g.cartesian (g.dims.position c) = a.cartesian (a.dims.position c) := by
  have hgc : g.dims.Has c := by
    rw [Shape.holds_iff_has hl] at hc ⊢
    exact h.holds ha hturn hc
  refine ⟨hgc, ?_⟩
  rw [← cell_address hgc, ← cell_address hc, h.cell_eq ha, if_neg hturn,
    Shape.address_of_length_ne_one hl, Shape.address_of_length_ne_one hl]

theorem asEntry_eq_some (h : v.asEntry = some e) :
    v.scalar? = some e.value ∧ e.kind = v.kind ∧ e.isComplex = v.isComplex := by
  unfold Value.asEntry at h
  obtain ⟨z, hz, rfl⟩ := Option.map_eq_some_iff.mp h
  exact ⟨hz, rfl, rfl⟩

theorem wrote_of_set (ha : a.WellFormed) (hv : v.WellFormed) (h : a.set coords v = .ok b) :
    a.Wrote coords v b := by
  obtain ⟨e, hentry, hwrite⟩ := write_of_set h
  obtain ⟨hscalar, hkind, hcomplex⟩ := asEntry_eq_some hentry
  have he := Value.asEntry_proper hv hentry
  obtain ⟨g, hroom, rfl⟩ := (write_ok_iff ha).mp hwrite
  have hg := hroom.wellFormed ha
  have hb := hg.put (hroom.position_lt ha) e
  constructor
  case dims_eq => rw [dims_put, hroom.dims_eq_afterWrite ha]
  case target => exact ⟨e.value, hscalar, get_put_target hg he (hroom.has ha)⟩
  case kept =>
    intro ht hturn c hl hc hne
    rw [dims_put] at hne
    obtain ⟨hgc, hsame⟩ := hroom.cartesian_position ha hturn hl hc
    exact readsAlike_put hroom ha ht he hc hgc hne hsame
  case kept_column =>
    intro ht h0 n hn hturn
    subst hn
    obtain ⟨hdims, hlt⟩ := hroom.dims_of_turnsColumn ha h0 hturn
    refine ⟨by rw [dims_put, hdims], fun k hk hle => ?_⟩
    have hka : a.dims.Has [k] := ⟨hk, by rwa [← ha.size_eq_prod]⟩
    have hkg : g.dims.Has [k] := by
      rw [hdims]
      exact ⟨hk, by simpa using hle.trans hlt.le⟩
    refine readsAlike_put hroom ha ht he hka hkg ?_ ?_
    · show k - 1 ≠ n - 1
      omega
    · show g.cartesian (k - 1) = a.cartesian (k - 1)
      rw [hroom.cartesian_of_turnsColumn ha h0 hturn (by omega), if_pos (by omega)]
  case fresh =>
    intro c hc hne hnew
    have hc' := hc
    rw [dims_put] at hc' hne hnew
    rw [get_of_has hb hc, number_eq_shaped, dims_put, put_fresh hroom ha he hc' hne hnew]
  case kind_eq => rw [kind_put hg he, hroom.kind_eq ha, hkind]
  case isComplex_eq => rw [isComplex_put, hroom.isComplex_eq ha, hcomplex]
  case truthful => exact fun ht => (hroom.truthful ha ht).put hg he (hroom.position_lt ha)

/-! ### Any sequence of writes -/

/-- Writes one after the other, until one fails. -/
def setAll (a : NDArray) (writes : List (List Nat × Value)) : Except Fault NDArray :=
  writes.foldlM (fun a w => a.set w.1 w.2) a

theorem setAll_cons {w : List Nat × Value} {ws : List (List Nat × Value)}
    (h : a.setAll (w :: ws) = .ok b) : ∃ m, a.set w.1 w.2 = .ok m ∧ m.setAll ws = .ok b := by
  unfold setAll at h
  rw [List.foldlM_cons] at h
  cases hset : a.set w.1 w.2 with
  | error f => rw [hset] at h; cases h
  | ok m => rw [hset] at h; exact ⟨m, rfl, h⟩

theorem sheet_set (ha : a.WellFormed) (ht : a.Truthful) (hv : v.WellFormed)
    (h : a.set coords v = .ok b) : b.sheet = a.sheet.set coords v := by
  obtain ⟨e, hentry, hwrite⟩ := write_of_set h
  have he := Value.asEntry_proper hv hentry
  unfold Sheet.set
  rw [hentry]
  exact sheet_write ha ht he hwrite

theorem sheet_setAll {writes : List (List Nat × Value)} (ha : a.WellFormed) (ht : a.Truthful)
    (hw : ∀ w ∈ writes, w.2.WellFormed) (h : a.setAll writes = .ok b) :
    b.WellFormed ∧ b.sheet = writes.foldl (fun s w => s.set w.1 w.2) a.sheet := by
  induction writes generalizing a with
  | nil => cases h; exact ⟨ha, rfl⟩
  | cons w ws ih =>
    obtain ⟨m, hset, hrest⟩ := setAll_cons h
    have hwv := hw w List.mem_cons_self
    have hsheet := sheet_set ha ht hwv hset
    have hm := set_wellFormed ha hset
    have hmt := set_truthful ha hwv ht hset
    rw [List.foldl_cons, ← hsheet]
    exact ih hm hmt (fun w' hw' => hw w' (List.mem_cons_of_mem w hw')) hrest

end NumericArrays.NDArray
