import NumericArrays.Proofs.NDArray.Trim
import NumericArrays.Proofs.Sheet.Contents

/-! Writes to different cells of an array that is not logical commute, whatever shapes, buffers and forms
    the array goes through on the way. -/
namespace NumericArrays

/-! ### Shapes -/

namespace Shape

variable {s t : Shape} {c d : List Nat} {m n axis : Nat}

/-- Coordinates of different cells, whatever the shape: both address axis by axis and differ up to ones
    at the end, or both count through the whole array. -/
def Apart (c d : List Nat) : Prop :=
  (c.length ≠ 1 ∧ d.length ≠ 1 ∧ ¬ same c d = true) ∨ (c.length = 1 ∧ d.length = 1 ∧ c ≠ d)

/-- A write axis by axis leaves the larger of extent and coordinate. -/
theorem extent_afterWrite (hl : c.length ≠ 1) (axis : Nat) :
    (s.afterWrite c).extent axis = max (s.extent axis) (c.getD axis 1) := by
  unfold afterWrite
  split
  · rename_i h
    exact (max_eq_left ((has_of_length_ne_one hl).mp h axis).2).symm
  · match c, hl with
    | [], _ | _ :: _ :: _, _ => exact extent_grownTo s _ axis

/-- A vector grows along its long axis again. -/
theorem grownToCount_set (hl : axis < s.length) (hone : ∀ i, i ≠ axis → s.extent i = 1) (hm : m ≠ 1)
    (h0 : Shape.count (s.set axis m) ≠ 0) : Shape.grownToCount (s.set axis m) n = s.set axis n := by
  have hlong : (s.set axis m).findIdx? (· != 1) = some axis := by
    rw [List.findIdx?_eq_some_iff_getElem]
    refine ⟨by rwa [List.length_set], by simpa using hm, fun i hi => ?_⟩
    have hi' : i < s.length := hi.trans hl
    have hother := hone i hi.ne
    rw [extent, List.getD_eq_getElem _ _ hi'] at hother
    simpa [List.getElem_set_ne hi.ne'] using hother
  have hv : Shape.isVector (s.set axis m) = true :=
    isVector_iff.mpr ⟨axis, fun i hi => by rw [extent_set hl, if_neg hi, hone i hi]⟩
  simp only [grownToCount, h0, hlong, hv, List.set_set, if_false, if_true]

/-- Growing on the way to a longer shape makes no difference. -/
theorem grownToCount_grownToCount (h2 : 2 ≤ s.length) (hm : s.count < m)
    (hc : (s.grownToCount m).count = m) : (s.grownToCount m).grownToCount n = s.grownToCount n := by
  have hm0 : (s.grownToCount m).count ≠ 0 := by omega
  by_cases h0 : s.count = 0
  · rw [grownToCount_of_empty h0] at hm0 ⊢
    rw [grownToCount_of_empty h0]
    by_cases h1 : m = 1
    · subst h1
      rfl
    · have hrow : ([1, m] : Shape) = [1, 1].set 1 m := rfl
      rw [hrow] at hm0 ⊢
      refine grownToCount_set (by simp) (fun i hi => ?_) h1 hm0
      rcases i with _ | _ | i
      · rfl
      · exact absurd rfl hi
      · exact extent_of_length_le (by simp)
  · have h1 : m ≠ 1 := by omega
    by_cases hv : s.isVector = true
    · obtain ⟨axis, hl, hset, hone⟩ := grownToCount_of_isVector h2 hv h0
      rw [hset] at hm0
      rw [hset, hset]
      exact grownToCount_set hl hone h1 hm0
    · obtain ⟨axis, haxis⟩ := findIdx?_long_of_not_isVector hv
      have hcolumn : ∀ k, s.grownToCount k = [1, 1].set 0 k := by
        intro k
        simp only [grownToCount, h0, haxis, hv, if_false]
        rfl
      rw [hcolumn m] at hm0
      rw [hcolumn, hcolumn]
      refine grownToCount_set (by simp) (fun i hi => ?_) h1 hm0
      rcases i with _ | _ | i
      · exact absurd rfl hi
      · rfl
      · exact extent_of_length_le (by simp)

theorem afterWrite_of_has (h : s.Has c) : s.afterWrite c = s := if_pos h

theorem afterWrite_single (h : ¬ s.Has [n]) : s.afterWrite [n] = s.grownToCount n := if_neg h

end Shape

/-! ### Sheets -/

namespace Sheet

variable {s : Sheet} {c d : List Nat} {e f : Entry}

theorem kind_write (hk : s.kind ≠ .logical) : (s.write c e).kind = s.kind := if_neg hk

theorem cell_write (hk : s.kind ≠ .logical) (hl : c.length ≠ 1) (p : List Nat) :
    (s.write c e).cell p =
      if Shape.same p c then NDArray.stored s.kind e.value else s.cell p := by
  have hturn : ¬ s.dims.TurnsColumn c := fun h => hl h.1
  simp only [write, Shape.address_of_length_ne_one hl, if_neg hk, if_neg hturn]

/-- Axis by axis, the extents and cells of a sheet do not depend on the order of two writes. -/
theorem write_write (hk : s.kind ≠ .logical) (hc : c.length ≠ 1) (hd : d.length ≠ 1)
    (hne : ¬ Shape.same c d = true) :
    (∀ axis, ((s.write c e).write d f).dims.extent axis = ((s.write d f).write c e).dims.extent axis) ∧
      ((s.write c e).write d f).cell = ((s.write d f).write c e).cell := by
  constructor
  · intro axis
    show ((s.dims.afterWrite c).afterWrite d).extent axis =
      ((s.dims.afterWrite d).afterWrite c).extent axis
    rw [Shape.extent_afterWrite hd, Shape.extent_afterWrite hc, Shape.extent_afterWrite hc,
      Shape.extent_afterWrite hd, max_right_comm]
  · have hkc : (s.write c e).kind ≠ .logical := by rwa [kind_write hk]
    have hkd : (s.write d f).kind ≠ .logical := by rwa [kind_write hk]
    funext p
    rw [cell_write hkc hd, cell_write hkd hc, cell_write hk hc, cell_write hk hd, kind_write hk,
      kind_write hk]
    by_cases hpc : Shape.same p c = true
    · have hpd : ¬ Shape.same p d = true := by
        intro hpd
        rw [Shape.same_iff_getD] at hpc hpd hne
        exact hne fun axis => (hpc axis).symm.trans (hpd axis)
      rw [if_neg hpd, if_pos hpc, if_pos hpc]
    · rw [if_neg hpc, if_neg hpc]

end Sheet

/-! ### Elements to write -/

/-- The element without the kind it came in, which only a logical array asks for. -/
def Entry.wide (e : Entry) : Entry := { e with kind := .double }

theorem Value.asEntry_wide_proper {v : Value} {e : Entry} (h : v.asEntry = some e) : e.wide.Proper := by
  refine ⟨fun hk => (by cases hk), ?_⟩
  cases v with
  | number x => exact (asEntry_proper (v := .number x) trivial h).real_im
  | array a =>
    obtain ⟨z, hz, rfl⟩ := Option.map_eq_some_iff.mp h
    intro hc
    change (if a.isScalar = true then some (a.cartesian 0) else none) = some z at hz
    split at hz
    · cases hz
      have hreal : a.isComplex = false := hc
      exact NDArray.im_of_real (by simpa [NDArray.isComplex] using hreal)
    · cases hz

namespace NDArray

variable {a b b' x y g : NDArray} {c d coords : List Nat} {e e' f f' : Entry} {v w : Value} {m n : Nat}

theorem put_wide (hk : g.kind ≠ .logical) : g.put coords e.wide = g.put coords e := by
  simp only [put, accommodate, hk, Entry.wide, false_and, if_false]

theorem write_wide (ha : a.WellFormed) (hk : a.kind ≠ .logical) (h : a.write coords e = .ok b) :
    a.write coords e.wide = .ok b := by
  obtain ⟨g, hroom, rfl⟩ := (write_ok_iff ha).mp h
  refine (write_ok_iff ha).mpr ⟨g, hroom, (put_wide ?_).symm⟩
  rwa [hroom.kind_eq ha]

theorem kind_write (ha : a.WellFormed) (hk : a.kind ≠ .logical) (he : e.Proper)
    (h : a.write coords e = .ok b) : b.kind = a.kind := by
  obtain ⟨g, hroom, rfl⟩ := (write_ok_iff ha).mp h
  have hkind := hroom.kind_eq ha
  rw [kind_put (hroom.wellFormed ha) he, hkind, if_neg hk]

theorem isComplex_write (ha : a.WellFormed) (h : a.write coords e = .ok b) :
    b.isComplex = (a.isComplex || e.isComplex) := by
  obtain ⟨g, hroom, rfl⟩ := (write_ok_iff ha).mp h
  rw [isComplex_put, hroom.isComplex_eq ha]

theorem dims_write (ha : a.WellFormed) (h : a.write coords e = .ok b) :
    b.dims = a.dims.afterWrite coords := by
  obtain ⟨g, hroom, rfl⟩ := (write_ok_iff ha).mp h
  rw [dims_put, hroom.dims_eq_afterWrite ha]

theorem has_write (ha : a.WellFormed) (h : a.write coords e = .ok b) : b.dims.Has coords := by
  obtain ⟨g, hroom, rfl⟩ := (write_ok_iff ha).mp h
  rw [dims_put]
  exact hroom.has ha

/-! ### Two writes axis by axis -/

/-- Arrays match if their sheets do. -/
theorem matches_of_cell (hx : x.WellFormed) (hy : y.WellFormed)
    (hd : ∀ axis, x.dims.extent axis = y.dims.extent axis) (hk : x.kind = y.kind)
    (hc : x.isComplex = y.isComplex) (hcell : x.sheet.cell = y.sheet.cell) : x.Matches y := by
  refine matches_of_cartesian hx hy hd hk hc fun p hp => ?_
  rw [hx.size_eq_prod] at hp
  have hholds := Shape.holds_placeOf hp
  have hy' : y.dims.Holds (x.dims.placeOf p) := hholds.mono fun axis => (hd axis).le
  rw [← cell_placeOf hp, hcell, cell_of_holds hy', ← Shape.offset_congr_extent hd,
    Shape.offset_placeOf hp]

/-! ### Two writes through the whole array -/

/-- Along vectors a position is the sum of its coordinates, and so growing leaves elements at their positions. -/
theorem Grown.cartesian_of_isVector {dims : Shape} {count : Nat} (h : Grown a dims count b)
    (ha : a.WellFormed) (hc : dims.count? = some count) (hv : a.dims.isVector = true)
    (hv' : dims.isVector = true) (hle : a.size ≠ 0 → ∀ axis, a.dims.extent axis ≤ dims.extent axis)
    {p : Nat} (hp : p < dims.prod) : b.cartesian p = a.cartesian p := by
  have hcov := Shape.covers_coordsOf hp
  have hsum := Shape.offset_of_isVector hv' hcov
  have hcell := h.cartesian_offset ha hc hcov
  rw [Shape.offset_coordsOf hp] at hsum hcell
  rw [hcell]
  split
  · rename_i hold
    rw [Shape.offset_of_isVector hv hold, ← hsum]
  · rename_i hnew
    symm
    apply ha.cartesian_of_size_le
    by_cases h0 : a.size = 0
    · omega
    · rw [hsum]
      exact size_le_sum_of_not_covers ha.size_eq_prod h0 (hle h0) hv' hcov hnew

/-- Making room for a single coordinate leaves every element at its place in storage. -/
theorem Room.cartesian_single (h : Room a [n] g) (ha : a.WellFormed) (p : Nat) :
    g.cartesian p = a.cartesian p := by
  cases h with
  | held h => rfl
  | grown _ hn hpos hg =>
    have hgw := (Room.grown g hn hpos hg).wellFormed ha
    obtain ⟨count, hc, hgrown⟩ := grown_of_growFor ha hg
    by_cases hp : p < (a.grownDims [n]).prod
    · rw [← cartesian_growthForm (a := a) [n]]
      refine hgrown.cartesian_of_isVector (ha.growthForm [n]) hc (isVector_growthForm n)
        (isVector_grownDims ha n) (fun h0 => ?_) hp
      rw [size_growthForm ha] at h0
      exact extent_le_grownDims ha h0 hpos hn
    · have hlast := grownDims_single_prod ha n
      have hout : ¬ (1 ≤ n ∧ n ≤ a.dims.prod) := hn
      have hn1 : 1 ≤ n := hpos 0
      rw [hgw.cartesian_of_size_le, ha.cartesian_of_size_le]
      · rw [ha.size_eq_prod]
        omega
      · rw [hgw.size_eq_prod, hgrown.dims_eq]
        omega

theorem cartesian_write_single (ha : a.WellFormed) (hk : a.kind ≠ .logical) (he : e.Proper)
    (h : a.write [n] e = .ok b) (p : Nat) :
    b.cartesian p = if p = n - 1 then stored a.kind e.value else a.cartesian p := by
  obtain ⟨g, hroom, hb⟩ := (write_ok_iff ha).mp h
  have hkind := hroom.kind_eq ha
  have hother : ¬ (g.kind = .logical ∧ e.kind ≠ .logical) := fun hl => hk (hkind ▸ hl.1)
  rw [← kind_write ha hk he h, hb, cartesian_put (hroom.wellFormed ha) he (hroom.position_lt ha),
    if_neg hother, hroom.cartesian_single ha]
  rfl

/-- The larger of two single coordinates alone decides the shape. -/
theorem dims_write_write (ha : a.WellFormed) (hmn : m < n) (hb : a.write [m] e = .ok b)
    (hx : b.write [n] f = .ok x) (hb' : a.write [n] f' = .ok b') (hy : b'.write [m] e' = .ok y) :
    x.dims = y.dims := by
  have hbw := write_wellFormed ha hb
  have hbw' := write_wellFormed ha hb'
  have hm : 1 ≤ m := (has_write ha hb).1
  have hn' : n ≤ b'.dims.prod := (has_write ha hb').2
  have hback : b'.dims.Has [m] := ⟨hm, hmn.le.trans hn'⟩
  rw [dims_write hbw hx, dims_write hbw' hy, Shape.afterWrite_of_has hback, dims_write ha hb']
  by_cases hin : a.dims.Has [m]
  · rw [dims_write ha hb, Shape.afterWrite_of_has hin]
  · have hlt : a.dims.prod < m := by
      by_contra hge
      exact hin ⟨hm, by omega⟩
    have hout : ¬ a.dims.Has [n] := fun h => absurd h.2 (by omega)
    have hdims : b.dims = a.dims.grownToCount m := by
      rw [dims_write ha hb, Shape.afterWrite_single hin]
    have hsize : b.size = m := by
      rw [hbw.size_eq_prod, dims_write ha hb, ← grownDims_eq_afterWrite ha hin,
        grownDims_single_prod ha]
    have hout' : ¬ b.dims.Has [n] := by
      intro h
      have hle := h.2
      rw [← hbw.size_eq_prod, hsize] at hle
      omega
    rw [Shape.afterWrite_single hout', Shape.afterWrite_single hout, hdims]
    refine Shape.grownToCount_grownToCount ha.two_axes ?_ ?_
    · exact (Shape.count_eq_prod ha.counted).trans_lt hlt
    · rw [← hdims]
      exact hsize

/-! ### Any two writes -/

section Both

variable (ha : a.WellFormed) (hk : a.kind ≠ .logical) (he : e.Proper) (hf : f.Proper)
  (hb : a.write c e = .ok b) (hx : b.write d f = .ok x) (hb' : a.write d f = .ok b')
  (hy : b'.write c e = .ok y)
include ha hk he hf hb hx hb' hy

theorem cell_write_write (hc : c.length ≠ 1) (hd : d.length ≠ 1) (hne : ¬ Shape.same c d = true) :
    (∀ axis, x.dims.extent axis = y.dims.extent axis) ∧ x.sheet.cell = y.sheet.cell := by
  have hkb : b.kind ≠ .logical := by rwa [kind_write ha hk he hb]
  have hkb' : b'.kind ≠ .logical := by rwa [kind_write ha hk hf hb']
  have hsheet : x.sheet = (a.sheet.write c e).write d f := by
    rw [sheet_write (write_wellFormed ha hb) (fun hl => absurd hl hkb) hf hx,
      sheet_write ha (fun hl => absurd hl hk) he hb]
  have hsheet' : y.sheet = (a.sheet.write d f).write c e := by
    rw [sheet_write (write_wellFormed ha hb') (fun hl => absurd hl hkb') he hy,
      sheet_write ha (fun hl => absurd hl hk) hf hb']
  obtain ⟨hdims, hcell⟩ := Sheet.write_write (s := a.sheet) (e := e) (f := f) hk hc hd hne
  rw [← hsheet, ← hsheet'] at hdims hcell
  exact ⟨hdims, hcell⟩

theorem cartesian_write_write (hc : c = [m]) (hd : d = [n]) (hmn : m ≠ n) :
    x.dims = y.dims ∧ ∀ p, x.cartesian p = y.cartesian p := by
  subst hc hd
  have hbk := kind_write ha hk he hb
  have hbk' := kind_write ha hk hf hb'
  have hm : 1 ≤ m := (has_write ha hb).1
  have hn : 1 ≤ n := (has_write ha hb').1
  refine ⟨?_, fun p => ?_⟩
  · rcases Nat.lt_or_gt_of_ne hmn with hlt | hgt
    · exact dims_write_write ha hlt hb hx hb' hy
    · exact (dims_write_write ha hgt hb' hy hb hx).symm
  · rw [cartesian_write_single (write_wellFormed ha hb) (by rwa [hbk]) hf hx,
      cartesian_write_single (write_wellFormed ha hb') (by rwa [hbk']) he hy,
      cartesian_write_single ha hk he hb, cartesian_write_single ha hk hf hb', hbk, hbk']
    by_cases hp : p = m - 1
    · rw [if_neg (by omega), if_pos hp, if_pos hp]
    · rw [if_neg hp, if_neg hp]

theorem write_comm (hcd : Shape.Apart c d) : x.Matches y := by
  have hbw := write_wellFormed ha hb
  have hbw' := write_wellFormed ha hb'
  have hxw := write_wellFormed hbw hx
  have hyw := write_wellFormed hbw' hy
  have hbk := kind_write ha hk he hb
  have hbk' := kind_write ha hk hf hb'
  have hkind : x.kind = y.kind := by
    rw [kind_write hbw (by rwa [hbk]) hf hx, kind_write hbw' (by rwa [hbk']) he hy, hbk, hbk']
  have hcomplex : x.isComplex = y.isComplex := by
    rw [isComplex_write hbw hx, isComplex_write hbw' hy, isComplex_write ha hb,
      isComplex_write ha hb', Bool.or_right_comm]
  rcases hcd with ⟨hc, hd, hne⟩ | ⟨hc, hd, hne⟩
  · obtain ⟨hdims, hcell⟩ := cell_write_write ha hk he hf hb hx hb' hy hc hd hne
    exact matches_of_cell hxw hyw hdims hkind hcomplex hcell
  · obtain ⟨m, rfl⟩ := List.length_eq_one_iff.mp hc
    obtain ⟨n, rfl⟩ := List.length_eq_one_iff.mp hd
    obtain ⟨hdims, hsame⟩ := cartesian_write_write ha hk he hf hb hx hb' hy rfl rfl
      fun h => hne (by rw [h])
    exact matches_of_cartesian hxw hyw (fun axis => by rw [hdims]) hkind hcomplex fun p _ => hsame p

end Both

theorem setAll_pair (h : a.setAll [(c, v), (d, w)] = .ok x) :
    ∃ b, a.set c v = .ok b ∧ b.set d w = .ok x := by
  obtain ⟨b, hb, hrest⟩ := setAll_cons h
  obtain ⟨x', hx, hlast⟩ := setAll_cons hrest
  cases hlast
  exact ⟨b, hb, hx⟩

/-- A value as an array that is not logical takes it. -/
theorem write_wide_of_set (ha : a.WellFormed) (hk : a.kind ≠ .logical) (h : a.set coords v = .ok b) :
    ∃ e, v.asEntry = some e ∧ a.write coords e.wide = .ok b ∧ b.kind ≠ .logical := by
  obtain ⟨e, he, hwrite⟩ := write_of_set h
  have hwide := write_wide ha hk hwrite
  have hkind := kind_write ha hk (Value.asEntry_wide_proper he) hwide
  exact ⟨e, he, hwide, by rwa [hkind]⟩

/-- Two writes to different cells leave the same array whichever comes first: the same shape up to ones
    at the end, the same kind, the same form and the same elements. -/
theorem set_comm (ha : a.WellFormed) (hk : a.kind ≠ .logical) (hcd : Shape.Apart c d)
    (hx : a.setAll [(c, v), (d, w)] = .ok x) (hy : a.setAll [(d, w), (c, v)] = .ok y) :
    x.Matches y := by
  obtain ⟨b, hb, hx⟩ := setAll_pair hx
  obtain ⟨b', hb', hy⟩ := setAll_pair hy
  obtain ⟨e, hv, hwb, hkb⟩ := write_wide_of_set ha hk hb
  obtain ⟨f, hw, hwb', hkb'⟩ := write_wide_of_set ha hk hb'
  obtain ⟨f', hw', hwx, -⟩ := write_wide_of_set (set_wellFormed ha hb) hkb hx
  obtain ⟨e', hv', hwy, -⟩ := write_wide_of_set (set_wellFormed ha hb') hkb' hy
  -- each value is the same entry in both orders
  obtain rfl : e = e' := Option.some.inj (hv.symm.trans hv')
  obtain rfl : f = f' := Option.some.inj (hw.symm.trans hw')
  exact write_comm ha hk (Value.asEntry_wide_proper hv) (Value.asEntry_wide_proper hw) hwb hwx hwb'
    hwy hcd

def oneToFour : NDArray := ⟨[2, 2], #[1, 3, 2, 4], none, .double⟩

theorem oneToFour_wellFormed : oneToFour.WellFormed :=
  wellFormed_exact (by decide) (by decide) (by rfl) (fun _ h => by cases h) fun _ => rfl

/-- An imaginary unit inside the square and a number past its end, which turns it into a column. -/
theorem set_comm_oneToFour :
    ∃ x y, oneToFour.WellFormed ∧ oneToFour.kind ≠ .logical ∧ Shape.Apart [2] [6] ∧
      oneToFour.setAll [([2], .number (.complex ⟨0, 1⟩)), ([6], .number (.real 5))] = .ok x ∧
      oneToFour.setAll [([6], .number (.real 5)), ([2], .number (.complex ⟨0, 1⟩))] = .ok y ∧
      x.dims = [6, 1] ∧ x.Matches y := by
  have hk : oneToFour.kind ≠ .logical := by decide
  have hapart : Shape.Apart [2] [6] := .inr ⟨rfl, rfl, by decide⟩
  obtain ⟨x, hx⟩ : ∃ x, oneToFour.setAll
      [([2], .number (.complex ⟨0, 1⟩)), ([6], .number (.real 5))] = .ok x := ⟨_, rfl⟩
  obtain ⟨y, hy⟩ : ∃ y, oneToFour.setAll
      [([6], .number (.real 5)), ([2], .number (.complex ⟨0, 1⟩))] = .ok y := ⟨_, rfl⟩
  have hdims : x.dims = [6, 1] := by
    cases hx
    rfl
  exact ⟨x, y, oneToFour_wellFormed, hk, hapart, hx, hy, hdims,
    set_comm oneToFour_wellFormed hk hapart hx hy⟩

end NDArray
end NumericArrays
