import NumericArrays.Proofs.Concat.Position
import NumericArrays.Proofs.Workspace.Faithful

/-! Joining puts every element of every part into its place, and nothing else. -/
namespace NumericArrays

namespace Concat

variable {axis m k p : Nat} {parts others : List NDArray} {first part c : NDArray} {coords e e' : List Nat}
  {s t : Shape}

/-! ### Positions -/

/-- The page of an element: where it is on the axes behind the joined one. -/
def pageOf (axis m : Nat) (s : Shape) (e : List Nat) : Nat :=
  Shape.offset (Shape.back axis m s) (e.drop (axis + 1))

def placeInPage (axis : Nat) (s : Shape) (e : List Nat) : Nat :=
  Shape.offset (Shape.front axis s) (e.take axis) + (Shape.front axis s).prod * e.getD axis 0

theorem offset_eq_page (hs : s.length ≤ axis + 1 + m) (e : List Nat) :
    s.offset e = pageOf axis m s e * pageSize axis s + placeInPage axis s e := by
  rw [Shape.offset_split hs, Shape.pageSize_eq_front, pageOf, placeInPage]
  ring

theorem placeInPage_lt (h : s.covers e = true) : placeInPage axis s e < pageSize axis s := by
  have hfront : Shape.offset (Shape.front axis s) (e.take axis) < (Shape.front axis s).prod :=
    Shape.offset_front_lt h
  have haxis := Shape.covers_iff.mp h axis
  calc placeInPage axis s e < (Shape.front axis s).prod + (Shape.front axis s).prod * e.getD axis 0 := by
        rw [placeInPage]
        omega
    _ = (Shape.front axis s).prod * (e.getD axis 0 + 1) := by ring
    _ ≤ (Shape.front axis s).prod * s.extent axis := Nat.mul_le_mul_left _ haxis
    _ = pageSize axis s := (Shape.pageSize_eq_front axis s).symm

/-- Moving coordinates along the joined axis moves the element behind the pages of the parts before. -/
theorem offset_moved (hst : ∀ i, i ≠ axis → t.extent i = s.extent i)
    (ht : t.length ≤ axis + 1 + m)
    (he : ∀ i, e'.getD i 0 = if i = axis then e.getD axis 0 + k else e.getD i 0) :
    t.offset e' = pageOf axis m s e * ((Shape.front axis s).prod * t.extent axis) +
      ((Shape.front axis s).prod * k + placeInPage axis s e) := by
  have hfront : Shape.offset (Shape.front axis s) (e'.take axis) =
      Shape.offset (Shape.front axis s) (e.take axis) := by
    apply Shape.offset_congr
    intro i
    by_cases hi : i < axis
    · have hei := he i
      rw [if_neg (by omega)] at hei
      simpa [List.getD_eq_getElem?_getD, hi] using hei
    · rw [List.getD_eq_default _ _ (by simp; omega), List.getD_eq_default _ _ (by simp; omega)]
  have hback : Shape.offset (Shape.back axis m s) (e'.drop (axis + 1)) = pageOf axis m s e := by
    apply Shape.offset_congr
    intro i
    have hei := he (axis + 1 + i)
    rw [if_neg (by omega)] at hei
    simpa [List.getD_eq_getElem?_getD] using hei
  rw [Shape.offset_split ht, Shape.front_congr hst, Shape.back_congr hst, hfront, hback, he axis, if_pos rfl,
    placeInPage]
  ring

def Agree (axis : Nat) (parts : List NDArray) : Prop :=
  ∀ a ∈ parts, ∀ b ∈ parts, ∀ i, i ≠ axis → a.dims.extent i = b.dims.extent i

theorem roundSize_eq (h : ∀ part ∈ parts, ∀ i, i ≠ axis → s.extent i = part.dims.extent i) :
    roundSize axis parts = (Shape.front axis s).prod * lead axis parts parts.length := by
  rw [roundSize, sum_pageSize h, Shape.prod_front, lead_length]

theorem roundSize_take_eq (h : ∀ part ∈ parts, ∀ i, i ≠ axis → s.extent i = part.dims.extent i) (p : Nat) :
    roundSize axis (parts.take p) = (Shape.front axis s).prod * lead axis parts p := by
  rw [roundSize_eq fun part hmem => h part (List.mem_of_mem_take hmem), lead, lead, List.take_length]

/-! ### The joined array -/

def rankOf (parts : List NDArray) : Nat := parts.foldl (fun n part => max n part.dims.length) 0

def kindOf (parts : List NDArray) : Storage := parts.foldl (fun k part => k.promote part.kind) .logical

def joined (axis : Nat) (first : NDArray) (others : List NDArray) : NDArray :=
  let parts := first :: others
  let collect (f : NDArray → Nat → Float) := interleave axis (fun part p => (kindOf parts).store (f part p))
    parts (first.size / pageSize axis first.dims)
  { dims := joinedDims axis (rankOf parts) (lead axis parts parts.length) first.dims
    real := collect NDArray.re
    imag := if parts.any (·.isComplex) then some (collect NDArray.im) else none
    kind := kindOf parts }

theorem length_le_rankOf (h : part ∈ parts) : part.dims.length ≤ rankOf parts := (foldl_max_ge parts 0).2 part h

theorem find?_eq_none (h : Agree axis (first :: others)) :
    others.find? (fun part => !agreeOff axis (rankOf (first :: others)) first.dims part.dims) = none := by
  apply List.find?_eq_none.mpr
  intro part hmem
  have hagree : agreeOff axis (rankOf (first :: others)) first.dims part.dims = true := by
    rw [agreeOff_iff (length_le_rankOf List.mem_cons_self) (length_le_rankOf (List.mem_cons_of_mem _ hmem))]
    exact h first List.mem_cons_self part (List.mem_cons_of_mem _ hmem)
  simp [hagree]

theorem join_of_agree (h : Agree axis (first :: others)) :
    join axis first others = if (joined axis first others).dims.count?.isNone then
      .error (.uncountable (joined axis first others).dims) else .ok (joined axis first others) := by
  have hsum : (first :: others).foldl (fun n part => n + part.dims.extent axis) 0 = _ :=
    foldl_extent_eq_sum (first :: others) 0
  rw [Nat.zero_add, ← lead_length] at hsum
  have hfind := find?_eq_none h
  unfold join
  dsimp only
  rw [show List.foldl (fun n part => max n part.dims.length) 0 (first :: others) =
    rankOf (first :: others) from rfl, hfind]
  dsimp only
  rw [hsum]
  rfl

theorem join_of_counted (h : Agree axis (first :: others))
    (hcount : (joined axis first others).dims.count? = some k) :
    join axis first others = .ok (joined axis first others) := by
  rw [join_of_agree h, hcount]
  rfl

/-- Parts that do not agree are not joined. -/
theorem join_of_disagree (h : ¬ Agree axis (first :: others)) :
    ∃ part ∈ others, (∃ i, i ≠ axis ∧ first.dims.extent i ≠ part.dims.extent i) ∧
      join axis first others = .error (.shapeMismatch first.dims part.dims) := by
  cases hfind : others.find? (fun part => !agreeOff axis (rankOf (first :: others)) first.dims part.dims) with
  | none =>
    have hagree := agree_of_find? (fun part hmem => length_le_rankOf hmem) hfind
    refine absurd (fun a ha b hb i hi => ?_) h
    rw [← hagree a ha i hi, hagree b hb i hi]
  | some part =>
    have hmem : part ∈ others := List.mem_of_find?_eq_some hfind
    have hdiffer := List.find?_some hfind
    refine ⟨part, hmem, ?_, ?_⟩
    · by_contra hsame
      push Not at hsame
      have hagree := (agreeOff_iff (length_le_rankOf List.mem_cons_self)
        (length_le_rankOf (List.mem_cons_of_mem _ hmem))).mpr hsame
      simp [hagree] at hdiffer
    · unfold join
      dsimp only
      rw [show List.foldl (fun n part => max n part.dims.length) 0 (first :: others) =
        rankOf (first :: others) from rfl, hfind]

/-! ### Its shape -/

section

variable (hp : ∀ part ∈ first :: others, part.WellFormed) (h0 : first.size ≠ 0)
  (h : Agree axis (first :: others))

theorem extent_joined (axis : Nat) (first : NDArray) (others : List NDArray) (i : Nat) : (joined axis first others).dims.extent i =
    if i = axis then lead axis (first :: others) (first :: others).length else first.dims.extent i :=
  extent_joinedDims i

include h in
theorem extent_joined_of_ne (hmem : part ∈ first :: others) {i : Nat} (hi : i ≠ axis) :
    (joined axis first others).dims.extent i = part.dims.extent i := by
  rw [extent_joined, if_neg hi]
  exact h first List.mem_cons_self part hmem i hi

theorem length_joined_le : (joined axis first others).dims.length ≤ axis + 1 + rankOf (first :: others) := by
  have hlength : (joined axis first others).dims.length = max (rankOf (first :: others)) (axis + 1) :=
    length_joinedDims (length_le_rankOf List.mem_cons_self)
  omega

include hp h0 h in
/-- Every part has as many pages as the first one. -/
theorem size_eq_pages_mul (hmem : part ∈ first :: others) :
    part.size = first.size / pageSize axis first.dims * pageSize axis part.dims := by
  have hsplit : ∀ part ∈ first :: others, part.size = pageSize axis part.dims *
      ∏ i ∈ Finset.range (rankOf (first :: others)), first.dims.extent (axis + 1 + i) := by
    intro part hmem
    have hle := length_le_rankOf hmem
    have hprod : part.dims.prod = pageSize axis part.dims *
        ∏ i ∈ Finset.range (rankOf (first :: others)), part.dims.extent (axis + 1 + i) :=
      prod_eq_pageSize_mul (by omega)
    rw [(hp part hmem).size_eq_prod, hprod]
    congr 1
    exact Finset.prod_congr rfl fun i _ => h part hmem first List.mem_cons_self _ (by omega)
  have hfirst := hsplit first List.mem_cons_self
  have hpos : 0 < pageSize axis first.dims := by
    apply Nat.pos_of_mul_pos_right
    rw [← hfirst]
    omega
  rw [hsplit part hmem, hfirst, Nat.mul_div_cancel_left _ hpos, Nat.mul_comm]

include hp h0 h in
/-- No element is lost, and none is added. -/
theorem prod_joined : (joined axis first others).dims.prod =
    ((first :: others).map NDArray.size).sum := by
  have hfirst := hp first List.mem_cons_self
  have hpos : 0 < first.dims.prod := by
    rw [← hfirst.size_eq_prod]
    omega
  have hrank : first.dims.length ≤ rankOf (first :: others) := length_le_rankOf List.mem_cons_self
  have hprod : (joined axis first others).dims.prod = first.dims.prod / pageSize axis first.dims *
      ((∏ i ∈ Finset.range axis, first.dims.extent i) *
        lead axis (first :: others) (first :: others).length) := prod_joinedDims hrank hpos
  have hround := roundSize_eq (h first List.mem_cons_self)
  rw [Shape.prod_front] at hround
  rw [hprod, ← hround, ← hfirst.size_eq_prod, roundSize, ← List.sum_map_mul_left]
  congr 1
  apply List.map_congr_left
  intro part hmem
  exact (size_eq_pages_mul hp h0 h hmem).symm

include hp h0 in
theorem prod_joined_pos : 0 < (joined axis first others).dims.prod := by
  have hpos : 0 < first.dims.prod := by
    rw [← (hp first List.mem_cons_self).size_eq_prod]
    omega
  refine joinedDims_prod_pos hpos ?_
  have haxis := Shape.prod_pos_iff.mp hpos axis
  rw [lead_length, List.map_cons, List.sum_cons]
  omega

include hp h0 h in
theorem count?_joined (hcount : ((first :: others).map NDArray.size).sum ≤ maxCount) :
    (joined axis first others).dims.count? = some ((first :: others).map NDArray.size).sum := by
  rw [← prod_joined hp h0 h] at hcount ⊢
  exact Shape.count?_of_pos (prod_joined_pos hp h0) hcount

/-! ### Its elements -/

/-- An element of page `r` of a part, in the kind of the joined array. -/
theorem cartesian_joined (axis : Nat) (first : NDArray) (others : List NDArray) {r low : Nat}
    (hpart : p < (first :: others).length)
    (hr : r < first.size / pageSize axis first.dims)
    (hl : low < pageSize axis (first :: others)[p].dims) :
    (joined axis first others).cartesian (r * roundSize axis (first :: others) +
        (roundSize axis ((first :: others).take p) + low)) =
      NDArray.stored (kindOf (first :: others))
        ((first :: others)[p].cartesian (r * pageSize axis (first :: others)[p].dims + low)) := by
  have hmem : (first :: others)[p] ∈ first :: others := List.getElem_mem hpart
  refine Cartesian.ext (getD_interleave (f := fun part p => (kindOf (first :: others)).store (part.re p))
    hpart hr hl) ?_
  show NDArray.im _ _ = (kindOf (first :: others)).store (NDArray.im _ _)
  by_cases hc : (first :: others).any (·.isComplex) = true
  · rw [NDArray.im_of_complex (if_pos hc)]
    exact getD_interleave (f := fun part p => (kindOf (first :: others)).store (part.im p)) hpart hr hl
  · have hreal : (first :: others)[p].imag = none := by
      by_contra hsome
      exact hc (List.any_eq_true.mpr ⟨_, hmem, NDArray.isComplex_iff.mpr hsome⟩)
    rw [NDArray.im_of_real (if_neg hc), NDArray.im_of_real hreal, Storage.store_zero]

include hp h0 h in
/-- The element of a part is found where the joining moves it, in the kind of the joined array. -/
theorem cartesian_moved (hpart : p < (first :: others).length)
    (hcov : (first :: others)[p].dims.covers e = true)
    (he : ∀ i, e'.getD i 0 = if i = axis then e.getD axis 0 + lead axis (first :: others) p else e.getD i 0) :
    (joined axis first others).cartesian ((joined axis first others).dims.offset e') =
      NDArray.stored (kindOf (first :: others))
        ((first :: others)[p].cartesian ((first :: others)[p].dims.offset e)) := by
  have hmem : (first :: others)[p] ∈ first :: others := List.getElem_mem hpart
  have hsize := size_eq_pages_mul hp h0 h hmem
  have hwell := hp _ hmem
  have hjoined := fun r low => @cartesian_joined p axis first others r low hpart
  set part := (first :: others)[p]
  have hrank : part.dims.length ≤ axis + 1 + rankOf (first :: others) := by
    have hle := length_le_rankOf hmem
    omega
  have hsource := offset_eq_page hrank e
  have htarget : (joined axis first others).dims.offset e' =
      pageOf axis (rankOf (first :: others)) part.dims e * roundSize axis (first :: others) +
        (roundSize axis ((first :: others).take p) + placeInPage axis part.dims e) := by
    have hmoved := offset_moved (fun i hi => extent_joined_of_ne h hmem hi) length_joined_le he
    rwa [extent_joined, if_pos rfl, ← roundSize_eq (h part hmem), ← roundSize_take_eq (h part hmem) p] at hmoved
  have hround : pageOf axis (rankOf (first :: others)) part.dims e < first.size / pageSize axis first.dims := by
    have hoffset := Shape.offset_lt hcov
    rw [← hwell.size_eq_prod, hsize, hsource] at hoffset
    by_contra hge
    have hmul := Nat.mul_le_mul_right (pageSize axis part.dims) (Nat.not_lt.mp hge)
    omega
  rw [htarget, hsource]
  exact hjoined _ _ hround (placeInPage_lt hcov)

end

/-! ### Its kind -/

theorem width_promote (k l : Storage) : (k.promote l).width = max k.width l.width := by
  cases k <;> cases l <;> decide

theorem promote_eq_or (k l : Storage) : k.promote l = k ∨ k.promote l = l := by
  unfold Storage.promote
  split
  · exact .inr rfl
  · exact .inl rfl

theorem foldl_promote (parts : List NDArray) (k : Storage) :
    k.width ≤ (parts.foldl (fun k part => k.promote part.kind) k).width ∧
      (∀ part ∈ parts, part.kind.width ≤ (parts.foldl (fun k part => k.promote part.kind) k).width) ∧
      (parts.foldl (fun k part => k.promote part.kind) k = k ∨
        ∃ part ∈ parts, parts.foldl (fun k part => k.promote part.kind) k = part.kind) := by
  induction parts generalizing k with
  | nil => exact ⟨le_rfl, (fun _ h => by cases h), .inl rfl⟩
  | cons a parts ih =>
    obtain ⟨hk, hparts, hsome⟩ := ih (k.promote a.kind)
    have hmax := width_promote k a.kind
    rw [List.foldl_cons]
    refine ⟨by omega, fun part hmem => ?_, ?_⟩
    · rcases List.mem_cons.mp hmem with rfl | hmem
      · omega
      · exact hparts part hmem
    · rcases hsome with h | ⟨part, hmem, h⟩
      · rcases promote_eq_or k a.kind with hk | ha
        · exact .inl (h.trans hk)
        · exact .inr ⟨a, List.mem_cons_self, h.trans ha⟩
      · exact .inr ⟨part, List.mem_cons_of_mem _ hmem, h⟩

theorem width_le_kindOf (h : part ∈ parts) : part.kind.width ≤ (kindOf parts).width :=
  (foldl_promote parts .logical).2.1 part h

/-- The widest kind is that of a part. -/
theorem exists_kindOf (h : parts ≠ []) : ∃ part ∈ parts, kindOf parts = part.kind := by
  rcases (foldl_promote parts .logical).2.2 with hl | hsome
  · obtain ⟨part, hmem⟩ := List.exists_mem_of_ne_nil parts h
    exact ⟨part, hmem, hl.trans ((foldl_promote_eq_logical hl).2 part hmem).symm⟩
  · exact hsome

/-! ### What joining does -/

def moved (axis : Nat) (parts : List NDArray) (p : Nat) (coords : List Nat) : List Nat :=
  shift axis (lead axis parts p) coords

/-- `c` consists of the parts, side by side along the axis. -/
structure Joins (axis : Nat) (parts : List NDArray) (c : NDArray) : Prop where
  extent_axis : c.dims.extent axis = (parts.map fun part => part.dims.extent axis).sum
  extent_of_ne : ∀ part ∈ parts, ∀ i, i ≠ axis → c.dims.extent i = part.dims.extent i
  kind_mem : ∃ part ∈ parts, c.kind = part.kind
  kind_widest : ∀ part ∈ parts, part.kind.width ≤ c.kind.width
  isComplex_iff : c.isComplex = true ↔ ∃ part ∈ parts, part.isComplex = true
  /-- Every element is in its place. -/
  cell_moved : ∀ p (hp : p < parts.length) coords, parts[p].dims.Holds coords →
    c.sheet.cell (moved axis parts p coords) = NDArray.stored c.kind (parts[p].sheet.cell coords)
  im_of_real : ∀ p (hp : p < parts.length) coords, parts[p].dims.Holds coords →
    parts[p].isComplex = false → (c.sheet.cell (moved axis parts p coords)).im = 0
  /-- It is read there. -/
  get_moved : ∀ p (hp : p < parts.length) coords, 2 ≤ coords.length → parts[p].dims.Holds coords →
    c.get (moved axis parts p coords) =
      .ok (Number.shaped c.kind c.isComplex (NDArray.stored c.kind (parts[p].sheet.cell coords)))
  /-- Every place is that of one element of one part, named by one coordinate for each axis. -/
  places : Set.BijOn (fun e : Nat × List Nat => moved axis parts e.1 e.2)
    {e | ∃ hp : e.1 < parts.length, e.2.length = c.dims.length ∧ parts[e.1].dims.Holds e.2}
    {d | d.length = c.dims.length ∧ c.dims.Holds d}

section

variable (hp : ∀ part ∈ first :: others, part.WellFormed) (h0 : first.size ≠ 0)
  (h : Agree axis (first :: others))

theorem getD_moved (p : Nat) (coords : List Nat) (i : Nat) : (moved axis parts p coords).getD i 1 =
    if i = axis then coords.getD axis 1 + lead axis parts p else coords.getD i 1 :=
  getD_shift axis _ coords i

include h in
/-- Coordinates that a part holds are moved to coordinates that the joined array holds. -/
theorem holds_moved (hpart : p < (first :: others).length) (hold : (first :: others)[p].dims.Holds coords) :
    (joined axis first others).dims.Holds (moved axis (first :: others) p coords) := by
  intro i
  have hi := hold i
  rw [getD_moved]
  by_cases haxis : i = axis
  · subst haxis
    rw [if_pos rfl, extent_joined, if_pos rfl]
    have hnext : lead i (first :: others) (p + 1) = lead i (first :: others) p + _ := lead_succ hpart
    have hle : lead i (first :: others) (p + 1) ≤ lead i (first :: others) (first :: others).length :=
      lead_mono hpart
    omega
  · rw [if_neg haxis, extent_joined_of_ne h (List.getElem_mem hpart) haxis]
    exact hi

include hp h0 h in
theorem cell_joined (hpart : p < (first :: others).length)
    (hold : (first :: others)[p].dims.Holds coords) :
    (joined axis first others).sheet.cell (moved axis (first :: others) p coords) =
      NDArray.stored (kindOf (first :: others)) ((first :: others)[p].sheet.cell coords) := by
  rw [NDArray.cell_of_holds (holds_moved h hpart hold), NDArray.cell_of_holds hold]
  apply cartesian_moved hp h0 h hpart hold.covers
  intro i
  have haxis := (hold axis).1
  rw [Shape.getD_map_pred, Shape.getD_map_pred, Shape.getD_map_pred, getD_moved]
  split
  · omega
  · rfl

/-- The coordinate along the axis tells the part, and the part tells the coordinate. -/
theorem moved_inj {q : Nat} {d : List Nat} (hpart : p < parts.length) (hq : q < parts.length)
    (hc : parts[p].dims.Holds coords) (hd : parts[q].dims.Holds d) (hl : coords.length = d.length)
    (heq : moved axis parts p coords = moved axis parts q d) : p = q ∧ coords = d := by
  have hcoord : ∀ i, (moved axis parts p coords).getD i 1 = (moved axis parts q d).getD i 1 :=
    fun i => congrArg (·.getD i 1) heq
  simp only [getD_moved] at hcoord
  have haxis := hcoord axis
  rw [if_pos rfl, if_pos rfl] at haxis
  have hcin : 1 ≤ coords.getD axis 1 ∧ coords.getD axis 1 ≤ parts[p].dims.extent axis := hc axis
  have hdin : 1 ≤ d.getD axis 1 ∧ d.getD axis 1 ≤ parts[q].dims.extent axis := hd axis
  obtain rfl : p = q := part_unique axis (x := coords.getD axis 1 - 1 + lead axis parts p) hpart hq
    (by omega) (by omega) (by omega) (by omega)
  refine ⟨rfl, Shape.ext_extent hl fun i => ?_⟩
  have hi := hcoord i
  show coords.getD i 1 = d.getD i 1
  split at hi
  · rename_i heq
    subst heq
    omega
  · exact hi

include h in
/-- Every place of the joined array is that of an element of some part. -/
theorem exists_moved {d : List Nat} (haxis : axis < d.length) (hold : (joined axis first others).dims.Holds d) :
    ∃ (q : Nat) (hq : q < (first :: others).length) (e : List Nat), e.length = d.length ∧
      (first :: others)[q].dims.Holds e ∧ moved axis (first :: others) q e = d := by
  have hin := hold axis
  rw [extent_joined, if_pos rfl] at hin
  obtain ⟨q, hq, hlow, hup⟩ := exists_part axis (first :: others) (x := d.getD axis 1 - 1) (by omega)
  have hback : ∀ i, (d.set axis (d.getD axis 1 - lead axis (first :: others) q)).getD i 1 =
      if i = axis then d.getD axis 1 - lead axis (first :: others) q else d.getD i 1 :=
    Shape.extent_set (s := d) haxis
  have hlen : (d.set axis (d.getD axis 1 - lead axis (first :: others) q)).length = d.length :=
    List.length_set
  refine ⟨q, hq, _, hlen, fun i => ?_, ?_⟩
  · rw [hback]
    split
    · rename_i heq
      subst heq
      omega
    · rename_i hne
      rw [← extent_joined_of_ne h (List.getElem_mem hq) hne]
      exact hold i
  · refine Shape.ext_extent ((length_shift (by omega)).trans hlen) fun i => ?_
    show (moved axis (first :: others) q _).getD i 1 = d.getD i 1
    rw [getD_moved, hback, hback]
    split
    · rename_i heq
      subst heq
      rw [if_pos rfl]
      omega
    · rfl

include h in
theorem places_joined : Set.BijOn (fun e : Nat × List Nat => moved axis (first :: others) e.1 e.2)
    {e | ∃ hpart : e.1 < (first :: others).length, e.2.length = (joined axis first others).dims.length ∧
      (first :: others)[e.1].dims.Holds e.2}
    {d | d.length = (joined axis first others).dims.length ∧ (joined axis first others).dims.Holds d} := by
  have haxis : axis < (joined axis first others).dims.length := by
    have hlength : (joined axis first others).dims.length = max (rankOf (first :: others)) (axis + 1) :=
      length_joinedDims (length_le_rankOf List.mem_cons_self)
    omega
  refine ⟨?_, ?_, ?_⟩
  · rintro ⟨q, d⟩ ⟨hq, hd, hold⟩
    exact ⟨(length_shift (hd ▸ haxis)).trans hd, holds_moved h hq hold⟩
  · rintro ⟨q, d⟩ ⟨hq, hd, hold⟩ ⟨q', d'⟩ ⟨hq', hd', hold'⟩ heq
    obtain ⟨hpart, hcoords⟩ := moved_inj hq hq' hold hold' (hd.trans hd'.symm) heq
    exact Prod.ext hpart hcoords
  · rintro d ⟨hd, hold⟩
    obtain ⟨q, hq, e, he, hheld, hmoved⟩ := exists_moved h (hd ▸ haxis) hold
    exact ⟨(q, e), ⟨hq, he.trans hd, hheld⟩, hmoved⟩

include hp h0 h in
theorem joins_joined (hw : (joined axis first others).WellFormed) :
    Joins axis (first :: others) (joined axis first others) where
  extent_axis := by
    rw [extent_joined, if_pos rfl, lead_length]
  extent_of_ne part hmem i hi := extent_joined_of_ne h hmem hi
  kind_mem := exists_kindOf (by simp)
  kind_widest part hmem := width_le_kindOf hmem
  isComplex_iff := by
    have himag : (joined axis first others).isComplex = (first :: others).any (·.isComplex) := by
      change Option.isSome (if _ then _ else _) = _
      split
      · rename_i hc
        exact hc.symm
      · rename_i hc
        exact (Bool.not_eq_true _ ▸ hc).symm
    rw [himag, List.any_eq_true]
  cell_moved p hpart coords hold := cell_joined hp h0 h hpart hold
  im_of_real p hpart coords hold hreal := by
    rw [cell_joined hp h0 h hpart hold, NDArray.cell_of_holds hold, NDArray.cartesian_of_real hreal]
    exact Storage.store_zero _
  get_moved p hpart coords hl hold := by
    have hheld := holds_moved h hpart hold
    have hlong : (moved axis (first :: others) p coords).length ≠ 1 := by
      simp only [moved, shift, Shape.pad, List.length_set, List.length_append, List.length_replicate]
      omega
    have hhas := (Shape.holds_iff_has hlong).mpr hheld
    rw [NDArray.get_of_has hw hhas, NDArray.number_eq_shaped, Shape.position_of_length_ne_one hlong,
      ← NDArray.cell_of_holds hheld, cell_joined hp h0 h hpart hold]
    rfl
  places := places_joined h

include hp h0 h in
/-- The turns of the copy end with the buffers of the joined array, and with nothing left of any part. -/
theorem endIn_joined (hne : ∀ part ∈ first :: others, part.size ≠ 0) : ∃ s, Turns.EndIn axis (kindOf (first :: others)) (first :: others)
    (joined axis first others).dims.prod s ∧ s.written = (joined axis first others).dims.prod ∧
      s.turn = 0 ∧ s.taken = (first :: others).map NDArray.size ∧
      s.real = (joined axis first others).real ∧ s.imag = (joined axis first others).imag := by
  have hsizes : ∀ part ∈ first :: others, part.size = _ := fun part hmem => size_eq_pages_mul hp h0 h hmem
  have htotal : (joined axis first others).dims.prod =
      first.size / pageSize axis first.dims * roundSize axis (first :: others) := by
    rw [prod_joined hp h0 h, roundSize, ← List.sum_map_mul_left]
    exact congrArg List.sum (List.map_congr_left hsizes)
  have hpos : ∀ part ∈ first :: others, 0 < pageSize axis part.dims := by
    intro part hmem
    apply Nat.pos_of_ne_zero
    intro hzero
    apply hne part hmem
    rw [hsizes part hmem, hzero, Nat.mul_zero]
  rw [htotal]
  refine ⟨_, Turns.endIn_reached hp hsizes hpos, ?_, Nat.zero_mod _, Turns.taken_reached hsizes,
    Turns.filled_flow, ?_⟩
  · simp [Turns.reached, roundSize]
  · simp only [Turns.reached, Turns.filled_flow]
    rfl

end

end Concat

/-! ### Values -/

namespace Value

open Concat

variable {axis : Nat} {values : List Value}

def nonempty (values : List Value) : List NDArray := (values.filter (!·.isEmpty)).map toArray

theorem concat_of_nonempty {first second : NDArray} {rest : List NDArray}
    (h : nonempty values = first :: second :: rest) :
    concat axis values = join axis first (second :: rest) := by
  unfold concat
  rw [show (values.filter (!·.isEmpty)).map toArray = first :: second :: rest from h]

section

variable {a b : NDArray}

theorem concat_of_empty_left (h : a.size = 0) :
    concat axis [.array a, .array b] = .ok (if b.size = 0 then a else b) := by
  unfold concat
  by_cases hb : b.size = 0
  · simp [isEmpty, size, h, hb, toArray]
  · simp [isEmpty, size, h, hb, toArray]

theorem concat_of_empty_right (ha : a.size ≠ 0) (h : b.size = 0) :
    concat axis [.array a, .array b] = .ok a := by
  unfold concat
  simp [isEmpty, size, h, ha, toArray]

theorem concat_pair (ha : a.size ≠ 0) (hb : b.size ≠ 0) :
    concat axis [.array a, .array b] = join axis a [b] := by
  unfold concat
  simp [isEmpty, size, ha, hb, toArray]

end

theorem nonempty_faithful (hv : ∀ v ∈ values, v.Faithful) : ∀ a ∈ nonempty values, a.Faithful := by
  intro a ha
  obtain ⟨v, hmem, rfl⟩ := List.mem_map.mp ha
  exact (hv v (List.mem_filter.mp hmem).1).toArray

/-- Joining two values or more that are not empty. If their shapes agree off the axis, every element of
    every one of them is put into its place and nothing else is; the kind of the result is the widest, which
    changes no element of an array that commands can make; and the copy by turns ends with every part used
    up. If they do not agree, that is the fault. -/
theorem concat_places (hv : ∀ v ∈ values, v.WellFormed) (h2 : 2 ≤ (nonempty values).length) :
    (Agree axis (nonempty values) → ((nonempty values).map NDArray.size).sum ≤ maxCount →
      ∃ c, concat axis values = .ok c ∧ c.WellFormed ∧ Joins axis (nonempty values) c ∧
        c.size = ((nonempty values).map NDArray.size).sum ∧
        (∃ s, Turns.EndIn axis c.kind (nonempty values) c.size s ∧ s.written = c.size ∧ s.turn = 0 ∧
          s.taken = (nonempty values).map NDArray.size ∧ s.real = c.real ∧ s.imag = c.imag) ∧
        ((∀ v ∈ values, Workspace.Reachable v) → ∀ p (hp : p < (nonempty values).length) coords,
          (nonempty values)[p].dims.Holds coords →
            c.sheet.cell (moved axis (nonempty values) p coords) =
              (nonempty values)[p].sheet.cell coords)) ∧
    (¬ Agree axis (nonempty values) → ∃ s ∈ nonempty values, ∃ t ∈ nonempty values,
      (∃ i, i ≠ axis ∧ s.dims.extent i ≠ t.dims.extent i) ∧
        concat axis values = .error (.shapeMismatch s.dims t.dims)) := by
  have hparts : ∀ a ∈ nonempty values, a.WellFormed ∧ a.size ≠ 0 := parts_wellFormed hv
  have hfaithful : (∀ v ∈ values, Workspace.Reachable v) → ∀ a ∈ nonempty values, a.Faithful :=
    fun hr => nonempty_faithful fun v hmem => (hr v hmem).faithful
  obtain ⟨first, second, rest, heq⟩ : ∃ first second rest, nonempty values = first :: second :: rest := by
    match hl : nonempty values with
    | [] | [_] => simp [hl] at h2
    | first :: second :: rest => exact ⟨first, second, rest, rfl⟩
  rw [concat_of_nonempty heq]
  rw [heq] at hparts hfaithful ⊢
  have hp := fun a ha => (hparts a ha).1
  have h0 := (hparts first List.mem_cons_self).2
  constructor
  · intro hagree hcount
    have hdims := count?_joined hp h0 hagree hcount
    have hok := join_of_counted hagree hdims
    have hw := join_wellFormed (hp first List.mem_cons_self)
      (fun part hmem => hp part (List.mem_cons_of_mem _ hmem)) h0 hok
    have hjoins := joins_joined hp h0 hagree hw
    have hsize : (joined axis first (second :: rest)).size = (joined axis first (second :: rest)).dims.prod :=
      hw.size_eq_prod
    refine ⟨_, hok, hw, hjoins, ?_, ?_, ?_⟩
    · rw [hsize, prod_joined hp h0 hagree]
    · rw [hsize]
      exact endIn_joined hp h0 hagree fun part hmem => (hparts part hmem).2
    · intro hreach p hpart coords hold
      have hmem := List.getElem_mem hpart
      have hcell := hfaithful hreach _ hmem
        ((first :: second :: rest)[p].dims.offset (coords.map (· - 1)))
      rw [← NDArray.cell_of_holds hold] at hcell
      rw [hjoins.cell_moved p hpart coords hold]
      exact NDArray.stored_of_width_le (hjoins.kind_widest _ hmem) hcell
  · intro hdisagree
    obtain ⟨part, hmem, hdiffer, herror⟩ := join_of_disagree hdisagree
    exact ⟨first, List.mem_cons_self, part, List.mem_cons_of_mem _ hmem, hdiffer, herror⟩

/-- A row of 32-bit numbers, no elements at all, and two complex rows one behind the other. -/
def rowStack : List Value :=
  [.array ⟨[1, 2], #[1, 2], none, .single⟩, .array .empty,
    .array ⟨[1, 2, 2], #[3, 4, 5, 6], some #[0, 0, 0, 7], .double⟩]

theorem rowStack_wellFormed : ∀ v ∈ rowStack, v.WellFormed := by
  intro v hv
  have hrow : NDArray.WellFormed ⟨[1, 2], #[1, 2], none, .single⟩ :=
    NDArray.wellFormed_exact (by decide) (by decide) (by decide) (fun _ h => by cases h) fun _ => rfl
  have hrows : NDArray.WellFormed ⟨[1, 2, 2], #[3, 4, 5, 6], some #[0, 0, 0, 7], .double⟩ :=
    NDArray.wellFormed_exact (by decide) (by decide) (by decide) (fun _ h => by cases h; rfl)
      fun h => by cases h
  simp only [rowStack, List.mem_cons, List.not_mem_nil, or_false] at hv
  rcases hv with rfl | rfl | rfl
  · exact hrow
  · exact NDArray.wellFormed_empty
  · exact hrows

theorem rowStack_agree : Agree 2 (nonempty rowStack) := by
  have hextent : ∀ a ∈ nonempty rowStack, ∀ i, i ≠ 2 → a.dims.extent i = Shape.extent [1, 2] i := by
    intro a ha i hi
    have hcases : a.dims = [1, 2] ∨ a.dims = [1, 2, 2] := by
      have hmem : a ∈ [NDArray.mk [1, 2] #[1, 2] none .single,
          ⟨[1, 2, 2], #[3, 4, 5, 6], some #[0, 0, 0, 7], .double⟩] := ha
      rcases List.mem_pair.mp hmem with rfl | rfl
      · exact .inl rfl
      · exact .inr rfl
    rcases hcases with hd | hd
    · rw [hd]
    · rw [hd]
      match i with
      | 0 | 1 => rfl
      | 2 => contradiction
      | n + 3 => rfl
  intro a ha b hb i hi
  rw [hextent a ha i hi, hextent b hb i hi]

/-- The third row is found behind the first. -/
theorem concat_places_rows : (∀ v ∈ rowStack, v.WellFormed) ∧ 2 ≤ (nonempty rowStack).length ∧
    ∃ c, concat 2 rowStack = .ok c ∧ c.WellFormed ∧ Joins 2 (nonempty rowStack) c ∧ c.size = 6 ∧
      c.get [1, 2, 3] = .ok (.complex ⟨6, 7⟩) := by
  have h2 : 2 ≤ (nonempty rowStack).length := by decide
  have hcount : ((nonempty rowStack).map NDArray.size).sum ≤ maxCount := by decide
  obtain ⟨c, hc, hw, hjoins, hsize, -⟩ := (concat_places rowStack_wellFormed h2).1 rowStack_agree hcount
  have hget : (concat 2 rowStack).bind (·.get [1, 2, 3]) = .ok (.complex ⟨6, 7⟩) := by decide
  rw [hc] at hget
  exact ⟨rowStack_wellFormed, h2, c, hc, hw, hjoins, hsize, hget⟩

end Value
end NumericArrays
