import Mathlib.Algebra.Group.Pi.Basic
import NumericArrays.Proofs.Concat.Placement

/-! Arrays put together from tiles. Whoever knows the tiles and where they lie knows the elements, in
    whatever order they were joined. -/
namespace NumericArrays

namespace Shape

/-- Coordinates that differ from given ones along one axis only. -/
theorem exists_along (axis x : Nat) (c : List Nat) :
    ∃ d : List Nat, ∀ i, d.getD i 1 = if i = axis then x else c.getD i 1 := by
  have hlength : axis < (pad c (axis + 1)).length := by
    simp only [pad, List.length_append, List.length_replicate]
    omega
  refine ⟨(pad c (axis + 1)).set axis x, fun i => ?_⟩
  have hset := extent_set (s := pad c (axis + 1)) (n := x) hlength i
  rw [extent_pad] at hset
  exact hset

end Shape

namespace NDArray

variable {a : NDArray} {c e : List Nat}

theorem cell_congr (h : ∀ i, c.getD i 1 = e.getD i 1) : a.sheet.cell c = a.sheet.cell e := by
  have hholds : a.dims.Holds c ↔ a.dims.Holds e := Shape.Holds.congr (Shape.same_iff_getD.mpr h)
  by_cases hc : a.dims.Holds c
  · rw [cell_of_holds hc, cell_of_holds (hholds.mp hc)]
    congr 1
    apply Shape.offset_congr
    intro i
    rw [Shape.getD_map_pred, Shape.getD_map_pred, h]
  · rw [cell_of_not_holds hc, cell_of_not_holds fun he => hc (hholds.mpr he)]

theorem Faithful.cell (h : a.Faithful) (c : List Nat) : stored a.kind (a.sheet.cell c) = a.sheet.cell c := by
  by_cases hc : a.dims.Holds c
  · rw [cell_of_holds hc]
    exact h _
  · rw [cell_of_not_holds hc, stored_zero]

end NDArray

namespace Concat

variable {axis k m p : Nat} {a b c : NDArray} {parts : List NDArray} {d e : List Nat}

/-! ### Coordinates moved along several axes -/

/-- The coordinates `e` lie behind `d`, as far along each axis as `s` says. -/
def Displaced (s : Nat → Nat) (d e : List Nat) : Prop := ∀ i, e.getD i 1 = d.getD i 1 + s i

/-- What is moved twice passes through coordinates in between. -/
theorem displaced_add_iff {s s' : Nat → Nat} :
    Displaced (s + s') d e ↔ ∃ e', Displaced s d e' ∧ Displaced s' e' e := by
  constructor
  · intro h
    have hmiddle : ∀ i, ((List.range (max d.length e.length)).map fun i => d.getD i 1 + s i).getD i 1 =
        d.getD i 1 + s i := by
      intro i
      by_cases hi : i < max d.length e.length
      · rw [List.getD_eq_getElem _ _ (by simpa using hi)]
        simp
      · -- past both lists nothing is moved
        have hsum : e.getD i 1 = d.getD i 1 + (s i + s' i) := h i
        rw [List.getD_eq_default e 1 (by omega), List.getD_eq_default d 1 (by omega)] at hsum
        rw [List.getD_eq_default _ _ (by simp; omega), List.getD_eq_default d 1 (by omega)]
        omega
    refine ⟨_, hmiddle, fun i => ?_⟩
    rw [hmiddle, h i, Pi.add_apply, add_assoc]
  · rintro ⟨e', hs, hs'⟩ i
    rw [hs' i, hs i, Pi.add_apply, add_assoc]

/-! ### Tiles -/

/-- An array as a part of a larger one, and how far it is moved along each axis. -/
structure Tile where
  part : NDArray
  shift : Nat → Nat

namespace Tile

def Puts (t : Tile) (d e : List Nat) : Prop := t.part.dims.Holds d ∧ Displaced t.shift d e

def move (axis k : Nat) (t : Tile) : Tile := ⟨t.part, t.shift + Pi.single axis k⟩

def still (a : NDArray) : Tile := ⟨a, 0⟩

theorem move_zero (axis : Nat) (t : Tile) : t.move axis 0 = t := by
  rw [move, Pi.single_zero, add_zero]

theorem move_move (axis k m : Nat) (t : Tile) : (t.move axis k).move axis m = t.move axis (k + m) := by
  simp only [move, add_assoc, ← Pi.single_add]

/-- A tile that is moved has its elements moved. -/
theorem puts_move_iff {t : Tile} : (t.move axis k).Puts d e ↔
    ∃ e', t.Puts d e' ∧ Displaced (Pi.single axis k) e' e := by
  simp only [Puts, move, displaced_add_iff]
  constructor
  · rintro ⟨hd, e', h, h'⟩
    exact ⟨e', ⟨hd, h⟩, h'⟩
  · rintro ⟨e', ⟨hd, h⟩, h'⟩
    exact ⟨hd, e', h, h'⟩

end Tile

structure Tiled (tiles : List Tile) (c : NDArray) : Prop where
  inside : ∀ t ∈ tiles, ∀ d e, t.Puts d e → c.dims.Holds e
  covered : ∀ e, c.dims.Holds e → ∃ t ∈ tiles, ∃ d, t.Puts d e
  cell_eq : ∀ t ∈ tiles, ∀ d e, t.Puts d e → c.sheet.cell e = t.part.sheet.cell d

theorem tiled_still (a : NDArray) : Tiled [.still a] a := by
  refine ⟨?_, fun e he => ⟨_, List.mem_singleton_self _, e, he, fun _ => rfl⟩, ?_⟩
  · intro t ht d e h
    obtain rfl := List.mem_singleton.mp ht
    exact (Shape.Holds.congr (Shape.same_iff_getD.mpr h.2)).mpr h.1
  · intro t ht d e h
    obtain rfl := List.mem_singleton.mp ht
    exact NDArray.cell_congr h.2

/-- Arrays of one shape, kind and form that consist of the same tiles hold the same elements. -/
theorem Tiled.trim_eq {tiles tiles' : List Tile} (h : Tiled tiles a) (h' : Tiled tiles' b)
    (hsub : tiles ⊆ tiles') (ha : a.WellFormed) (hb : b.WellFormed) (hd : a.dims = b.dims)
    (hk : a.kind = b.kind) (hc : a.isComplex = b.isComplex) : a.trim = b.trim := by
  refine NDArray.trim_eq_of_cartesian ha hb hd hk hc fun p hp => ?_
  rw [ha.size_eq_prod] at hp
  have hp' : p < b.dims.prod := hd ▸ hp
  obtain ⟨t, ht, d, hputs⟩ := h.covered _ (Shape.holds_placeOf hp)
  rw [← NDArray.cell_placeOf hp, ← NDArray.cell_placeOf hp', ← hd, h.cell_eq t ht d _ hputs,
    h'.cell_eq t (hsub ht) d _ hputs]

/-! ### Rows of tiles -/

/-- The tiles of parts that lie one behind the other along an axis, from `k` on. -/
def row (axis : Nat) : Nat → List (NDArray × List Tile) → List Tile
  | _, [] => []
  | k, (a, tiles) :: rest => tiles.map (Tile.move axis k) ++ row axis (k + a.dims.extent axis) rest

theorem row_append (l l' : List (NDArray × List Tile)) (k : Nat) :
    row axis k (l ++ l') =
      row axis k l ++ row axis (k + (l.map fun x => x.1.dims.extent axis).sum) l' := by
  induction l generalizing k with
  | nil => rfl
  | cons x l ih =>
    simp only [List.cons_append, row, ih, List.append_assoc, List.map_cons, List.sum_cons, add_assoc]

theorem map_move_row (l : List (NDArray × List Tile)) (k m : Nat) :
    (row axis k l).map (Tile.move axis m) = row axis (k + m) l := by
  induction l generalizing k with
  | nil => rfl
  | cons x l ih =>
    have hmove : Tile.move axis m ∘ Tile.move axis k = Tile.move axis (k + m) :=
      funext fun t => Tile.move_move axis k m t
    simp only [row, List.map_append, List.map_map, hmove, ih]
    rw [Nat.add_right_comm]

theorem mem_row {t : Tile} {l : List (NDArray × List Tile)} :
    t ∈ row axis k l ↔ ∃ (p : Nat) (hp : p < l.length), ∃ u ∈ l[p].2,
      t = u.move axis (k + lead axis (l.map Prod.fst) p) := by
  induction l generalizing k with
  | nil => simp [row]
  | cons x l ih =>
    have hlead : ∀ p, lead axis ((x :: l).map Prod.fst) (p + 1) =
        x.1.dims.extent axis + lead axis (l.map Prod.fst) p := fun p => by simp [lead]
    simp only [row, List.mem_append, List.mem_map, ih]
    constructor
    · rintro (⟨u, hu, rfl⟩ | ⟨p, hp, u, hu, rfl⟩)
      · exact ⟨0, by simp, u, hu, by simp [lead]⟩
      · exact ⟨p + 1, by simpa using hp, u, hu, by rw [hlead, add_assoc]⟩
    · rintro ⟨p, hp, u, hu, rfl⟩
      cases p with
      | zero => exact .inl ⟨u, hu, by simp [lead]⟩
      | succ p => exact .inr ⟨p, by simpa using hp, u, hu, by rw [hlead, add_assoc]⟩

/-! ### Joined arrays -/

namespace Joins

variable (h : Joins axis parts c)

include h

/-- The elements of a part lie behind those of the parts before it. -/
theorem placed (hf : ∀ part ∈ parts, part.Faithful) (hp : p < parts.length)
    (hd : parts[p].dims.Holds d) (he : Displaced (Pi.single axis (lead axis parts p)) d e) :
    c.dims.Holds e ∧ c.sheet.cell e = parts[p].sheet.cell d := by
  have hmem : parts[p] ∈ parts := List.getElem_mem hp
  have hi : ∀ i, e.getD i 1 = if i = axis then d.getD axis 1 + lead axis parts p else d.getD i 1 := by
    intro i
    rw [he i, Pi.single_apply]
    split
    · rename_i haxis
      rw [haxis]
    · rw [add_zero]
  constructor
  · intro i
    rw [hi]
    split
    · rename_i haxis
      have hnext : lead axis parts (p + 1) = lead axis parts p + parts[p].dims.extent axis := lead_succ hp
      have hle : lead axis parts (p + 1) ≤ lead axis parts parts.length := lead_mono hp
      rw [lead_length, ← h.extent_axis] at hle
      have haxisd := hd axis
      rw [haxis]
      omega
    · rename_i haxis
      rw [h.extent_of_ne _ hmem i haxis]
      exact hd i
  · have hmoved : ∀ i, e.getD i 1 = (moved axis parts p d).getD i 1 := by
      intro i
      rw [hi, getD_moved]
    rw [NDArray.cell_congr hmoved, h.cell_moved p hp d hd]
    exact NDArray.stored_of_width_le (h.kind_widest _ hmem) ((hf _ hmem).cell d)

/-- Every element comes from a part. -/
theorem exists_placed (he : c.dims.Holds e) : ∃ (p : Nat) (hp : p < parts.length) (d : List Nat),
    parts[p].dims.Holds d ∧ Displaced (Pi.single axis (lead axis parts p)) d e := by
  have hin := he axis
  rw [h.extent_axis, ← lead_length] at hin
  obtain ⟨p, hp, hlow, hup⟩ := exists_part axis parts (x := e.getD axis 1 - 1) (by omega)
  obtain ⟨d, hd⟩ := Shape.exists_along axis (e.getD axis 1 - lead axis parts p) e
  refine ⟨p, hp, d, fun i => ?_, fun i => ?_⟩
  · rw [hd]
    split
    · rename_i haxis
      rw [haxis]
      omega
    · rename_i haxis
      rw [← h.extent_of_ne _ (List.getElem_mem hp) i haxis]
      exact he i
  · rw [hd, Pi.single_apply]
    split
    · rename_i haxis
      rw [haxis]
      omega
    · rw [add_zero]

end Joins

/-- What is joined from parts consists of their tiles, one part behind the other. -/
theorem Joins.tiled {l : List (NDArray × List Tile)} (h : Joins axis (l.map Prod.fst) c)
    (hf : ∀ x ∈ l, x.1.Faithful) (ht : ∀ x ∈ l, Tiled x.2 x.1) : Tiled (row axis 0 l) c := by
  have hf' : ∀ part ∈ l.map Prod.fst, part.Faithful := List.forall_mem_map.mpr hf
  have htiled : ∀ p (hp : p < l.length) (hp' : p < (l.map Prod.fst).length),
      Tiled l[p].2 (l.map Prod.fst)[p] := by
    intro p hp hp'
    rw [List.getElem_map]
    exact ht _ (List.getElem_mem hp)
  -- an element of a tile lies in its part, and then behind the parts before that
  have hplaced : ∀ t ∈ row axis 0 l, ∀ d e, t.Puts d e →
      c.dims.Holds e ∧ c.sheet.cell e = t.part.sheet.cell d := by
    intro t htile d e hputs
    obtain ⟨p, hp, u, hu, rfl⟩ := mem_row.mp htile
    rw [Nat.zero_add] at hputs
    obtain ⟨e', hu', he'⟩ := Tile.puts_move_iff.mp hputs
    have hp' : p < (l.map Prod.fst).length := by simpa using hp
    have hpart := htiled p hp hp'
    obtain ⟨hheld, hcell⟩ := h.placed hf' hp' (hpart.inside u hu d e' hu') he'
    exact ⟨hheld, hcell.trans (hpart.cell_eq u hu d e' hu')⟩
  refine ⟨fun t htile d e hputs => (hplaced t htile d e hputs).1, fun e he => ?_,
    fun t htile d e hputs => (hplaced t htile d e hputs).2⟩
  obtain ⟨p, hp', e', he', hmoved⟩ := h.exists_placed he
  have hp : p < l.length := by simpa using hp'
  obtain ⟨u, hu, d, hputs⟩ := (htiled p hp hp').covered e' he'
  refine ⟨u.move axis (0 + lead axis (l.map Prod.fst) p), mem_row.mpr ⟨p, hp, u, hu, rfl⟩, d, ?_⟩
  rw [Nat.zero_add]
  exact Tile.puts_move_iff.mpr ⟨e', hputs, hmoved⟩

end Concat
end NumericArrays
