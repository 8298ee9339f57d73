import Mathlib.Data.List.Nodup
import NumericArrays.Proofs.Shape.Grid
import NumericArrays.Proofs.Sheet.Basic

/-! The written form of an array shows every cell once, where its coordinates say. -/
namespace NumericArrays

namespace Shape

variable {s : Shape} {c rest : List Nat} {p row col : Nat}

/-! ### Pages -/

/-- The cells of a row, column by column. On the axes past the second they have the coordinates `rest`. -/
def rowCells (s : Shape) (rest : List Nat) (row : Nat) : List (List Nat) :=
  (List.range (s.extent 1)).map fun col => (row + 1) :: (col + 1) :: rest

def pageCells (s : Shape) (rest : List Nat) : List (List (List Nat)) :=
  (List.range (s.extent 0)).map (s.rowCells rest)

/-- The pages in storage order, one for each place on the axes past the second. -/
def pages (s : Shape) : List (List (List (List Nat))) :=
  let beyond : Shape := s.drop 2
  (List.range beyond.prod).map fun p => s.pageCells (beyond.placeOf p)

def cells (s : Shape) : List (List Nat) := s.pages.flatten.flatten

theorem eq_cons_cons_drop (h : 2 ≤ s.length) : s = s.extent 0 :: s.extent 1 :: s.drop 2 := by
  match s, h with
  | d :: e :: rest, _ => rfl

theorem mem_cells : c ∈ s.cells ↔
    ∃ p < (s.drop 2).prod, ∃ row < s.extent 0, ∃ col < s.extent 1,
      c = (row + 1) :: (col + 1) :: placeOf (s.drop 2) p := by
  simp only [cells, pages, pageCells, List.mem_flatten, List.mem_map, List.mem_range]
  constructor
  · rintro ⟨cells, ⟨rows, ⟨p, hp, rfl⟩, hcells⟩, hc⟩
    obtain ⟨row, hrow, rfl⟩ := List.mem_map.mp hcells
    obtain ⟨col, hcol, rfl⟩ := List.mem_map.mp hc
    exact ⟨p, hp, row, List.mem_range.mp hrow, col, List.mem_range.mp hcol, rfl⟩
  · rintro ⟨p, hp, row, hrow, col, hcol, rfl⟩
    refine ⟨_, ⟨_, ⟨p, hp, rfl⟩, List.mem_map_of_mem (List.mem_range.mpr hrow)⟩, ?_⟩
    exact List.mem_map_of_mem (List.mem_range.mpr hcol)

/-- The pages list the grid. -/
theorem mem_cells_iff_grid (h : 2 ≤ s.length) : c ∈ s.cells ↔ s.Grid c := by
  rw [mem_cells]
  conv_rhs => rw [eq_cons_cons_drop h]
  constructor
  · rintro ⟨p, hp, row, hrow, col, hcol, rfl⟩
    exact .cons ⟨Nat.le_add_left 1 row, hrow⟩ (.cons ⟨Nat.le_add_left 1 col, hcol⟩ (grid_placeOf hp))
  · intro hgrid
    obtain ⟨x, c, ⟨hx, hx'⟩, hrest, rfl⟩ := List.forall₂_cons_left_iff.mp hgrid
    obtain ⟨y, c, ⟨hy, hy'⟩, hc, rfl⟩ := List.forall₂_cons_left_iff.mp hrest
    replace hc : Grid (s.drop 2) c := hc
    have hlt := offset_lt (grid_iff.mp hc).2.covers
    -- on the axes past the second the grid is walked through by position
    have hplace : placeOf (s.drop 2) (offset (s.drop 2) (c.map (· - 1))) = c := by
      refine (grid_placeOf hlt).eq_of_same hc (same_iff_getD.mpr fun axis => ?_)
      have hback := getD_coordsOf_offset (grid_iff.mp hc).2.covers axis
      have hpos := ((grid_iff.mp hc).2 axis).1
      rw [getD_placeOf, hback, getD_map_pred]
      omega
    refine ⟨_, hlt, x - 1, by omega, y - 1, by omega, ?_⟩
    rw [hplace, Nat.sub_add_cancel hx, Nat.sub_add_cancel hy]

/-- Different places are different lists of coordinates. -/
theorem placeOf_inj {q : Nat} (hp : p < s.prod) (hq : q < s.prod) (h : s.placeOf p = s.placeOf q) :
    p = q := by
  rw [← offset_placeOf hp, h, offset_placeOf hq]

theorem nodup_rowCells : (s.rowCells rest row).Nodup := by
  refine List.nodup_range.map fun col col' h => ?_
  simpa using h

theorem nodup_pageCells : (s.pageCells rest).flatten.Nodup := by
  rw [List.nodup_flatten]
  constructor
  · intro cells hcells
    obtain ⟨row, -, rfl⟩ := List.mem_map.mp hcells
    exact nodup_rowCells
  · refine List.pairwise_map.mpr (List.nodup_range.imp fun hne c hc hc' => hne ?_)
    obtain ⟨col, -, rfl⟩ := List.mem_map.mp hc
    obtain ⟨col', -, heq⟩ := List.mem_map.mp hc'
    simpa using (List.cons.inj heq).1.symm

/-- No cell is listed twice. -/
theorem nodup_cells (s : Shape) : s.cells.Nodup := by
  have hflat : s.cells = ((List.range (s.drop 2).prod).map fun p =>
      (s.pageCells (placeOf (s.drop 2) p)).flatten).flatten := by
    rw [cells, pages, List.flatten_flatten, List.map_map]
    rfl
  rw [hflat, List.nodup_flatten]
  constructor
  · intro cells hcells
    obtain ⟨p, -, rfl⟩ := List.mem_map.mp hcells
    exact nodup_pageCells
  · refine List.pairwise_map.mpr (List.nodup_range.imp_of_mem fun hp hq hne c hc hc' => hne ?_)
    simp only [pageCells, rowCells, List.mem_flatten, List.mem_map, List.mem_range] at hc hc'
    obtain ⟨-, ⟨row, -, rfl⟩, hc⟩ := hc
    obtain ⟨-, ⟨row', -, rfl⟩, hc'⟩ := hc'
    obtain ⟨col, -, rfl⟩ := List.mem_map.mp hc
    obtain ⟨col', -, heq⟩ := List.mem_map.mp hc'
    have hplace := (List.cons.inj (List.cons.inj heq).2).2
    exact (placeOf_inj (List.mem_range.mp hq) (List.mem_range.mp hp) hplace).symm

end Shape

namespace NDArray

variable {a : NDArray} {page row col : Nat}

/-! ### Cells and positions -/

def writtenAt (a : NDArray) (c : List Nat) : String :=
  if a.isComplex then Number.complexText (a.sheet.cell c)
  else Decimal.Style.plain.write (a.sheet.cell c).re

/-- Elements of a row separated by a blank, each row on a line, each page under its number if there are
    several. -/
def layout (written : List Nat → String) (pages : List (List (List (List Nat)))) : String :=
  .join (pages.mapIdx fun i rows =>
    (if 1 < pages.length then "page " ++ toString (i + 1) ++ ":\n" else "") ++
      .join (rows.map fun cells => " ".intercalate (cells.map written) ++ "\n"))

theorem WellFormed.size_eq_pages (ha : a.WellFormed) :
    a.size = a.dims.extent 0 * a.dims.extent 1 * (a.dims.drop 2).prod := by
  rw [ha.size_eq_prod]
  conv_lhs => rw [Shape.eq_cons_cons_drop ha.two_axes]
  rw [List.prod_cons, List.prod_cons, mul_assoc]

/-- The position at which a page, a row and a column meet. -/
theorem offset_cell (ha : a.WellFormed) (hp : page < (a.dims.drop 2).prod) :
    a.dims.offset (((row + 1) :: (col + 1) :: Shape.placeOf (a.dims.drop 2) page).map (· - 1)) =
      page * (a.dims.extent 0 * a.dims.extent 1) + row + col * a.dims.extent 0 := by
  have hbeyond := Shape.offset_placeOf hp
  generalize Shape.placeOf (a.dims.drop 2) page = rest at hbeyond
  conv_lhs => rw [Shape.eq_cons_cons_drop ha.two_axes]
  rw [List.map_cons, List.map_cons, Shape.offset, Shape.offset, hbeyond]
  simp only [Nat.add_sub_cancel]
  ring

theorem grid_cell (ha : a.WellFormed) (hp : page < (a.dims.drop 2).prod)
    (hrow : row < a.dims.extent 0) (hcol : col < a.dims.extent 1) :
    a.dims.Grid ((row + 1) :: (col + 1) :: Shape.placeOf (a.dims.drop 2) page) :=
  (Shape.mem_cells_iff_grid ha.two_axes).mp
    (Shape.mem_cells.mpr ⟨page, hp, row, hrow, col, hcol, rfl⟩)

/-- Where a page, a row and a column meet there is an element. -/
theorem cell_position_lt (ha : a.WellFormed) (hp : page < (a.dims.drop 2).prod)
    (hrow : row < a.dims.extent 0) (hcol : col < a.dims.extent 1) :
    page * (a.dims.extent 0 * a.dims.extent 1) + row + col * a.dims.extent 0 < a.size := by
  rw [← offset_cell ha hp, ha.size_eq_prod]
  exact Shape.offset_lt (Shape.grid_iff.mp (grid_cell ha hp hrow hcol)).2.covers

theorem elementText_eq (ha : a.WellFormed) (hp : page < (a.dims.drop 2).prod)
    (hrow : row < a.dims.extent 0) (hcol : col < a.dims.extent 1) :
    a.elementText (page * (a.dims.extent 0 * a.dims.extent 1) + row + col * a.dims.extent 0) =
      a.writtenAt ((row + 1) :: (col + 1) :: Shape.placeOf (a.dims.drop 2) page) := by
  rw [writtenAt, cell_of_holds (Shape.grid_iff.mp (grid_cell ha hp hrow hcol)).2, offset_cell ha hp,
    elementText, isComplex]
  cases a.imag <;> rfl

/-! ### The written form -/

theorem rowText_eq (ha : a.WellFormed) (hp : page < (a.dims.drop 2).prod) (hrow : row < a.dims.extent 0) :
    a.rowText page row = " ".intercalate
      ((a.dims.rowCells (Shape.placeOf (a.dims.drop 2) page) row).map a.writtenAt) := by
  rw [rowText, Shape.rowCells, List.map_map]
  congr 1
  refine List.map_congr_left fun col hcol => ?_
  exact elementText_eq ha hp hrow (List.mem_range.mp hcol)

theorem pageText_eq (ha : a.WellFormed) (hp : page < (a.dims.drop 2).prod) :
    a.pageText page = .join ((a.dims.pageCells (Shape.placeOf (a.dims.drop 2) page)).map fun cells =>
      " ".intercalate (cells.map a.writtenAt) ++ "\n") := by
  rw [pageText, Shape.pageCells, List.map_map]
  congr 1
  refine List.map_congr_left fun row hrow => ?_
  rw [rowText_eq ha hp (List.mem_range.mp hrow)]
  rfl

theorem text_eq_layout (ha : a.WellFormed) (h : a.dims.extent 0 * a.dims.extent 1 ≠ 0) :
    a.text = layout a.writtenAt a.dims.pages := by
  have hpages : a.size / (a.dims.extent 0 * a.dims.extent 1) = (a.dims.drop 2).prod := by
    rw [ha.size_eq_pages, Nat.mul_div_cancel_left _ (Nat.pos_of_ne_zero h)]
  simp only [text, if_neg h, hpages, layout]
  congr 1
  apply List.ext_getElem
  · simp [Shape.pages]
  · intro i hi _
    have hp : i < (a.dims.drop 2).prod := by simpa using hi
    simp only [List.getElem_map, List.getElem_range, List.getElem_mapIdx, Shape.pages,
      List.length_map, List.length_range, pageText_eq ha hp]

/-- An array with elements is written page by page, row by row and column by column, each element once at
    its coordinates, and nothing outside its buffers is read. An array without elements shows its shape if
    a page has no room for elements; if only the number of pages is zero nothing is written. -/
theorem text_complete (ha : a.WellFormed) :
    (a.size ≠ 0 → a.text = layout a.writtenAt a.dims.pages) ∧
    a.dims.cells.Nodup ∧ (∀ c, c ∈ a.dims.cells ↔ a.dims.Grid c) ∧
    (∀ page row col, page < a.size / (a.dims.extent 0 * a.dims.extent 1) → row < a.dims.extent 0 →
      col < a.dims.extent 1 →
      let p := page * (a.dims.extent 0 * a.dims.extent 1) + row + col * a.dims.extent 0
      p < a.size ∧ p < a.real.size ∧ ∀ im, a.imag = some im → p < im.size) ∧
    (a.size = 0 → a.text =
      if a.dims.extent 0 = 0 ∨ a.dims.extent 1 = 0 then "[](" ++ dimsText a.dims ++ ")" else "") := by
  have hsize := ha.size_eq_pages
  refine ⟨fun h => text_eq_layout ha ?_, Shape.nodup_cells _,
    fun c => Shape.mem_cells_iff_grid ha.two_axes, fun page row col hpage hrow hcol => ?_, fun h => ?_⟩
  · exact fun hzero => h (by rw [hsize, hzero, zero_mul])
  · have hpos : 0 < a.dims.extent 0 * a.dims.extent 1 :=
      Nat.mul_pos (Nat.zero_lt_of_lt hrow) (Nat.zero_lt_of_lt hcol)
    rw [hsize, Nat.mul_div_cancel_left _ hpos] at hpage
    have hlt := cell_position_lt ha hpage hrow hcol
    refine ⟨hlt, hlt.trans_le ha.size_le, fun im him => ?_⟩
    rw [ha.imag_size im him]
    exact hlt.trans_le ha.size_le
  · by_cases hzero : a.dims.extent 0 * a.dims.extent 1 = 0
    · rw [text, if_pos hzero, if_pos (Nat.mul_eq_zero.mp hzero)]
    · have hnone : (a.dims.drop 2).prod = 0 := (Nat.mul_eq_zero.mp (hsize ▸ h)).resolve_left hzero
      rw [if_neg (mt Nat.mul_eq_zero.mpr hzero), text_eq_layout ha hzero, layout, Shape.pages, hnone]
      rfl

def twoPages : NDArray := ⟨[1, 2, 2], #[1, 2, 3, 4], none, .double⟩

theorem twoPages_wellFormed : twoPages.WellFormed :=
  wellFormed_exact (by decide) (by decide) rfl (fun _ h => by cases h) fun h => by cases h

theorem text_complete_twoPages :
    twoPages.WellFormed ∧ twoPages.text = layout twoPages.writtenAt twoPages.dims.pages ∧
      twoPages.text = "page 1:\n1 2\npage 2:\n3 4\n" ∧
      (∀ c, c ∈ twoPages.dims.cells ↔ twoPages.dims.Grid c) := by
  obtain ⟨htext, -, hcells, -, -⟩ := text_complete twoPages_wellFormed
  refine ⟨twoPages_wellFormed, htext (by decide), by decide +kernel, hcells⟩

/-- Three pages without elements show their shape; with pages for six elements and no page there is no
    text at all. -/
theorem text_of_no_pages :
    WellFormed ⟨[2, 3, 0], #[], none, .double⟩ ∧ size ⟨[2, 3, 0], #[], none, .double⟩ = 0 ∧
      text ⟨[2, 0, 3], #[], none, .double⟩ = "[]([2, 0, 3])" ∧
      text ⟨[2, 3, 0], #[], none, .double⟩ = "" := by
  have hwell : WellFormed ⟨[2, 3, 0], #[], none, .double⟩ :=
    wellFormed_exact (by decide) (by decide) rfl (fun _ h => by cases h) fun h => by cases h
  exact ⟨hwell, by decide, by cbv, by cbv⟩

end NDArray
end NumericArrays
