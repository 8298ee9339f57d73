import NumericArrays.Proofs.Concat.Nested

/-! Arrays put together from four blocks: along the one axis first, or along the other one. -/
namespace NumericArrays

namespace Concat

variable {j k : Nat} {a b c d x y : NDArray}

namespace Tile

theorem move_comm (j k m n : Nat) (t : Tile) : (t.move j m).move k n = (t.move k n).move j m := by
  simp only [move, add_right_comm]

end Tile

/-- Pairs along one axis agree along another one if their members do. -/
theorem agree_of_pairs (hx : Combines j [a, b] x) (hy : Combines j [c, d] y) (hac : Agree k [a, c])
    (hbd : Agree k [b, d]) : Agree k [x, y] := by
  apply agree_pair
  intro i hi
  have haci := hac a (by simp) c (by simp) i hi
  by_cases hij : i = j
  · rw [hij, hx.extent_axis, hy.extent_axis]
    rw [hij] at haci hi
    simp [haci, hbd b (by simp) d (by simp) j hi]
  · rw [hx.extent_of_ne a (by simp) i hij, hy.extent_of_ne c (by simp) i hij, haci]

/-- `m` consists of `a` and `b` along the axis `j`, and of `c` and `d` behind them along the axis `k`. -/
structure Blocks (j k : Nat) (a b c d m : NDArray) : Prop where
  wellFormed : m.WellFormed
  size_eq : m.size = a.size + b.size + c.size + d.size
  length_eq : m.dims.length =
    max (max (max a.dims.length b.dims.length) (max c.dims.length d.dims.length)) (max (j + 1) (k + 1))
  extent_inner : m.dims.extent j = a.dims.extent j + b.dims.extent j
  extent_outer : m.dims.extent k = a.dims.extent k + c.dims.extent k
  extent_of_ne : ∀ i, i ≠ j → i ≠ k → m.dims.extent i = a.dims.extent i
  kind_eq : m.kind = (a.kind.promote b.kind).promote (c.kind.promote d.kind)
  isComplex_eq : m.isComplex = ((a.isComplex || b.isComplex) || (c.isComplex || d.isComplex))
  tiled : Tiled [.still a, (Tile.still b).move j (a.dims.extent j), (Tile.still c).move k (a.dims.extent k),
    ((Tile.still d).move j (c.dims.extent j)).move k (a.dims.extent k)] m

section

variable (hp : ∀ part ∈ [a, b, c, d], Sound part) (hjk : j ≠ k) (hab : Agree j [a, b])
  (hcd : Agree j [c, d]) (hac : Agree k [a, c]) (hbd : Agree k [b, d])
  (hfits : a.size + b.size + c.size + d.size ≤ maxCount)

include hp hab hcd hfits in
theorem combines_pairs : Combines j [a, b] (joined j a [b]) ∧ Combines j [c, d] (joined j c [d]) := by
  simp only [List.forall_mem_cons, List.not_mem_nil, IsEmpty.forall_iff, implies_true, and_true] at hp
  obtain ⟨ha, hb, hc, hd⟩ := hp
  exact ⟨combines_joined (by simpa using ⟨ha, hb⟩) hab (by simp; omega),
    combines_joined (by simpa using ⟨hc, hd⟩) hcd (by simp; omega)⟩

include hp hab hcd hac hbd hfits in
/-- The pairs can be joined in their turn. -/
theorem pairs_fit : (∀ part ∈ [joined j a [b], joined j c [d]], Sound part) ∧
    Agree k [joined j a [b], joined j c [d]] ∧
      ([joined j a [b], joined j c [d]].map NDArray.size).sum ≤ maxCount := by
  obtain ⟨hx, hy⟩ := combines_pairs hp hab hcd hfits
  refine ⟨by simpa using ⟨hx.sound, hy.sound⟩, agree_of_pairs hx hy hac hbd, ?_⟩
  simp only [List.map_cons, List.map_nil, List.sum_cons, List.sum_nil, hx.size_eq, hy.size_eq]
  omega

include hp hjk hab hcd hac hbd hfits in
theorem blocks_joined : Blocks j k a b c d (joined k (joined j a [b]) [joined j c [d]]) := by
  obtain ⟨hx, hy⟩ := combines_pairs hp hab hcd hfits
  obtain ⟨hpair, hxy, hsum⟩ := pairs_fit hp hab hcd hac hbd hfits
  have hm := combines_joined hpair hxy hsum
  have hxk : (joined j a [b]).dims.extent k = a.dims.extent k :=
    hx.extent_of_ne a (by simp) k hjk.symm
  constructor
  case wellFormed => exact hm.sound.wellFormed
  case size_eq =>
    rw [hm.size_eq]
    simp only [List.map_cons, List.map_nil, List.sum_cons, List.sum_nil, hx.size_eq, hy.size_eq]
    omega
  case length_eq =>
    simp only [length_joined, rankOf_pair]
    rw [max_max_max_comm _ (j + 1), max_self, max_assoc]
  case extent_inner =>
    rw [hm.extent_of_ne _ List.mem_cons_self j hjk, hx.extent_axis]
    simp
  case extent_outer =>
    rw [hm.extent_axis]
    simp [hxk, hy.extent_of_ne c (by simp) k hjk.symm]
  case extent_of_ne =>
    intro i hj hk
    rw [hm.extent_of_ne _ List.mem_cons_self i hk, hx.extent_of_ne a (by simp) i hj]
  case kind_eq => rw [hm.kind_eq, kindOf_pair, hx.kind_eq, hy.kind_eq, kindOf_pair, kindOf_pair]
  case isComplex_eq =>
    rw [hm.isComplex_eq]
    simp [hx.isComplex_eq, hy.isComplex_eq]
  case tiled =>
    have htiled := tiled_pair hpair hxy hsum hx.tiled hy.tiled
    rw [hxk] at htiled
    simpa [alone, row, Tile.move_zero] using htiled

include hp hjk hab hcd hac hbd hfits in
/-- It makes no difference along which axis blocks are joined first. -/
theorem joined_blocks : joined k (joined j a [b]) [joined j c [d]] =
    joined j (joined k a [c]) [joined k b [d]] := by
  have hp' : ∀ part ∈ [a, c, b, d], Sound part := by simpa [and_comm, and_assoc, and_left_comm] using hp
  have hfits' : a.size + c.size + b.size + d.size ≤ maxCount := by omega
  have hm := blocks_joined hp hjk hab hcd hac hbd hfits
  have hm' := blocks_joined hp' hjk.symm hac hbd hab hcd hfits'
  obtain ⟨hpair, hxy, hsum⟩ := pairs_fit hp hab hcd hac hbd hfits
  obtain ⟨hpair', hxy', hsum'⟩ := pairs_fit hp' hac hbd hab hcd hfits'
  rw [← trim_joined hpair hxy hsum, ← trim_joined hpair' hxy' hsum']
  refine hm.tiled.trim_eq hm'.tiled ?_ hm.wellFormed hm'.wellFormed ?_ ?_ ?_
  · -- the last block lies behind both of its neighbours
    have hj : c.dims.extent j = a.dims.extent j := hac c (by simp) a (by simp) j hjk
    have hk : b.dims.extent k = a.dims.extent k := hab b (by simp) a (by simp) k hjk.symm
    rw [hj, hk, Tile.move_comm]
    simp
  · apply Shape.ext_extent
    · rw [hm.length_eq, hm'.length_eq, max_max_max_comm a.dims.length, max_comm (j + 1)]
    · intro i
      by_cases hj : i = j
      · rw [hj, hm.extent_inner, hm'.extent_outer]
      · by_cases hk : i = k
        · rw [hk, hm.extent_outer, hm'.extent_inner]
        · rw [hm.extent_of_ne i hj hk, hm'.extent_of_ne i hk hj]
  · rw [hm.kind_eq, hm'.kind_eq, Storage.promote_assoc, Storage.promote_assoc,
      ← Storage.promote_assoc b.kind, Storage.promote_comm b.kind, Storage.promote_assoc]
  · rw [hm.isComplex_eq, hm'.isComplex_eq]
    ac_rfl

end

end Concat

namespace Value

open Concat

variable {j k axis : Nat} {a b c d : Value}

/-- Two values with elements whose shapes agree are joined. -/
theorem concat_pair_of_agree (hv : ∀ v ∈ [a, b], Sound v.toArray) (h : Agree axis [a.toArray, b.toArray])
    (hfits : a.size + b.size ≤ maxCount) :
    concat axis [a, b] = .ok (joined axis a.toArray [b.toArray]) := by
  have ha := hv a (by simp)
  have hb := hv b (by simp)
  have hp : ∀ part ∈ [a.toArray, b.toArray], Sound part := by simpa using ⟨ha, hb⟩
  rw [concat_of_nonempty (nonempty_pair ha.nonempty hb.nonempty)]
  exact (join_eq_ok_iff hp).mpr ⟨h, by simpa [size_toArray] using hfits, rfl⟩

/-- Joining pairs of blocks and then the pairs. -/
theorem concatGroups_blocks (hv : ∀ v ∈ [a, b, c, d], Sound v.toArray)
    (hab : Agree j [a.toArray, b.toArray]) (hcd : Agree j [c.toArray, d.toArray])
    (hac : Agree k [a.toArray, c.toArray]) (hbd : Agree k [b.toArray, d.toArray])
    (hfits : a.size + b.size + c.size + d.size ≤ maxCount) : concatGroups j k [[a, b], [c, d]] =
      .ok (joined k (joined j a.toArray [b.toArray]) [joined j c.toArray [d.toArray]]) := by
  have hp : ∀ part ∈ [a.toArray, b.toArray, c.toArray, d.toArray], Sound part := by simpa using hv
  obtain ⟨hpair, hxy, hsum⟩ := pairs_fit hp hab hcd hac hbd (by simpa [size_toArray] using hfits)
  refine concatGroups_pair_eq_ok_iff.mpr ⟨_, _, concat_pair_of_agree ?_ hab ?_,
    concat_pair_of_agree ?_ hcd ?_, concat_pair_of_agree ?_ hxy ?_⟩
  · exact fun v hmem => hv v (by grind)
  · omega
  · exact fun v hmem => hv v (by grind)
  · omega
  · simpa [toArray] using hpair
  · simpa [size] using hsum

/-- Four blocks may be put together in either order: the rows of blocks first, or the columns. Both
    succeed with the same array, in which each of them is found at its place. -/
theorem concat_blocks (hjk : j ≠ k)
    (hv : ∀ v ∈ [a, b, c, d], v.WellFormed ∧ v.Faithful ∧ v.size ≠ 0)
    (hab : Agree j [a.toArray, b.toArray]) (hcd : Agree j [c.toArray, d.toArray])
    (hac : Agree k [a.toArray, c.toArray]) (hbd : Agree k [b.toArray, d.toArray])
    (hfits : a.size + b.size + c.size + d.size ≤ maxCount) :
    ∃ m, concatGroups j k [[a, b], [c, d]] = .ok m ∧ concatGroups k j [[a, c], [b, d]] = .ok m ∧
      Blocks j k a.toArray b.toArray c.toArray d.toArray m := by
  have hsound : ∀ v ∈ [a, b, c, d], Sound v.toArray := by
    intro v hmem
    obtain ⟨hw, hf, h0⟩ := hv v hmem
    exact ⟨hw.toArray, by rwa [size_toArray], hf.toArray⟩
  have hp : ∀ part ∈ [a.toArray, b.toArray, c.toArray, d.toArray], Sound part := by simpa using hsound
  have hfits' : a.toArray.size + b.toArray.size + c.toArray.size + d.toArray.size ≤ maxCount := by
    simpa only [size_toArray] using hfits
  refine ⟨_, concatGroups_blocks hsound hab hcd hac hbd hfits, ?_,
    blocks_joined hp hjk hab hcd hac hbd hfits'⟩
  rw [joined_blocks hp hjk hab hcd hac hbd hfits']
  exact concatGroups_blocks (fun v hmem => hsound v (by grind)) hac hbd hab hcd (by omega)

/-- A truth value and a 32-bit row above a complex column and a square. -/
theorem concat_blocks_square :
    let a : Value := .number (.logical true)
    let b : Value := .array ⟨[1, 2, 1], #[2, 3], none, .single⟩
    let c : Value := .array ⟨[2, 1], #[4, 5], some #[6, 7], .double⟩
    let d : Value := .array ⟨[2, 2], #[8, 9, 10, 11], none, .double⟩
    (∀ v ∈ [a, b, c, d], v.WellFormed ∧ v.Faithful ∧ v.size ≠ 0) ∧
      Agree 1 [a.toArray, b.toArray] ∧ Agree 1 [c.toArray, d.toArray] ∧
      Agree 0 [a.toArray, c.toArray] ∧ Agree 0 [b.toArray, d.toArray] ∧
      a.size + b.size + c.size + d.size ≤ maxCount ∧
      ∃ m, concatGroups 1 0 [[a, b], [c, d]] = .ok m ∧ concatGroups 0 1 [[a, c], [b, d]] = .ok m ∧
        m.kind = .double ∧ m.get [1, 3] = .ok (.complex ⟨3, 0⟩) ∧
          m.get [3, 1] = .ok (.complex ⟨5, 7⟩) := by
  intro a b c d
  have hb : b.WellFormed ∧ b.Faithful ∧ b.size ≠ 0 :=
    ⟨NDArray.wellFormed_exact (by decide) (by decide) (by decide) nofun fun _ => rfl,
      NDArray.faithful_of_real (by decide), by decide⟩
  have hc : c.WellFormed ∧ c.Faithful ∧ c.size ≠ 0 :=
    ⟨NDArray.wellFormed_exact (by decide) (by decide) (by decide) (fun _ h => by cases h; decide) nofun,
      NDArray.faithful_of_double rfl, by decide⟩
  have hd : d.WellFormed ∧ d.Faithful ∧ d.size ≠ 0 :=
    ⟨NDArray.wellFormed_exact (by decide) (by decide) (by decide) nofun nofun,
      NDArray.faithful_of_double rfl, by decide⟩
  have hv : ∀ v ∈ [a, b, c, d], v.WellFormed ∧ v.Faithful ∧ v.size ≠ 0 := by
    simpa only [List.forall_mem_cons, List.not_mem_nil, IsEmpty.forall_iff, implies_true, and_true] using
      ⟨⟨trivial, trivial, by decide⟩, hb, hc, hd⟩
  have hab : Agree 1 [a.toArray, b.toArray] := agree_pair fun
    | 0, _ | 2, _ | _ + 3, _ => rfl
  have hcd : Agree 1 [c.toArray, d.toArray] := agree_pair fun
    | 0, _ | _ + 2, _ => rfl
  have hac : Agree 0 [a.toArray, c.toArray] := agree_pair fun
    | 1, _ | _ + 2, _ => rfl
  have hbd : Agree 0 [b.toArray, d.toArray] := agree_pair fun
    | 1, _ | 2, _ | _ + 3, _ => rfl
  have hfits : a.size + b.size + c.size + d.size ≤ maxCount := by decide
  obtain ⟨m, hm, hm', hblocks⟩ := concat_blocks (by decide) hv hab hcd hac hbd hfits
  have hget : (concatGroups 1 0 [[a, b], [c, d]]).map (fun m => (m.get [1, 3], m.get [3, 1])) =
      .ok (.ok (.complex ⟨3, 0⟩), .ok (.complex ⟨5, 7⟩)) := by decide
  rw [hm] at hget
  obtain ⟨h13, h31⟩ := Prod.mk.inj (Except.ok.inj hget)
  exact ⟨hv, hab, hcd, hac, hbd, hfits, m, hm, hm', hblocks.kind_eq, h13, h31⟩

end Value
end NumericArrays
