import NumericArrays.Kernel.Triangular
import NumericArrays.Proofs.Kernel.Buffer
import NumericArrays.Proofs.Mat.LeastSquares

/-! Substitution in memory finds the unknowns that substitution finds, and stays within its buffers. -/
namespace NumericArrays

/-! ### One unknown after the other -/

namespace Mat

variable {K : Type} {r m n : Nat}

def before (i : Fin r) : List (Fin r) := (List.finRange r).filter (· < i)

theorem mem_before {i j : Fin r} : j ∈ before i ↔ j < i := by simp [before]

theorem range_eq_before (i : Fin r) : List.range i = (before i).map Fin.val := by
  have hbetween : Kernel.between 0 i = (before i).map Fin.val :=
    Kernel.between_eq_map ((List.sortedLT_finRange r).pairwise.filter _)
      (fun j => by change j ∈ before i ↔ _; rw [mem_before]; omega) i.isLt.le
  rw [← hbetween, Kernel.between, Nat.sub_zero, List.range_eq_range']

theorem before_eq_map (i : Fin r) : before i = (List.finRange i).map (Fin.castLE i.isLt.le) := by
  apply List.map_injective_iff.2 Fin.val_injective
  rw [← range_eq_before, List.map_map]
  exact (List.map_coe_finRange_eq_range).symm

section Values

variable [Sub K] [Mul K]

/-- What is left of a right-hand side when multiples of some unknowns have been taken off. -/
theorem foldl_takeOff_congr {l : List (Fin r)} {u : Fin r → K} {x y : Fin r → K} (h : ∀ j ∈ l, x j = y j)
    (rest : K) :
    l.foldl (fun rest j => rest - u j * x j) rest = l.foldl (fun rest j => rest - u j * y j) rest := by
  apply List.foldl_ext
  intro rest j hj
  rw [h j hj]

def unknown (l : Fin r → Fin r → K) (finish : Fin r → K → K) (c : Fin r → K) (known : Vector K r) (i : Fin r) :
    K :=
  finish i ((before i).foldl (fun rest j => rest - l i j * known.get j) (c i))

theorem unknown_eq (l : Fin r → Fin r → K) (finish : Fin r → K → K) (c : Fin r → K) {known : Vector K r}
    {i : Fin r} (h : ∀ j, j < i → known.get j = (forward l finish c).get j) :
    unknown l finish c known i = (forward l finish c).get i := by
  have hlast : (forward l finish c).get i = (forwardUpTo l finish c (i + 1) i.isLt).get (Fin.last i) :=
    (forwardUpTo_get l finish c (i + 1) i.isLt (Fin.last i)).symm
  rw [hlast, unknown, foldl_takeOff_congr fun j hj => h j (mem_before.1 hj), before_eq_map, List.foldl_map]
  change _ = (Vector.push _ _)[i.val]
  rw [Vector.getElem_push_eq]
  simp only [forwardUpTo_get]

/-- An unknown from the ones after it. -/
theorem backward_get_of_after [Div K] (u : Fin r → Fin r → K) (c : Fin r → K) {x : Fin r → K} {i : Fin r}
    (h : ∀ j, i < j → x j = (backward u c).get j) :
    (after i).foldl (fun rest j => rest - u i j * x j) (c i) / u i i = (backward u c).get i := by
  rw [backward_get_remainder, remainder, foldl_takeOff_congr fun j hj => h j (mem_after.1 hj)]

end Values

theorem get_set (v : Vector K n) (i j : Fin n) (x : K) :
    (v.set i x i.isLt).get j = if j = i then x else v.get j := by
  change (v.set i x i.isLt)[j.val] = _
  rw [Vector.getElem_set]
  by_cases h : j = i
  · rw [if_pos h, if_pos (congrArg Fin.val h.symm)]
  · rw [if_neg h, if_neg fun hval => h (Fin.ext hval.symm)]
    rfl

def overlay (y : Vector K r) (x : Vector K n) : Vector K n := .ofFn fun i => y[i.val]?.getD (x.get i)

theorem get_overlay_of_lt (y : Vector K r) (x : Vector K n) {i : Fin n} (h : i.val < r) :
    (overlay y x).get i = y.get ⟨i, h⟩ := by
  rw [overlay, get_ofFn, Vector.getElem?_eq_getElem h]
  rfl

theorem get_overlay_of_le (y : Vector K r) (x : Vector K n) {i : Fin n} (h : r ≤ i.val) :
    (overlay y x).get i = x.get i := by
  rw [overlay, get_ofFn, Vector.getElem?_eq_none h]
  rfl

/-- A matrix that has the numbers in one column, and otherwise the entries of another one. -/
theorem eq_changeColumn_overlay {x z : Mat K n m} {k : Fin m} {y : Vector K r} (hn : r ≤ n)
    (hnew : ∀ i : Fin r, z.entry (i.castLE hn) k = y.get i)
    (hold : ∀ i l, (l = k → r ≤ i.val) → z.entry i l = x.entry i l) : z = x.changeColumn k (overlay y) := by
  apply ext_entry
  intro i l
  rw [entry_changeColumn]
  split
  · subst l
    by_cases hi : i.val < r
    · rw [get_overlay_of_lt _ _ hi]
      exact hnew ⟨i, hi⟩
    · rw [get_overlay_of_le _ _ (not_lt.1 hi)]
      exact hold i k fun _ => not_lt.1 hi
  · exact hold i l fun h => absurd h ‹_›

theorem overlay_replicate [Arith K] (y : Vector K r) : overlay y (.replicate n 0) = padZero y n := by
  rw [overlay, padZero]
  congr 1
  funext i
  congr 1
  exact Vector.getElem_replicate i.isLt

/-- No entry is left of a column as long as the numbers. -/
theorem overlay_self (y x : Vector K n) : overlay y x = y := by
  apply Vector.ext
  intro i hi
  exact get_overlay_of_lt y x (i := ⟨i, hi⟩) hi

section Loops

variable [Sub K] [Mul K] (l : Fin r → Fin r → K) (finish : Fin r → K → K) (c : Fin r → K)

/-- Each unknown is found from those before it. -/
theorem foldl_unknown (y : Vector K r) :
    (List.finRange r).foldl (fun y i => y.set i (unknown l finish c y i) i.isLt) y = forward l finish c := by
  apply Vector.ext
  intro i hi
  refine Loop.foldl_finds (fun y i => y.set i (unknown l finish c y i) i.isLt) Vector.get (forward l finish c).get
    (List.finRange r) ?_ ?_ y ⟨i, hi⟩ (List.mem_finRange _)
  · intro l₁ i l₂ hsplit y hbefore
    rw [get_set, if_pos rfl, unknown_eq]
    intro j hj
    exact hbefore j (mem_of_pairwise (List.sortedLT_finRange r).pairwise hsplit (List.mem_finRange j) hj)
  · intro y i j hj
    rw [get_set, if_neg hj]

def writeUnknown (hn : r ≤ n) (k : Fin m) (s : Mat K n m × Vector K r) (i : Fin r) : Mat K n m × Vector K r :=
  (s.1.setEntry (i.castLE hn) k (unknown l finish c s.2 i), s.2.set i (unknown l finish c s.2 i) i.isLt)

theorem foldl_writeUnknown (hn : r ≤ n) (k : Fin m) (s : Mat K n m × Vector K r) :
    (List.finRange r).foldl (writeUnknown l finish c hn k) s =
      (s.1.changeColumn k (overlay (forward l finish c)), forward l finish c) := by
  have hfound (i : Fin r) :
      ((List.finRange r).foldl (writeUnknown l finish c hn k) s).2.get i = (forward l finish c).get i ∧
        ((List.finRange r).foldl (writeUnknown l finish c hn k) s).1.entry (i.castLE hn) k =
          (forward l finish c).get i := by
    refine Prod.ext_iff.1 (Loop.foldl_finds (writeUnknown l finish c hn k)
      (fun s i => (s.2.get i, s.1.entry (i.castLE hn) k))
      (fun i => ((forward l finish c).get i, (forward l finish c).get i)) (List.finRange r) ?_ ?_ s i
      (List.mem_finRange i))
    · intro l₁ i l₂ hsplit s hbefore
      have hvalue := unknown_eq l finish c (i := i) fun j hj => (Prod.ext_iff.1 (hbefore j
        (mem_of_pairwise (List.sortedLT_finRange r).pairwise hsplit (List.mem_finRange j) hj))).1
      rw [writeUnknown, get_set, if_pos rfl, entry_setEntry, if_pos ⟨rfl, rfl⟩, hvalue]
    · intro s i j hj
      rw [writeUnknown, get_set, if_neg hj, entry_setEntry, if_neg fun h => hj (Fin.castLE_injective hn h.1)]
  refine Prod.ext (eq_changeColumn_overlay hn (fun i => (hfound i).2) fun i j hout => ?_)
    (Vector.ext fun i hi => (hfound ⟨i, hi⟩).1)
  refine Loop.foldl_keeps (f := fun s : Mat K n m × Vector K r => s.1.entry i j) (fun s i' _ => ?_) s
  rw [writeUnknown, entry_setEntry, if_neg]
  rintro ⟨rfl, rfl⟩
  exact absurd (hout rfl) (not_le.2 i'.isLt)

end Loops

end Mat

namespace Kernel

open Buffer (ofMat)
open InPlace (Stop ok_bind)
open Mat (after before overlay)

variable {K : Type} {m n p q r s : Nat}

theorem takeOff_eq [Sub K] [Mul K] {coefficient unknown : Nat → Except Stop K} {u x : Fin r → K}
    {l : List (Fin r)} (hu : ∀ j ∈ l, coefficient j = .ok (u j)) (hx : ∀ j ∈ l, unknown j = .ok (x j))
    (rest : K) : takeOff coefficient unknown (l.map Fin.val) rest =
      .ok (l.foldl (fun rest j => rest - u j * x j) rest) := by
  refine foldlM_eq_foldl id (fun rest j => rest - u j * x j) (fun rest j hj => ?_) rest
  rw [hu j hj, ok_bind, hx j hj]
  rfl

/-! ### From the last unknown on -/

section Backward

variable [Sub K] [Mul K] [Div K]

theorem backward_ofMat (hu : p * q ≤ maxCount) (hx : n * m ≤ maxCount) (u : Mat K p q) (hp : r ≤ p)
    (hq : r ≤ q) (hn : r ≤ n) {rhs : Nat → Except Stop K} {c : Fin r → K} (hrhs : ∀ i : Fin r, rhs i = .ok (c i))
    (x : Mat K n m) (k : Fin m) :
    backward (ofMat u) r rhs k (ofMat x) = .ok (ofMat (x.changeColumn k
      (overlay (Mat.backward (fun i j => u.entry (i.castLE hp) (j.castLE hq)) c)))) := by
  let coefficient (i j : Fin r) : K := u.entry (i.castLE hp) (j.castLE hq)
  let next (x : Mat K n m) (i : Fin r) : Mat K n m :=
    x.setEntry (i.castLE hn) k
      ((after i).foldl (fun rest j => rest - coefficient i j * x.entry (j.castLE hn) k) (c i) / coefficient i i)
  have hcoefficient (i j : Fin r) : (ofMat u).read i j = .ok (coefficient i j) :=
    Buffer.read_ofMat hu u (i.castLE hp) (j.castLE hq)
  have hunknown (x : Mat K n m) (j : Fin r) : (ofMat x).read j k = .ok (x.entry (j.castLE hn) k) :=
    Buffer.read_ofMat hx x (j.castLE hn) k
  have hwrite (x : Mat K n m) (i : Fin r) (y : K) :
      (ofMat x).write i k y = .ok (ofMat (x.setEntry (i.castLE hn) k y)) :=
    Buffer.write_ofMat hx x (i.castLE hn) k y
  have hloop : backward (ofMat u) r rhs k (ofMat x) =
      .ok (ofMat ((List.finRange r).reverse.foldl next x)) := by
    rw [backward, ← List.map_coe_finRange_eq_range, ← List.map_reverse]
    refine foldlM_eq_foldl ofMat next (fun x i _ => ?_) x
    rw [hrhs, ok_bind, between_succ, takeOff_eq (fun j _ => hcoefficient i j) fun j _ => hunknown x j, ok_bind,
      hcoefficient, ok_bind, hwrite]
  rw [hloop]
  refine congrArg (fun b => Except.ok (ofMat b)) (Mat.eq_changeColumn_overlay hn (fun i => ?_) fun i l hout => ?_)
  · -- the unknowns after it are found when one is
    refine Loop.foldl_finds next (fun x i => x.entry (i.castLE hn) k) (Mat.backward coefficient c).get
      (List.finRange r).reverse ?_ ?_ x i (by simp)
    · intro l₁ i l₂ hsplit x hbefore
      rw [Mat.entry_setEntry, if_pos ⟨rfl, rfl⟩]
      apply Mat.backward_get_of_after
      intro j hj
      exact hbefore j (mem_of_pairwise (r := (· > ·))
        (List.pairwise_reverse.2 (List.sortedLT_finRange r).pairwise) hsplit (by simp) hj)
    · intro x i j hj
      rw [Mat.entry_setEntry, if_neg fun h => hj (Fin.castLE_injective hn h.1)]
  · refine Loop.foldl_keeps (f := fun x => x.entry i l) (fun x j _ => ?_) x
    rw [Mat.entry_setEntry, if_neg]
    rintro ⟨rfl, rfl⟩
    exact absurd (hout rfl) (not_le.2 j.isLt)

end Backward

/-! ### All right-hand sides -/

section Columns

variable [Arith K]

/-- Columns that are written over zeros. -/
theorem foldl_overlay_zero (y : Fin m → Vector K r) :
    (List.finRange m).foldl (fun (x : Mat K n m) k => x.changeColumn k (overlay (y k))) Mat.zero =
      ⟨.ofFn fun k => Mat.padZero (y k) n⟩ := by
  apply Mat.ext_columns
  intro k
  rw [Mat.columns_get_foldl_finRange fun k => overlay (y k), Mat.columns_get_zero, Mat.overlay_replicate,
    Mat.get_ofFn]

theorem solveUpper_ofMat (hu : p * q ≤ maxCount) (hc : s * m ≤ maxCount) (hy : n * m ≤ maxCount) (u : Mat K p q)
    (hp : r ≤ p) (hq : r ≤ q) (hs : r ≤ s) (hn : r ≤ n) (c : Mat K s m) :
    solveUpper (ofMat u) r (ofMat c) n = .ok (ofMat (c.mapColumns fun x => Mat.padZero
      (Mat.backward (fun i j => u.entry (i.castLE hp) (j.castLE hq)) fun i => x.get (i.castLE hs)) n)) := by
  let solution (k : Fin m) : Vector K r :=
    Mat.backward (fun i j => u.entry (i.castLE hp) (j.castLE hq)) fun i => c.entry (i.castLE hs) k
  have hcolumn (y : Mat K n m) (k : Fin m) : backward (ofMat u) r ((ofMat c).read · k) k (ofMat y) =
      .ok (ofMat (y.changeColumn k (overlay (solution k)))) :=
    backward_ofMat hu hy u hp hq hn (fun i => Buffer.read_ofMat hc c (i.castLE hs) k) y k
  rw [solveUpper]
  simp only [Buffer.ncols_ofMat]
  rw [Buffer.zeros_eq hy, ok_bind, ← List.map_coe_finRange_eq_range,
    foldlM_eq_foldl ofMat (fun y k => y.changeColumn k (overlay (solution k))) fun y k _ => hcolumn y k,
    foldl_overlay_zero]
  refine congrArg (fun b => Except.ok (ofMat b)) (Mat.ext_columns fun k => ?_)
  rw [Mat.columns_get_mapColumns]
  exact Mat.get_ofFn _ k

variable {R : Type} [MatrixScalar K R]

open MatrixScalar (conj)

section Adjoint

variable (u : Mat K p q) (hp : r ≤ p) (hq : r ≤ q)

/-- The unknowns of the lower triangular system across the diagonal of `u`. -/
def forwardAdjoint (c : Fin r → K) : Vector K r :=
  Mat.forward (fun i j => conj (u.entry (j.castLE hp) (i.castLE hq)))
    (fun i x => x / conj (u.entry (i.castLE hp) (i.castLE hq))) c

theorem adjointUnknown_ofMat (hu : p * q ≤ maxCount) (hc : s * m ≤ maxCount) (hz : n * m ≤ maxCount)
    (hs : r ≤ s) (hn : r ≤ n) (c : Mat K s m) (k : Fin m) (z : Mat K n m) (known : Vector K r) (i : Fin r) :
    adjointUnknown (ofMat u) (ofMat c) k (ofMat z, known.toArray) i =
      let x := Mat.unknown (fun i j => conj (u.entry (j.castLE hp) (i.castLE hq)))
        (fun i x => x / conj (u.entry (i.castLE hp) (i.castLE hq))) (fun i => c.entry (i.castLE hs) k) known i
      .ok (ofMat (z.setEntry (i.castLE hn) k x), (known.set i x i.isLt).toArray) := by
  have hrhs : (ofMat c).read i k = .ok (c.entry (i.castLE hs) k) := Buffer.read_ofMat hc c (i.castLE hs) k
  have hread (i j : Fin r) : (ofMat u).read i j = .ok (u.entry (i.castLE hp) (j.castLE hq)) :=
    Buffer.read_ofMat hu u (i.castLE hp) (j.castLE hq)
  have hwrite (x : K) : (ofMat z).write i k x = .ok (ofMat (z.setEntry (i.castLE hn) k x)) :=
    Buffer.write_ofMat hz z (i.castLE hn) k x
  have hget (x : K) : (known.set i x i.isLt).get i = x := by rw [Mat.get_set, if_pos rfl]
  simp only [adjointUnknown]
  rw [hrhs, ok_bind, Mat.range_eq_before,
    takeOff_eq (u := fun j => conj (u.entry (j.castLE hp) (i.castLE hq))) (fun j _ => by rw [hread]; rfl)
      (fun j _ => fetch_toArray known j),
    ok_bind, hread, ok_bind, put_toArray, ok_bind, fetch_toArray, hget, ok_bind, hwrite, ok_bind]
  rfl

theorem solveUpperAdjoint_ofMat (hu : p * q ≤ maxCount) (hc : s * m ≤ maxCount) (hz : n * m ≤ maxCount)
    (hs : r ≤ s) (hn : r ≤ n) (c : Mat K s m) :
    solveUpperAdjoint (ofMat u) r (ofMat c) n = .ok (ofMat (c.mapColumns fun x =>
      Mat.padZero (forwardAdjoint u hp hq fun i => x.get (i.castLE hs)) n)) := by
  let enc (s : Mat K n m × Vector K r) : Buffer K × Array K := (ofMat s.1, s.2.toArray)
  let solution (k : Fin m) : Vector K r := forwardAdjoint u hp hq fun i => c.entry (i.castLE hs) k
  let start : Mat K n m × Vector K r := (Mat.zero, .replicate r 0)
  have hloop : (List.range m).foldlM
      (fun s k => (List.range r).foldlM (adjointUnknown (ofMat u) (ofMat c) k) s) (enc start) =
        .ok (enc ((List.finRange m).foldl
          (fun s k => (s.1.changeColumn k (overlay (solution k)), solution k)) start)) := by
    rw [← List.map_coe_finRange_eq_range (n := m), foldlM_eq_foldl enc]
    intro s k _
    rw [← List.map_coe_finRange_eq_range, foldlM_eq_foldl enc (Mat.writeUnknown _ _ _ hn k) fun s i _ =>
      adjointUnknown_ofMat u hp hq hu hc hz hs hn c k s.1 s.2 i, Mat.foldl_writeUnknown]
    rfl
  rw [solveUpperAdjoint]
  simp only [Buffer.ncols_ofMat]
  rw [Buffer.zeros_eq hz, ok_bind]
  change (do
    let t ← (List.range m).foldlM
      (fun s k => (List.range r).foldlM (adjointUnknown (ofMat u) (ofMat c) k) s) (enc start)
    return t.1) = _
  rw [hloop, ok_bind]
  change Except.ok (ofMat (Prod.fst _)) = _
  rw [Loop.fst_foldl (fun (z : Mat K n m) k => z.changeColumn k (overlay (solution k))) solution,
    foldl_overlay_zero]
  refine congrArg (fun b => Except.ok (ofMat b)) (Mat.ext_columns fun k => ?_)
  rw [Mat.columns_get_mapColumns]
  exact Mat.get_ofFn _ k

end Adjoint

end Columns

end Kernel
end NumericArrays
