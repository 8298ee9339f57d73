import NumericArrays.Proofs.Kernel.Buffer
import NumericArrays.Proofs.Mat.Transpose

/-! Products and transposes in memory are those of matrices, and stay within their buffers. -/
namespace NumericArrays.Kernel

open Buffer (ofMat)
open InPlace (ok_bind)

variable {K : Type} {m n p : Nat}

/-! ### Products -/

theorem product_ofMat [Zero K] [Add K] [Mul K] (hmn : m * n ≤ maxCount) (hnp : n * p ≤ maxCount)
    (hmp : m * p ≤ maxCount) (a : Mat K m n) (b : Mat K n p) :
    product (ofMat a) (ofMat b) = .ok (ofMat (a.product b)) := by
  have hstep (out : Mat K m p) (j : Fin p) (k : Fin n) : (do
      let factor ← (ofMat b).read k j
      let column ← (ofMat a).column k 0
      (ofMat out).alterColumn j 0 (along column fun x y => x + y * factor)) =
        .ok (ofMat (out.changeColumn j fun x =>
          Mat.addMultiple x (a.columns.get k) (b.entry k j))) := by
    rw [Buffer.read_ofMat hnp, ok_bind, Buffer.column_ofMat hmn a k (Nat.zero_le m), ok_bind,
      Buffer.alterColumn_along hmp out j (Nat.zero_le m)]
    rfl
  rw [product]
  simp only [Buffer.nrows_ofMat, Buffer.ncols_ofMat]
  rw [Buffer.zeros_eq hmp, ok_bind, ← List.map_coe_finRange_eq_range (n := p), foldlM_eq_foldl ofMat
    (fun out j => out.changeColumn j fun x => (List.finRange n).foldl
      (fun x k => Mat.addMultiple x (a.columns.get k) (b.entry k j)) x) fun out j _ => ?_]
  · refine congrArg (fun b => Except.ok (ofMat b)) (Mat.ext_columns fun j => ?_)
    rw [Mat.columns_get_foldl_finRange fun j x => (List.finRange n).foldl
      (fun x k => Mat.addMultiple x (a.columns.get k) (b.entry k j)) x, Mat.columns_get_zero, Mat.product,
      Mat.columns_get_mapColumns]
    rfl
  · rw [← List.map_coe_finRange_eq_range (n := n), foldlM_eq_foldl ofMat
      (fun out k => out.changeColumn j fun x =>
        Mat.addMultiple x (a.columns.get k) (b.entry k j)) fun out k _ => hstep out j k,
      Mat.foldl_changeColumn_same (fun k x => Mat.addMultiple x (a.columns.get k) (b.entry k j))]

/-! ### Transposes -/

/-- The indices of a tile. -/
theorem tile_eq_map (b : Nat) : tile n (b * Mat.tileEdge) =
    ((List.finRange n).filter fun i => i.val / Mat.tileEdge = b).map Fin.val := by
  apply between_eq_map ((List.sortedLT_finRange n).pairwise.filter _)
  · intro i
    simp only [List.mem_filter, List.mem_finRange, true_and, decide_eq_true_eq]
    rw [Nat.div_eq_iff (by decide)]
    simp only [Mat.tileEdge]
    omega
  · exact Nat.min_le_right _ n

theorem transposeWith_ofMat [Zero K] (h : m * n ≤ maxCount) (f : K → K) (a : Mat K m n) :
    transposeWith f (ofMat a) = .ok (ofMat (a.transposeWith f)) := by
  have h' : n * m ≤ maxCount := Nat.mul_comm m n ▸ h
  have hstep (out : Mat K n m) (i : Fin m) (j : Fin n) : (do
      let x ← (ofMat a).read i j
      (ofMat out).write j i (f x)) = .ok (ofMat (out.setEntry j i (f (a.entry i j)))) := by
    rw [Buffer.read_ofMat h, ok_bind, Buffer.write_ofMat h']
  rw [transposeWith, Mat.transposeWith, Mat.tiledPlaces, List.foldl_flatMap, Mat.runs, Mat.runs,
    List.foldl_map]
  simp only [Buffer.nrows_ofMat, Buffer.ncols_ofMat]
  -- the loops are those over the runs of places, one inside the other
  rw [Buffer.zeros_eq h', ok_bind, tiles, tiles, foldlM_eq_foldl ofMat]
  intro out right _
  rw [List.foldl_flatMap, List.foldl_map, foldlM_eq_foldl ofMat]
  intro out down _
  rw [List.foldl_flatMap, tile_eq_map, tile_eq_map, foldlM_eq_foldl ofMat]
  intro out j _
  rw [List.foldl_map, foldlM_eq_foldl ofMat]
  intro out i _
  exact hstep out i j

end NumericArrays.Kernel
