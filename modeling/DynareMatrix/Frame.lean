/-
# Writes stay inside the block

Every mutating function of `mat`, and the assignment and `setAll` of a view, writes only
cells of the block it is given, and the reductions read only the cells of their operands
(`writes_stay_in_block`, `reads_stay_in_block`).  A cell of a matrix `P` outside the block
of a view `V` of `P` is not a cell of `V` (`ViewOf.not_isCell`), so none of these
functions applied to `V` changes it.

Two functions check a row range with a `size_t` sum: `col_set` and the 7-argument
`col_copy` assert `row_offset + row_nb <= rows`.  Their frame holds when the sum does not
wrap around.  When it does, the assertion passes and the copy or fill runs on past the
block (`colSet_writes_past_view`).
-/
import DynareMatrix.Triangle
import Mathlib.Algebra.Ring.Int.Defs

namespace Dynare

variable {α : Type}

namespace Mat

/-- The loops over the cells below the diagonal stay in a block with at least that many
rows and columns, in either orientation. -/
theorem isCell_of_mem_lowerCells {m : Mat} {c : Nat × Nat}
    (hc : c ∈ lowerCells (min m.cols m.rows)) :
    m.IsCell (m.addr c.1 c.2) ∧ m.IsCell (m.addr c.2 c.1) := by
  obtain ⟨h₁, h₂⟩ := mem_lowerCells.1 hc
  have := min_le_left m.cols m.rows
  have := min_le_right m.cols m.rows
  exact ⟨isCell_addr (by omega) (by omega), isCell_addr (by omega) (by omega)⟩

end Mat

/-! ## The mutating functions -/

/-- **Writes stay in the block.**  On a block `V` (an owning matrix, or a view within its
stride), each mutating function of the header that passes its assertions changes only the
cells of `V`: `setAll`, the template assignment, `add` and `sub` of a matrix or of a
scalar, `negate`, `set_identity`, `transpose`, both mirror copies, and `col_set`, both
`col_copy` and `row_copy` into `V`, the row ranges of `col_set` and of the 7-argument
`col_copy` taken without `size_t` wrap-around. -/
theorem writes_stay_in_block [Add α] [Sub α] [Mul α] [Neg α] [One α] [Zero α] (A : Buf α)
    (V : Block) :
    (∀ val, V.OnlyWrites A (MatrixView.setAll A V.toMat val)) ∧
    (∀ (srcOf : Buf α → Buf α) X A', Mat.assignWith srcOf A V.toMat X = some A' →
      V.OnlyWrites A A') ∧
    (∀ X A', Mat.add A V.toMat X = some A' → V.OnlyWrites A A') ∧
    (∀ X A', Mat.sub A V.toMat X = some A' → V.OnlyWrites A A') ∧
    (∀ d, V.OnlyWrites A (Mat.addScalar A V.toMat d)) ∧
    (∀ d, V.OnlyWrites A (Mat.subScalar A V.toMat d)) ∧
    V.OnlyWrites A (Mat.negate A V.toMat) ∧
    V.OnlyWrites A (Mat.setIdentity MatrixView.setAll A V.toMat) ∧
    (∀ A', Mat.transpose A V.toMat = some A' → V.OnlyWrites A A') ∧
    V.OnlyWrites A (Mat.copyUpperToLower A V.toMat) ∧
    V.OnlyWrites A (Mat.copyLowerToUpper A V.toMat) ∧
    (∀ col rowOffset rowNb val A', rowOffset + rowNb < 2 ^ 64 →
      Mat.colSet A V.toMat col rowOffset rowNb val = some A' → V.OnlyWrites A A') ∧
    (∀ (S : Buf α) src colSrc colDest A', Mat.colCopy S src colSrc A V.toMat colDest = some A' →
      V.OnlyWrites A A') ∧
    (∀ (S : Buf α) src colSrc rowOffsetSrc rowNb colDest rowOffsetDest A',
      rowOffsetDest + rowNb < 2 ^ 64 →
      Mat.colCopyRange S src colSrc rowOffsetSrc rowNb A V.toMat colDest rowOffsetDest = some A' →
      V.OnlyWrites A A') ∧
    (∀ (srcOf : Buf α → Buf α) (src : Block) rowSrc rowDest A',
      Mat.rowCopyWith srcOf A src.toMat rowSrc V.toMat rowDest = some A' → V.OnlyWrites A A') := by
  have hzip : ∀ (op : α → α → α) X, V.OnlyWrites A (Mat.zipCols op A V.toMat X) :=
    fun op X => Mat.zipCols_eq op A V X ▸ Mat.onlyWrites_foldl_update _ _ fun c hc =>
      Mat.isCell_addr (mem_cells.1 hc).1 (mem_cells.1 hc).2
  have hmap : ∀ f : α → α, V.OnlyWrites A (Mat.mapCols f A V.toMat) :=
    fun f => Mat.mapCols_eq f A V ▸ Mat.onlyWrites_updateEach _ _ _
  refine ⟨fun val => ?_, fun _ _ _ h => Mat.assignWith_onlyWrites h, fun X A' h => ?_,
    fun X A' h => ?_, fun d => hmap _, fun d => hmap (· + -1 * d), hmap _, ?_, fun A' h => ?_,
    ?_, ?_, fun col ro rn val A' hw h => ?_, fun _ _ _ _ _ h => Mat.colCopy_onlyWrites h,
    fun _ _ _ _ _ _ _ _ hw h => Mat.colCopyRange_onlyWrites hw h,
    fun _ _ _ _ _ h => Mat.rowCopyWith_onlyWrites h⟩
  · exact MatrixView.setAll_eq A V val ▸ Mat.onlyWrites_store_cellWrites _ _ _
  · unfold Mat.add at h
    split_ifs at h
    exact Option.some.inj h ▸ hzip _ X
  · unfold Mat.sub at h
    split_ifs at h
    exact Option.some.inj h ▸ hzip _ X
  · refine (MatrixView.setAll_eq A V 0 ▸ Mat.onlyWrites_store_cellWrites _ _ _).trans
      (Mat.onlyWrites_foldl_update _ _ fun i hi => ?_)
    have := List.mem_range.1 hi
    exact Mat.isCell_addr (Nat.lt_of_lt_of_le this (min_le_right _ _))
      (Nat.lt_of_lt_of_le this (min_le_left _ _))
  · unfold Mat.transpose at h
    split_ifs at h with hsq
    obtain rfl := Option.some.inj h
    exact fun x hx => (Mat.transpose_swaps A V).2 x fun i j hi hj he => hx ⟨i, j, hi, hsq ▸ hj, he⟩
  · exact Mat.onlyWrites_foldl_update _ _ fun c hc => (Mat.isCell_of_mem_lowerCells hc).1
  · exact Mat.onlyWrites_foldl_update _ _ fun c hc => (Mat.isCell_of_mem_lowerCells hc).2
  · unfold Mat.colSet at h
    split_ifs at h with hc
    obtain rfl := Option.some.inj h
    rw [sizeAdd_of_lt hw] at hc
    refine Mat.onlyWrites_store fun w hw' => ?_
    obtain ⟨k, hk, rfl⟩ := List.mem_map.1 hw'
    have := List.mem_range.1 hk
    exact ⟨ro + k, col, by omega, hc.1, by simp only [Mat.addr]; rw [Nat.mul_comm]; omega⟩

/-! ## The reductions -/

/-- **Reads stay in the blocks.**  `nrminf(V)`, `isDiff(V, W, tol)` and
`isDiffSym(V, W, tol)` give the same result on any two states that agree on the cells of
`V` and of `W`. -/
theorem reads_stay_in_block [Sub α] [Zero α] [LinearOrder α] [FAbs α] (V : Block) (W : Mat)
    (tol : α) {A A' B B' : Buf α} (hA : ∀ x, V.IsCell x → A x = A' x)
    (hB : ∀ x, W.IsCell x → B x = B' x) :
    Mat.nrminf A V.toMat = Mat.nrminf A' V.toMat ∧
    Mat.isDiff A V.toMat B W tol = Mat.isDiff A' V.toMat B' W tol ∧
    Mat.isDiffSym A V.toMat B W tol = Mat.isDiffSym A' V.toMat B' W tol := by
  refine ⟨?_, ?_, ?_⟩
  · rw [Mat.nrminf_eq, Mat.nrminf_eq]
    refine congrArg (List.foldl max 0) (List.map_congr_left fun c hc => ?_)
    rw [hA _ (Mat.isCell_addr (mem_cells.1 hc).1 (mem_cells.1 hc).2)]
  · by_cases hd : W.rows = V.rows ∧ W.cols = V.cols
    · rw [Mat.isDiff_eq_decide V W tol hd.1 hd.2, Mat.isDiff_eq_decide V W tol hd.1 hd.2,
        Option.some.injEq, decide_eq_decide]
      refine exists_congr fun i => and_congr_right fun hi => exists_congr fun j =>
        and_congr_right fun hj => ?_
      rw [hA _ (Mat.isCell_addr hi hj), hB _ (Mat.isCell_addr (hd.1 ▸ hi) (hd.2 ▸ hj))]
    · simp only [Mat.isDiff, if_neg hd]
  · by_cases hd : W.rows = V.rows ∧ W.cols = V.cols ∧ W.rows = V.cols ∧ W.cols = V.rows
    · rw [Mat.isDiffSym_eq A B V.toMat W tol hd, Mat.isDiffSym_eq A' B' V.toMat W tol hd,
        Option.some.injEq, Bool.eq_iff_iff, List.any_eq_true, List.any_eq_true]
      refine exists_congr fun c => and_congr_right fun hc => ?_
      obtain ⟨h₁, h₂⟩ := mem_diagCells.1 hc
      obtain ⟨hr, hc, hrc, -⟩ := hd
      rw [hA _ (Mat.isCell_addr (by omega) h₂), hB _ (Mat.isCell_addr (by omega) (by omega))]
    · simp only [Mat.isDiffSym, if_neg hd]

/-! ## Views of a matrix -/

/-- A cell of `P` outside the block of a view `V` of `P` is not a cell of `V`. -/
theorem ViewOf.not_isCell {P : Matrix} {V : Mat} {R C : Nat} (h : ViewOf P.toMat V R C)
    {i j : Nat} (hi : i < P.rows) (hout : ¬ (R ≤ i ∧ i < R + V.rows ∧ C ≤ j ∧ j < C + V.cols)) :
    ¬ V.IsCell (P.toMat.addr i j) := by
  rintro ⟨i', j', hi', hj', he⟩
  obtain ⟨-, -, hr, -⟩ := h.shape
  simp only [Matrix.toMat_rows] at hr
  rw [h.addr_eq] at he
  obtain ⟨rfl, rfl⟩ := Mat.addr_inj (m := P.toMat) (by simp only [Matrix.toMat_ld]; omega)
    (by simpa using hi) he
  exact hout ⟨by omega, by omega, by omega, by omega⟩

/-- **A view changes only its block.**  When a function changes only the cells of a view
`V` of `P`, every cell of `P` outside `V`'s block keeps its value. -/
theorem ViewOf.frame {P : Matrix} {V : Mat} {R C : Nat} (h : ViewOf P.toMat V R C)
    {A A' : Buf α} (hw : V.OnlyWrites A A') {i j : Nat} (hi : i < P.rows)
    (hout : ¬ (R ≤ i ∧ i < R + V.rows ∧ C ≤ j ∧ j < C + V.cols)) :
    A' (P.toMat.addr i j) = A (P.toMat.addr i j) :=
  hw _ (h.not_isCell hi hout)

/-- **A view's `nrminf` is at most its parent's.**  For every view `V` of an owning matrix
`P`, with the scalars any linear order and `fabs` uninterpreted, the running maximum
`nrminf(V)` is at most `nrminf(P)`. -/
theorem nrminf_view_le [Zero α] [LinearOrder α] [FAbs α] (A : Buf α) {P : Matrix} {V : Mat}
    {R C : Nat} (h : ViewOf P.toMat V R C) : Mat.nrminf A V ≤ Mat.nrminf A P.toMat := by
  rw [show Mat.nrminf A V = _ from Mat.nrminf_eq (h.toBlock le_rfl),
    show Mat.nrminf A P.toMat = _ from Mat.nrminf_eq P.toBlock]
  refine foldl_max_le (foldl_max_spec _ 0).1 fun x hx => ?_
  -- every cell of `V` is a cell of `P`
  obtain ⟨⟨i, j⟩, hc, rfl⟩ := List.mem_map.1 hx
  obtain ⟨hi, hj⟩ : i < V.rows ∧ j < V.cols := mem_cells.1 hc
  obtain ⟨-, -, hr, hcc⟩ := h.shape
  refine (foldl_max_spec _ 0).2.1 _ (List.mem_map.2 ⟨(R + i, C + j), ?_, ?_⟩)
  · simp only [Matrix.toMat_rows, Matrix.toMat_cols] at hr hcc
    exact mem_cells.2 ⟨by change R + i < P.rows; omega, by change C + j < P.cols; omega⟩
  · exact congrArg (fun x => fabs (A x)) (h.addr_eq i j).symm

/-- Column 1 of an owning `2 × 2` matrix, as a view. -/
theorem column_nrminf_le :
    Mat.nrminf (fun x => (x : Int) - 2) ⟨2, 2, 1, 2⟩ ≤
      Mat.nrminf (fun x => (x : Int) - 2) (Matrix.toMat ⟨2, 2⟩) :=
  nrminf_view_le _ (.view .refl (rfl : matrixView (Matrix.toMat ⟨2, 2⟩) 0 1 2 1 =
    some ⟨2, 2, 1, 2⟩) (by decide) (by decide))

/-- `col_set` and the 7-argument `col_copy` into the view of column 0 of a `2 × 2` matrix,
from row 1 with `row_nb = 2^64 - 1`: the `size_t` sum `1 + (2^64 - 1)` wraps to 0, both
assertions pass, and both write the parent's cell `(0, 1)`, outside the view. -/
theorem colSet_writes_past_view :
    matrixView (Matrix.toMat ⟨2, 2⟩) 0 0 2 1 = some ⟨0, 2, 1, 2⟩ ∧
    ¬ Mat.IsCell ⟨0, 2, 1, 2⟩ ((Matrix.toMat ⟨2, 2⟩).addr 0 1) ∧
    (∃ A', Mat.colSet (fun _ => (0 : Int)) ⟨0, 2, 1, 2⟩ 0 1 (2 ^ 64 - 1) 7 = some A' ∧
      A' ((Matrix.toMat ⟨2, 2⟩).addr 0 1) = 7) ∧
    ∃ D', Mat.colCopyRange (fun x => (x : Int)) (Matrix.toMat ⟨2, 2⟩) 0 1 (2 ^ 64 - 1)
      (fun _ => 0) ⟨0, 2, 1, 2⟩ 0 1 = some D' ∧ D' ((Matrix.toMat ⟨2, 2⟩).addr 0 1) = 2 := by
  refine ⟨by decide, fun ⟨i, j, hi, hj, he⟩ => ?_, ⟨_, rfl, ?_⟩, ⟨_, rfl, ?_⟩⟩
  · simp only [Mat.addr, Matrix.toMat] at he hi hj
    omega
  · rw [fillN_apply, if_pos (by decide)]
  · rw [memcpy_apply, if_pos (by decide)]
    rfl

end Dynare
