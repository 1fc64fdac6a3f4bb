/-
# Element-wise operations

Filling, assignment, the column and row copies, the element-wise arithmetic, `nrminf` and
`isDiff`, as `DynareBison.hh` writes them: bulk `memcpy` / `std::fill_n` per column, or the
pointer walks of `Walk.lean`.  Each function comes with its normal form: a write log over
the cells it stores to (`Mat.cellWrites`), or a loop that rewrites each cell of a block
from its own value (`updateEach`).  The index-wise results (`*_apply_cell`) and the
frames (`*_of_not_cell`) follow from these by the read-back lemmas of `Storage.lean`;
`pointer_walks_are_indexwise` collects the index-wise meaning of every pointer loop.

All operands live in one data space, and a loop reads each source element when it reaches
it.  `add`, `sub` and `row_copy` are modelled so; the template assignment and `row_copy`,
which the assignments by index vectors call on a source in storage of its own, take the data
space the source is read from as a function `srcOf` of the one being written: the same one
(`id`), or a separate one (`fun _ => B`).  A loop that reads no element it has already
written computes from the old values (`foldl_update_eq_store`); `add` of two views that
overlap otherwise does not (`add_overlapping_views`).
-/
import DynareMatrix.Walk

namespace Dynare

variable {α : Type}

/-! ## Logs over the cells of a value -/

namespace Mat

/-- `x` is the offset of a cell of `m`. -/
def IsCell (m : Mat) (x : Nat) : Prop := ∃ i j, i < m.rows ∧ j < m.cols ∧ m.addr i j = x

/-- The write log that stores `f i j` at each cell `(i, j)` of `m`, column by column. -/
def cellWrites (m : Mat) (f : Nat → Nat → α) : List (Nat × α) :=
  (cells m.rows m.cols).map fun c => (m.addr c.1 c.2, f c.1 c.2)

/-- The cell log as the column loop that writes it: column `j` from `data + j*ld`. -/
theorem cellWrites_eq_flatMap (m : Mat) (f : Nat → Nat → α) :
    m.cellWrites f = (List.range m.cols).flatMap fun j =>
      (List.range m.rows).map fun i => (m.data + j * m.ld + i, f i j) := by
  simp only [cellWrites, cells, List.map_flatMap, List.map_map]
  congr 1; funext j; congr 1; funext i
  simp only [Function.comp, addr, Prod.mk.injEq, and_true]
  omega

/-- A log that stores nowhere in `m` leaves every offset outside `m` alone. -/
theorem store_cellWrites_of_not_cell {A : Buf α} {m : Mat} {f : Nat → Nat → α} {x : Nat}
    (hx : ¬ m.IsCell x) : store A (m.cellWrites f) x = A x :=
  store_apply_of_not_mem fun w hw he => by
    obtain ⟨c, hc, rfl⟩ := List.mem_map.1 hw
    exact hx ⟨c.1, c.2, (mem_cells.1 hc).1, (mem_cells.1 hc).2, he⟩

/-! ### Changing only the cells of a value -/

/-- `A'` differs from `A` at most at the cells of `m`. -/
def OnlyWrites (m : Mat) (A A' : Buf α) : Prop := ∀ x, ¬ m.IsCell x → A' x = A x

theorem OnlyWrites.trans {m : Mat} {A A' A'' : Buf α} (h₁ : m.OnlyWrites A A')
    (h₂ : m.OnlyWrites A' A'') : m.OnlyWrites A A'' :=
  fun x hx => (h₂ x hx).trans (h₁ x hx)

/-- `D` holds at every cell of `m` what `A` holds there: the invariant of a loop that reads
`m` while it stores elsewhere. -/
def AgreesOn (m : Mat) (A D : Buf α) : Prop := ∀ x, m.IsCell x → D x = A x

/-- Stores outside the cells of `m` keep the agreement on `m`. -/
theorem AgreesOn.of_onlyWrites {m n : Mat} {A D D' : Buf α} (hD : m.AgreesOn A D)
    (h : n.OnlyWrites D D') (hsep : ∀ x, m.IsCell x → ¬ n.IsCell x) : m.AgreesOn A D' :=
  fun x hx => (h x (hsep x hx)).trans (hD x hx)

theorem isCell_addr {m : Mat} {i j : Nat} (hi : i < m.rows) (hj : j < m.cols) :
    m.IsCell (m.addr i j) :=
  ⟨i, j, hi, hj, rfl⟩

/-- A log that stores only at cells of `m`. -/
theorem onlyWrites_store {m : Mat} {A : Buf α} {ws : List (Nat × α)}
    (h : ∀ w ∈ ws, m.IsCell w.1) : m.OnlyWrites A (store A ws) :=
  fun _ hx => store_apply_of_not_mem fun w hw he => hx (he ▸ h w hw)

/-- A loop of updates at cells of `m`, each value computed from the state so far. -/
theorem onlyWrites_foldl_update {ι : Type} {m : Mat} {A : Buf α} {cs : List ι} (addr : ι → Nat)
    (val : ι → Buf α → α) (h : ∀ c ∈ cs, m.IsCell (addr c)) :
    m.OnlyWrites A (cs.foldl (fun A c => Function.update A (addr c) (val c A)) A) :=
  fun _ hx => foldl_update_apply_of_forall_ne addr val fun c hc he => hx (he ▸ h c hc)

/-- A loop whose every step changes only cells of `m` changes only cells of `m`. -/
theorem onlyWrites_foldl {β : Type} {m : Mat} {f : Buf α → β → Buf α} {l : List β}
    (h : ∀ A, ∀ x ∈ l, m.OnlyWrites A (f A x)) (A : Buf α) : m.OnlyWrites A (l.foldl f A) := by
  induction l generalizing A with
  | nil => exact fun _ _ => rfl
  | cons x l ih =>
    exact (h A x (.head _)).trans (ih (fun A y hy => h A y (.tail _ hy)) _)

/-- A loop of checked steps whose every step changes only cells of `m`. -/
theorem onlyWrites_foldlM {β : Type} {m : Mat} {f : Buf α → β → Option (Buf α)} {l : List β}
    (h : ∀ A, ∀ x ∈ l, ∀ A', f A x = some A' → m.OnlyWrites A A') {A A' : Buf α}
    (hA : l.foldlM f A = some A') : m.OnlyWrites A A' :=
  foldlM_inv (m.OnlyWrites A) l A (fun _ _ => rfl)
    (fun _ hs x hx _ h' => hs.trans (h _ x hx _ h')) A' hA

theorem onlyWrites_store_cellWrites (m : Mat) (A : Buf α) (f : Nat → Nat → α) :
    m.OnlyWrites A (store A (m.cellWrites f)) :=
  fun _ hx => store_cellWrites_of_not_cell hx

end Mat

/-- Over a block, a log that stores once at each of a list of its cells, in any order, is
read back at each of them. -/
theorem Block.store_map_apply {ι : Type} (A : Buf α) (m : Block) {qs : List ι}
    (cell : ι → Nat × Nat) (val : ι → α) (hnd : (qs.map cell).Nodup)
    (hin : ∀ q ∈ qs, (cell q).1 < m.rows) {q : ι} (hq : q ∈ qs) :
    store A (qs.map fun q => (m.addr (cell q).1 (cell q).2, val q)) (m.addr (cell q).1 (cell q).2) =
      val q := by
  have hnd' : ((qs.map fun q => (m.addr (cell q).1 (cell q).2, val q)).map Prod.fst).Nodup := by
    have e : (qs.map fun q => (m.addr (cell q).1 (cell q).2, val q)).map Prod.fst =
        (qs.map cell).map fun c => m.addr c.1 c.2 := by
      simp only [List.map_map, Function.comp_def]
    rw [e]
    refine hnd.map_on fun c hc c' hc' h => ?_
    obtain ⟨p, hp, rfl⟩ := List.mem_map.1 hc
    obtain ⟨p', hp', rfl⟩ := List.mem_map.1 hc'
    have := Mat.addr_inj (m := m.toMat) (Nat.lt_of_lt_of_le (hin p hp) m.rows_le_ld)
      (Nat.lt_of_lt_of_le (hin p' hp') m.rows_le_ld) h
    exact Prod.ext this.1 this.2
  exact store_apply_of_mem hnd' (List.mem_map.2 ⟨q, hq, rfl⟩)

/-- Over a block, a log storing `f i j` once at each cell `(i, j)` of a list of its cells is
read back at each of them. -/
theorem Block.store_cells_apply (A : Buf α) (m : Block) (f : Nat → Nat → α)
    {cs : List (Nat × Nat)} (hnd : cs.Nodup) (hin : ∀ c ∈ cs, c.1 < m.rows) {i j : Nat}
    (hc : (i, j) ∈ cs) :
    store A (cs.map fun c => (m.addr c.1 c.2, f c.1 c.2)) (m.addr i j) = f i j :=
  m.store_map_apply A (fun c => c) (fun c => f c.1 c.2) (by rwa [List.map_id']) hin hc

/-- Over a block, the cell log is read back at every cell. -/
theorem Block.store_cellWrites_cell (A : Buf α) (m : Block) (f : Nat → Nat → α) {i j : Nat}
    (hi : i < m.rows) (hj : j < m.cols) : store A (m.cellWrites f) (m.addr i j) = f i j :=
  m.store_cells_apply A f (cells_nodup _ _) (fun _ hc => (mem_cells.1 hc).1)
    (mem_cells.2 ⟨hi, hj⟩)

/-- A loop storing one log per column stores their concatenation. -/
theorem foldl_store {β : Type} (A : Buf α) (l : List β) (g : β → List (Nat × α)) :
    l.foldl (fun A b => store A (g b)) A = store A (l.flatMap g) := by
  induction l generalizing A with
  | nil => rfl
  | cons b l ih => simp only [List.foldl_cons, ih, List.flatMap_cons, store_append]

/-! ## Filling -/

/-- `Matrix::setAll(val)`: one `std::fill_n(data, rows*cols, val)` over the whole data space. -/
def Matrix.setAll (A : Buf α) (m : Matrix) (val : α) : Buf α :=
  fillN A 0 (m.rows * m.cols) val

/-- `MatrixView::setAll(val)`: `for (p = data; p < data + cols*ld; p += ld)
std::fill_n(p, rows, val)`. -/
def MatrixView.setAll (A : Buf α) (v : Mat) (val : α) : Buf α :=
  walk (fun p _ A => fillN A p v.rows val) (v.data + v.cols * v.ld) v.ld 0 v.data 0 A

theorem Matrix.setAll_apply_cell (A : Buf α) (m : Matrix) (val : α) {i j : Nat}
    (hi : i < m.rows) (hj : j < m.cols) : Matrix.setAll A m val (m.toMat.addr i j) = val := by
  rw [Matrix.setAll, fillN_apply, if_pos ⟨Nat.zero_le _, by simpa using Matrix.addr_lt hi hj⟩]

/-- Over a block, `MatrixView::setAll` stores `val` at each cell and nowhere else. -/
theorem MatrixView.setAll_eq (A : Buf α) (v : Block) (val : α) :
    MatrixView.setAll A v.toMat val = store A (v.cellWrites fun _ _ => val) := by
  rcases Nat.eq_zero_or_pos v.ld with hld | hld
  · have h0 : v.rows = 0 := by have := v.rows_le_ld; omega
    rw [MatrixView.setAll, walk, if_neg (by simp [hld]), Mat.cellWrites, h0, cells_zero_rows]
    rfl
  · have h := walk_eq_foldl (fun p _ A => fillN A p v.rows val) hld 0 v.cols v.data 0 A
    simp only [Nat.add_zero] at h
    rw [MatrixView.setAll, h, Mat.cellWrites_eq_flatMap, ← foldl_store]
    rfl

/-- **The two `setAll`s agree.**  On every owning matrix, the one `fill_n` of
`Matrix::setAll` over `rows*cols` scalars and the column walk of `MatrixView::setAll` over
the same matrix leave the same data space. -/
theorem Matrix.setAll_eq_view (A : Buf α) (m : Matrix) (val : α) :
    Matrix.setAll A m val = MatrixView.setAll A m.toMat val := by
  rw [← m.toBlock_toMat, MatrixView.setAll_eq A m.toBlock val]
  funext x
  rw [Matrix.setAll, fillN_apply]
  by_cases hx : x < m.rows * m.cols
  · have hr : 0 < m.rows := Nat.pos_of_ne_zero fun h => by simp [h] at hx
    have e : x = m.toBlock.addr (x % m.rows) (x / m.rows) := by
      simp only [Mat.addr, Matrix.toBlock_toMat, Matrix.toMat_data, Matrix.toMat_ld]
      rw [Nat.mod_add_div', Nat.zero_add]
    rw [if_pos ⟨Nat.zero_le _, by simpa using hx⟩, e]
    exact (m.toBlock.store_cellWrites_cell A (fun _ _ => val) (Nat.mod_lt x hr)
      (Nat.div_lt_of_lt_mul hx)).symm
  · rw [if_neg (by simpa using hx), Mat.store_cellWrites_of_not_cell]
    rintro ⟨i, j, hi, hj, rfl⟩
    exact hx (Matrix.addr_lt hi hj)

/-! ## Assignment and copies -/

/-- The template `operator=(const Mat &arg)` of `Matrix` and `MatrixView`: after asserting
equal dimensions, `memcpy(data + j*ld, arg.getData() + j*arg.getLd(), rows*sizeof(double))`
for each column `j`, each `memcpy` reading `srcOf` of the data space as it stands.  (The
non-template copy assignments are declared in the header without a body; the spec gives
them the same column copy.) -/
def Mat.assignWith (srcOf : Buf α → Buf α) (A : Buf α) (a b : Mat) : Option (Buf α) :=
  if a.rows = b.rows ∧ a.cols = b.cols then
    some ((List.range a.cols).foldl
      (fun A j => memcpy A (a.data + j * a.ld) (srcOf A) (b.data + j * b.ld) a.rows) A)
  else none

/-- The template assignment from a source `b` stored apart, in the data space `B`. -/
def Mat.assign (A : Buf α) (a : Mat) (B : Buf α) (b : Mat) : Option (Buf α) :=
  Mat.assignWith (fun _ => B) A a b

/-- `Matrix::operator=`: the template assignment, whose stride is `rows`. -/
def Matrix.assign (A : Buf α) (m : Matrix) (B : Buf α) (b : Mat) : Option (Buf α) :=
  Mat.assign A m.toMat B b

/-- `MatrixView::operator=`: the template assignment, whose stride is `ld`. -/
def MatrixView.assign (A : Buf α) (v : Mat) (B : Buf α) (b : Mat) : Option (Buf α) :=
  Mat.assign A v B b

/-- Assignment stores `b(i, j)` at each cell `(i, j)` of `a`. -/
theorem Mat.assign_eq (A : Buf α) (a : Mat) (B : Buf α) (b : Mat) :
    Mat.assign A a B b = if a.rows = b.rows ∧ a.cols = b.cols then
      some (store A (a.cellWrites fun i j => B (b.addr i j))) else none := by
  rw [Mat.assign, Mat.assignWith, Mat.cellWrites_eq_flatMap, ← foldl_store]
  congr 3; funext A j
  simp only [memcpy, Mat.addr]
  refine congrArg (store A) (List.map_congr_left fun k _ => ?_)
  rw [Nat.add_comm k (j * b.ld), ← Nat.add_assoc]

theorem Mat.assign_eq_some_iff {A B A' : Buf α} {a b : Mat} :
    Mat.assign A a B b = some A' ↔
      (a.rows = b.rows ∧ a.cols = b.cols) ∧
        A' = store A (a.cellWrites fun i j => B (b.addr i j)) := by
  rw [Mat.assign_eq, Option.ite_none_right_eq_some, Option.some.injEq, eq_comm (b := A')]

@[simp] theorem Mat.assignWith_const (A B : Buf α) (a b : Mat) :
    Mat.assignWith (fun _ => B) A a b = Mat.assign A a B b := rfl

/-- The `memcpy` of column `j` of the template assignment stores only at cells of `a`. -/
theorem Mat.onlyWrites_memcpy_column {a : Mat} {j : Nat} (hj : j < a.cols) (D S : Buf α)
    (s : Nat) : a.OnlyWrites D (memcpy D (a.data + j * a.ld) S s a.rows) :=
  Mat.onlyWrites_store fun w hw => by
    obtain ⟨k, hk, rfl⟩ := List.mem_map.1 hw
    exact ⟨k, j, List.mem_range.1 hk, hj, by simp only [Mat.addr]; omega⟩

/-- The template assignment, wherever it reads its source, stores only at cells of `a`. -/
theorem Mat.assignWith_onlyWrites {srcOf : Buf α → Buf α} {A A' : Buf α} {a b : Mat}
    (h : Mat.assignWith srcOf A a b = some A') : a.OnlyWrites A A' := by
  unfold Mat.assignWith at h
  split_ifs at h
  exact Option.some.inj h ▸ Mat.onlyWrites_foldl (fun D j hj =>
    Mat.onlyWrites_memcpy_column (List.mem_range.1 hj) D _ _) A

/-- **The assignment within one data space.**  From a source that shares no cell with the
destination, the column copies of the template assignment read only cells none of them
writes: it is the assignment from any data space holding the source's old cells. -/
theorem Mat.assignWith_id (A S : Buf α) (a b : Mat) (hS : b.AgreesOn S A)
    (hsep : ∀ x, b.IsCell x → ¬ a.IsCell x) : Mat.assignWith id A a b = Mat.assign A a S b := by
  unfold Mat.assign Mat.assignWith
  refine ite_congr rfl (fun hd => congrArg some ?_) fun _ => rfl
  refine foldl_congr_of_inv (b.AgreesOn S) _ A hS fun D hD j hj =>
    ⟨congrArg (store D) (List.map_congr_left fun k hk => ?_),
      hD.of_onlyWrites (Mat.onlyWrites_memcpy_column (List.mem_range.1 hj) D S _) hsep⟩
  have hk := List.mem_range.1 hk
  have hj := List.mem_range.1 hj
  exact congrArg (Prod.mk _) (hD _ ⟨k, j, by omega, by omega, by simp only [Mat.addr]; omega⟩)

/-- Assignment into a block of the source's shape succeeds and leaves `b(i, j)` at each cell
`(i, j)`. -/
theorem Block.assign_apply (A B : Buf α) (a : Block) (b : Mat) (hr : a.rows = b.rows)
    (hc : a.cols = b.cols) : ∃ A', Mat.assign A a.toMat B b = some A' ∧
      ∀ i j, i < a.rows → j < a.cols → A' (a.addr i j) = B (b.addr i j) :=
  ⟨_, Mat.assign_eq_some_iff.2 ⟨⟨hr, hc⟩, rfl⟩, fun _ _ hi hj => a.store_cellWrites_cell A _ hi hj⟩

namespace Mat

/-- `mat::col_copy(src, col_src, dest, col_dest)`: after its assertion, one `memcpy` of
`src.getRows()` scalars between the two columns. -/
def colCopy (S : Buf α) (src : Mat) (colSrc : Nat) (D : Buf α) (dest : Mat) (colDest : Nat) :
    Option (Buf α) :=
  if src.rows = dest.rows ∧ colSrc < src.cols ∧ colDest < dest.cols then
    some (memcpy D (dest.data + colDest * dest.ld) S (src.data + colSrc * src.ld) src.rows)
  else none

/-- `mat::col_copy(src, col_src, row_offset_src, row_nb, dest, col_dest, row_offset_dest)`:
after its assertion, whose sums are `size_t`, one `memcpy` of `row_nb` scalars (its byte
count `row_nb*sizeof(double)` is taken in scalars). -/
def colCopyRange (S : Buf α) (src : Mat) (colSrc rowOffsetSrc rowNb : Nat) (D : Buf α)
    (dest : Mat) (colDest rowOffsetDest : Nat) : Option (Buf α) :=
  if colSrc < src.cols ∧ colDest < dest.cols ∧ rowOffsetSrc < src.rows ∧
      sizeAdd rowOffsetSrc rowNb ≤ src.rows ∧ rowOffsetDest < dest.rows ∧
      sizeAdd rowOffsetDest rowNb ≤ dest.rows then
    some (memcpy D (dest.data + rowOffsetDest + colDest * dest.ld) S
      (src.data + rowOffsetSrc + colSrc * src.ld) rowNb)
  else none

/-- `mat::row_copy(src, row_src, dest, row_dest)`: after its assertion, `p1` walks row
`row_src` of `src` by `src.getLd()` up to `src.getData() + src.getCols()*src.getLd()`,
`p2` row `row_dest` of `dest` by `dest.getLd()`, and `*p2 = *p1`, `*p1` read from `srcOf`
of the data space as it stands. -/
def rowCopyWith (srcOf : Buf α → Buf α) (D : Buf α) (src : Mat) (rowSrc : Nat) (dest : Mat)
    (rowDest : Nat) : Option (Buf α) :=
  if src.cols = dest.cols ∧ rowSrc < src.rows ∧ rowDest < dest.rows then
    some (walk (fun p1 p2 D => Function.update D p2 (srcOf D p1)) (src.data + src.cols * src.ld)
      src.ld dest.ld (src.data + rowSrc) (dest.data + rowDest) D)
  else none

/-- `mat::row_copy(src, row_src, dest, row_dest)` within one data space. -/
def rowCopy (D : Buf α) (src : Mat) (rowSrc : Nat) (dest : Mat) (rowDest : Nat) :
    Option (Buf α) :=
  rowCopyWith id D src rowSrc dest rowDest

/-- `mat::col_set(M, col, row_offset, row_nb, val)`: after its assertions, whose sum is
`size_t`, `std::fill_n(M.getData() + M.getLd()*col + row_offset, row_nb, val)`. -/
def colSet (A : Buf α) (m : Mat) (col rowOffset rowNb : Nat) (val : α) : Option (Buf α) :=
  if col < m.cols ∧ rowOffset < m.rows ∧ sizeAdd rowOffset rowNb ≤ m.rows then
    some (fillN A (m.data + m.ld * col + rowOffset) rowNb val)
  else none

/-- A column copy into a block stores only in column `col_dest`. -/
theorem colCopy_onlyWrites {S D D' : Buf α} {src : Mat} {dest : Block} {cs cd : Nat}
    (h : colCopy S src cs D dest.toMat cd = some D') : dest.OnlyWrites D D' := by
  unfold colCopy at h
  split_ifs at h with hc
  refine Option.some.inj h ▸ onlyWrites_store fun w hw => ?_
  obtain ⟨k, hk, rfl⟩ := List.mem_map.1 hw
  exact ⟨k, cd, hc.1 ▸ List.mem_range.1 hk, hc.2.2, by simp only [Mat.addr]; omega⟩

/-- A column copy reads its source only at cells of `src`. -/
theorem colCopy_congr_source {S S' D : Buf α} {src dest : Mat} {cs cd : Nat}
    (h : ∀ x, src.IsCell x → S x = S' x) :
    colCopy S src cs D dest cd = colCopy S' src cs D dest cd := by
  unfold colCopy memcpy
  refine ite_congr rfl (fun hc => congrArg (fun ws => some (store D ws))
    (List.map_congr_left fun k hk => congrArg _ (h _ ?_))) fun _ => rfl
  exact ⟨k, cs, List.mem_range.1 hk, hc.2.1, by simp only [Mat.addr]; omega⟩

/-- The 7-argument column copy, when `row_offset_src + row_nb` does not wrap, reads its
source only at cells of `src`. -/
theorem colCopyRange_congr_source {S S' D : Buf α} {src dest : Mat} {cs ros rn cd rod : Nat}
    (hw : ros + rn < 2 ^ 64) (h : ∀ x, src.IsCell x → S x = S' x) :
    colCopyRange S src cs ros rn D dest cd rod = colCopyRange S' src cs ros rn D dest cd rod := by
  unfold colCopyRange memcpy
  refine ite_congr rfl (fun hc => congrArg (fun ws => some (store D ws))
    (List.map_congr_left fun k hk => congrArg _ (h _ ?_))) fun _ => rfl
  rw [sizeAdd_of_lt hw] at hc
  have := List.mem_range.1 hk
  exact ⟨ros + k, cs, by omega, hc.1, by simp only [Mat.addr]; omega⟩

/-- The 7-argument column copy, when `row_offset_dest + row_nb` does not wrap, stores only
in column `col_dest` of `dest`. -/
theorem colCopyRange_onlyWrites {S D D' : Buf α} {src dest : Mat} {cs ros rn cd rod : Nat}
    (hw : rod + rn < 2 ^ 64) (h : colCopyRange S src cs ros rn D dest cd rod = some D') :
    dest.OnlyWrites D D' := by
  unfold colCopyRange at h
  split_ifs at h with hc
  obtain ⟨-, hcd, -, -, -, hrange⟩ := hc
  rw [sizeAdd_of_lt hw] at hrange
  refine Option.some.inj h ▸ onlyWrites_store fun w hw' => ?_
  obtain ⟨k, hk, rfl⟩ := List.mem_map.1 hw'
  have := List.mem_range.1 hk
  exact ⟨rod + k, cd, by omega, hcd, by simp only [Mat.addr]; omega⟩

/-- Whether the 7-argument column copy passes its assertion does not depend on the data. -/
theorem colCopyRange_isSome (S S' D D' : Buf α) (src : Mat) (cs ros rn : Nat) (dest : Mat)
    (cd rod : Nat) : (colCopyRange S src cs ros rn D dest cd rod).isSome =
      (colCopyRange S' src cs ros rn D' dest cd rod).isSome := by
  unfold colCopyRange
  split_ifs <;> rfl

/-- A column copy that passes its assertion stores column `col_src` of `src` into column
`col_dest` of `dest`, row by row. -/
theorem colCopy_eq_store {S D : Buf α} {src dest : Mat} {cs cd : Nat}
    (h : src.rows = dest.rows ∧ cs < src.cols ∧ cd < dest.cols) :
    colCopy S src cs D dest cd =
      some (store D ((List.range dest.rows).map fun k => (dest.addr k cd, S (src.addr k cs)))) := by
  rw [colCopy, if_pos h, memcpy, h.1]
  refine congrArg (fun ws => some (store D ws)) (List.map_congr_left fun k _ => ?_)
  simp only [Mat.addr, Prod.mk.injEq]
  exact ⟨by omega, congrArg S (by omega)⟩

/-- Row copy between blocks: the walk over row `row_src` of `src` makes exactly
`src.getCols()` steps, the `k`-th storing at `dest(row_dest, k)` what it reads at
`src(row_src, k)`. -/
theorem rowCopyWith_eq (srcOf : Buf α → Buf α) (D : Buf α) (src dest : Block) (rs rd : Nat) :
    rowCopyWith srcOf D src.toMat rs dest.toMat rd =
      if src.cols = dest.cols ∧ rs < src.rows ∧ rd < dest.rows then
        some ((List.range src.cols).foldl
          (fun D k => Function.update D (dest.addr rd k) (srcOf D (src.addr rs k))) D)
      else none := by
  rw [rowCopyWith]
  refine ite_congr rfl (fun h => ?_) fun _ => rfl
  have hrs : rs < src.ld := Nat.lt_of_lt_of_le h.2.1 src.rows_le_ld
  rw [walk_eq_foldl _ hrs dest.ld src.cols src.data (dest.data + rd) D]
  simp only [Mat.addr, Nat.add_assoc]

/-- Row copy between blocks from a source stored apart, in `S`: row `row_dest` of `dest`
receives row `row_src` of `src`. -/
theorem rowCopyWith_const_eq_some_iff {S D D' : Buf α} {src dest : Block} {rs rd : Nat} :
    rowCopyWith (fun _ => S) D src.toMat rs dest.toMat rd = some D' ↔
      (src.cols = dest.cols ∧ rs < src.rows ∧ rd < dest.rows) ∧
      D' = store D ((List.range src.cols).map fun k => (dest.addr rd k, S (src.addr rs k))) := by
  rw [rowCopyWith_eq, Option.ite_none_right_eq_some, Option.some.injEq, store, List.foldl_map]
  exact and_congr_right fun _ => eq_comm

/-- `row_copy` within one data space, when the source row meets the destination row at
most in the same column, reads only elements it has not written: it is the copy from the
old data space. -/
theorem rowCopy_eq_const {D : Buf α} {src dest : Block} {rs rd : Nat}
    (hsep : ∀ k k', k < src.cols → k' < src.cols → src.addr rs k = dest.addr rd k' → k = k') :
    rowCopy D src.toMat rs dest.toMat rd =
      rowCopyWith (fun _ => D) D src.toMat rs dest.toMat rd := by
  rw [rowCopy, rowCopyWith_eq, rowCopyWith_eq]
  refine ite_congr rfl (fun _ => ?_) fun _ => rfl
  simp only [id_eq]
  rw [foldl_update_eq_store (List.nodup_range _) (fun k => dest.addr rd k)
    (fun k D => D (src.addr rs k)) (fun k x => x = src.addr rs k) (fun k _ A B h => h _ rfl)
    fun k hk k' hk' h => hsep k k' (List.mem_range.1 hk) (List.mem_range.1 hk') h.symm,
    store, List.foldl_map]

/-- `row_copy` within one data space between blocks that share no cell is the copy from the
old data space. -/
theorem rowCopy_eq_const_of_apart {D : Buf α} {src dest : Block} {rs rd : Nat}
    (hsep : ∀ x, src.IsCell x → ¬ dest.IsCell x) :
    rowCopy D src.toMat rs dest.toMat rd =
      rowCopyWith (fun _ => D) D src.toMat rs dest.toMat rd := by
  by_cases hc : src.cols = dest.cols ∧ rs < src.rows ∧ rd < dest.rows
  · exact rowCopy_eq_const fun k k' hk hk' h =>
      absurd (isCell_addr hc.2.2 (hc.1 ▸ hk')) (h ▸ hsep _ (isCell_addr hc.2.1 hk))
  · rw [rowCopy, rowCopyWith_eq, rowCopyWith_eq, if_neg hc, if_neg hc]

/-! ### Reading back the copies and `col_set` -/

/-- A cell `(i, j)` with `i < ld` lies in the run of `n` offsets down column `c` from row
`r`, when `r + n ≤ ld`, exactly when it is row `r ≤ i < r + n` of column `c`. -/
theorem addr_mem_colSeg {m : Mat} {i j r c n : Nat} (hi : i < m.ld) (hrn : r + n ≤ m.ld) :
    (m.addr r c ≤ m.addr i j ∧ m.addr i j < m.addr r c + n) ↔ (j = c ∧ r ≤ i ∧ i < r + n) := by
  simp only [addr]
  rcases lt_trichotomy j c with h | rfl | h
  · have := Nat.mul_le_mul_right m.ld (Nat.succ_le_of_lt h)
    rw [Nat.succ_mul] at this
    omega
  · omega
  · have := Nat.mul_le_mul_right m.ld (Nat.succ_le_of_lt h)
    rw [Nat.succ_mul] at this
    omega

/-- `col_set` into a block, when `row_offset + row_nb` does not wrap: rows
`row_offset ≤ i < row_offset + row_nb` of column `col` hold `val`, every other cell keeps
its value. -/
theorem colSet_apply {A A' : Buf α} {m : Block} {col ro rn : Nat} {val : α}
    (h : colSet A m.toMat col ro rn val = some A') (hw : ro + rn < 2 ^ 64) {i j : Nat}
    (hi : i < m.rows) :
    A' (m.addr i j) = if j = col ∧ ro ≤ i ∧ i < ro + rn then val else A (m.addr i j) := by
  unfold colSet at h
  split_ifs at h with hc
  cases h
  rw [sizeAdd_of_lt hw] at hc
  have hld := m.rows_le_ld
  have e : m.data + m.ld * col + ro = m.addr ro col := by
    simp only [Mat.addr]
    rw [Nat.mul_comm]
    omega
  rw [fillN_apply, e]
  exact if_congr (addr_mem_colSeg (by omega) (by omega)) rfl rfl

/-- The 4-argument `col_copy` into a block: column `col_dest` receives column `col_src` of
`src`, every other cell keeps its value. -/
theorem colCopy_apply {S D D' : Buf α} {src : Mat} {dest : Block} {cs cd : Nat}
    (h : colCopy S src cs D dest.toMat cd = some D') {i j : Nat} (hi : i < dest.rows) :
    D' (dest.addr i j) = if j = cd then S (src.addr i cs) else D (dest.addr i j) := by
  unfold colCopy at h
  split_ifs at h with hc
  cases h
  have hld := dest.rows_le_ld
  have e : dest.data + cd * dest.ld = dest.addr 0 cd := by simp [Mat.addr]
  rw [memcpy_apply, e]
  refine ite_congr (propext ((addr_mem_colSeg (by omega) (by omega)).trans ?_))
    (fun hj => congrArg S ?_) fun _ => rfl
  · exact ⟨fun h => h.1, fun h => ⟨h, Nat.zero_le _, by omega⟩⟩
  · subst hj
    simp only [Mat.addr]
    omega

/-- The 7-argument `col_copy` into a block, when `row_offset_dest + row_nb` does not wrap:
rows `row_offset_dest ≤ i < row_offset_dest + row_nb` of column `col_dest` receive the rows
of column `col_src` of `src` from `row_offset_src` on, every other cell keeps its value. -/
theorem colCopyRange_apply {S D D' : Buf α} {src : Mat} {dest : Block} {cs ros rn cd rod : Nat}
    (h : colCopyRange S src cs ros rn D dest.toMat cd rod = some D') (hw : rod + rn < 2 ^ 64)
    {i j : Nat} (hi : i < dest.rows) :
    D' (dest.addr i j) = if j = cd ∧ rod ≤ i ∧ i < rod + rn then S (src.addr (ros + (i - rod)) cs)
      else D (dest.addr i j) := by
  unfold colCopyRange at h
  split_ifs at h with hc
  cases h
  rw [sizeAdd_of_lt hw] at hc
  have hld := dest.rows_le_ld
  have e : dest.data + rod + cd * dest.ld = dest.addr rod cd := by
    simp only [Mat.addr]
    omega
  rw [memcpy_apply, e]
  refine ite_congr (propext (addr_mem_colSeg (by omega) (by omega)))
    (fun ⟨hj, h₁, _⟩ => congrArg S ?_) fun _ => rfl
  subst hj
  simp only [Mat.addr]
  omega

/-- **The two `col_copy`s.**  Between matrices of equal row counts, the 7-argument
`col_copy` over all rows (both offsets `0`, `row_nb = rows`) is the 4-argument one, except
on matrices with no rows: there its check `row_offset_src < src.getRows()` aborts, while the
4-argument one copies nothing. -/
theorem colCopyRange_all_rows (S D : Buf α) (src dest : Mat) (cs cd : Nat)
    (hr : src.rows = dest.rows) (hw : src.rows < 2 ^ 64) :
    colCopyRange S src cs 0 src.rows D dest cd 0 =
      if 0 < src.rows then colCopy S src cs D dest cd else none := by
  rw [colCopyRange, colCopy, sizeAdd_of_lt (by simpa using hw), ← hr]
  simp only [Nat.zero_add, Nat.add_zero, le_refl, and_true, true_and]
  by_cases h0 : 0 < src.rows
  · rw [if_pos h0]
    exact if_congr (by tauto) rfl rfl
  · rw [if_neg h0, if_neg (by tauto)]

/-- On `0 × 1` matrices the 7-argument `col_copy` over all rows aborts, and the 4-argument
one passes. -/
theorem colCopy_zero_rows_diverges :
    colCopyRange (fun x => (x : Int)) (Matrix.toMat ⟨0, 1⟩) 0 0 0 (fun _ => 0)
        (Matrix.toMat ⟨0, 1⟩) 0 0 = none ∧
      (colCopy (fun x => (x : Int)) (Matrix.toMat ⟨0, 1⟩) 0 (fun _ => 0)
        (Matrix.toMat ⟨0, 1⟩) 0).isSome :=
  ⟨(colCopyRange_all_rows _ _ _ _ _ _ rfl (by decide)).trans (if_neg (by decide)), rfl⟩

/-- `row_copy` into a block, wherever it reads its source, stores only in row `row_dest`. -/
theorem rowCopyWith_onlyWrites {srcOf : Buf α → Buf α} {D D' : Buf α} {src dest : Block}
    {rs rd : Nat} (h : rowCopyWith srcOf D src.toMat rs dest.toMat rd = some D') :
    dest.OnlyWrites D D' := by
  rw [rowCopyWith_eq] at h
  split_ifs at h with hc
  exact Option.some.inj h ▸ Mat.onlyWrites_foldl_update _ _ fun k hk =>
    isCell_addr hc.2.2 (hc.1 ▸ List.mem_range.1 hk)

/-- `row_copy` from a source stored apart reads it only at cells of `src`. -/
theorem rowCopyWith_const_congr {S S' D : Buf α} {src dest : Block} {rs rd : Nat}
    (h : ∀ x, src.IsCell x → S x = S' x) :
    rowCopyWith (fun _ => S) D src.toMat rs dest.toMat rd =
      rowCopyWith (fun _ => S') D src.toMat rs dest.toMat rd := by
  rw [rowCopyWith_eq, rowCopyWith_eq]
  refine ite_congr rfl (fun hc => congrArg some (List.foldl_ext _ _ _ fun D k hk => ?_))
    fun _ => rfl
  rw [h _ (isCell_addr hc.2.1 (List.mem_range.1 hk))]

/-- `row_copy` between blocks, from a source stored apart in `S`: row `row_dest` of `dest`
receives row `row_src` of `src`, every other cell keeps its value. -/
theorem rowCopyWith_const_apply {S D D' : Buf α} {src dest : Block} {rs rd : Nat}
    (h : rowCopyWith (fun _ => S) D src.toMat rs dest.toMat rd = some D') {i j : Nat}
    (hi : i < dest.rows) (hj : j < dest.cols) :
    D' (dest.addr i j) = if i = rd then S (src.addr rs j) else D (dest.addr i j) := by
  obtain ⟨⟨hc, -, hrd⟩, rfl⟩ := rowCopyWith_const_eq_some_iff.1 h
  have hld := dest.rows_le_ld
  by_cases hi' : i = rd
  · subst hi'
    rw [if_pos rfl]
    exact dest.store_map_apply D (fun k => (i, k)) (fun k => S (src.addr rs k))
      ((List.nodup_range _).map fun k k' h => (Prod.mk.inj h).2) (fun _ _ => hrd)
      (List.mem_range.2 (hc ▸ hj))
  · rw [if_neg hi']
    refine store_apply_of_not_mem fun w hw he => hi' ?_
    obtain ⟨k, -, rfl⟩ := List.mem_map.1 hw
    exact (addr_inj (m := dest.toMat) (by omega) (by omega) he).1.symm

end Mat

/-! ## In-place loops over the cells of a block -/

/-- A loop over the cells of a block rewrites each cell from its own value. -/
theorem Block.updateEach_cell (A : Buf α) (m : Block) (f : Nat × Nat → α → α) {i j : Nat}
    (hi : i < m.rows) (hj : j < m.cols) :
    updateEach A (cells m.rows m.cols) (fun c => m.addr c.1 c.2) f (m.addr i j) =
      f (i, j) (A (m.addr i j)) :=
  updateEach_apply_of_mem (c := (i, j)) m.addr_cells_nodup (mem_cells.2 ⟨hi, hj⟩)

theorem Mat.updateEach_of_not_cell {A : Buf α} {m : Mat} {f : Nat × Nat → α → α} {x : Nat}
    (hx : ¬ m.IsCell x) : updateEach A (cells m.rows m.cols) (fun c => m.addr c.1 c.2) f x = A x :=
  updateEach_apply_of_not_mem fun c hc he =>
    hx ⟨c.1, c.2, (mem_cells.1 hc).1, (mem_cells.1 hc).2, he⟩

theorem Mat.onlyWrites_updateEach (m : Mat) (A : Buf α) (f : Nat × Nat → α → α) :
    m.OnlyWrites A (updateEach A (cells m.rows m.cols) (fun c => m.addr c.1 c.2) f) :=
  fun _ hx => updateEach_of_not_cell hx

/-! ## Element-wise arithmetic -/

namespace Mat

/-- The loop nest of `add(m1, m2)` and `sub(m1, m2)`: `*pp1++ op= *pp2++` through every
column of `m1`, the second pointer stepping through `m2` by `m2.getLd()`, both reading the
data space as the loop finds it. -/
def zipCols (op : α → α → α) (A : Buf α) (m1 m2 : Mat) : Buf α :=
  colWalk (fun pp1 pp2 A => Function.update A pp1 (op (A pp1) (A pp2))) m1 m2.data m2.ld A

/-- `mat::add(m1, m2)`: after asserting equal dimensions, `*pp1++ += *pp2++`. -/
def add [Add α] (A : Buf α) (m1 m2 : Mat) : Option (Buf α) :=
  if m1.rows = m2.rows ∧ m1.cols = m2.cols then some (zipCols (· + ·) A m1 m2) else none

/-- `mat::sub(m1, m2)`: after asserting equal dimensions, `*pp1++ -= *pp2++`. -/
def sub [Sub α] (A : Buf α) (m1 m2 : Mat) : Option (Buf α) :=
  if m1.rows = m2.rows ∧ m1.cols = m2.cols then some (zipCols (· - ·) A m1 m2) else none

/-- The loop nest of `add(m1, d)` and `negate(m)`: every cell rewritten from its own value. -/
def mapCols (f : α → α) (A : Buf α) (m : Mat) : Buf α :=
  colWalk (fun pp _ A => Function.update A pp (f (A pp))) m 0 0 A

/-- `mat::add(m1, d)`: `*pp1++ += d`. -/
def addScalar [Add α] (A : Buf α) (m1 : Mat) (d : α) : Buf α := mapCols (· + d) A m1

/-- `mat::sub(m1, d)`: `add(m1, -1.0*d)`. -/
def subScalar [Add α] [Mul α] [Neg α] [One α] (A : Buf α) (m1 : Mat) (d : α) : Buf α :=
  addScalar A m1 (-1 * d)

/-- `mat::negate(m)`: `*pp = -*pp`. -/
def negate [Neg α] (A : Buf α) (m : Mat) : Buf α := mapCols (fun x => -x) A m

theorem zipCols_eq (op : α → α → α) (A : Buf α) (m1 : Block) (m2 : Mat) :
    zipCols op A m1.toMat m2 = (cells m1.rows m1.cols).foldl (fun A c => Function.update A
      (m1.addr c.1 c.2) (op (A (m1.addr c.1 c.2)) (A (m2.addr c.1 c.2)))) A := by
  rw [zipCols, colWalk_eq_foldl]
  rfl

theorem mapCols_eq (f : α → α) (A : Buf α) (m : Block) :
    mapCols f A m.toMat = updateEach A (cells m.rows m.cols) (fun c => m.addr c.1 c.2)
      (fun _ x => f x) := by
  rw [mapCols, colWalk_eq_foldl]
  rfl

/-! ## Reductions -/

/-- `mat::nrminf(m)`: from `nrm = 0`, `if (fabs(*pp) > nrm) nrm = fabs(*pp)` at every cell. -/
def nrminf [Zero α] [LinearOrder α] [FAbs α] (A : Buf α) (m : Mat) : α :=
  colWalk (fun pp _ nrm => if nrm < fabs (A pp) then fabs (A pp) else nrm) m 0 0 0

/-- `mat::isDiff(m1, m2, tol)`: after asserting equal dimensions, `true` at the first cell
with `fabs(*pp1 - *pp2) > tol`.  The early `return true` is the first `true` of the
disjunction the walk accumulates: once it is `true`, no later cell changes it. -/
def isDiff [Sub α] [LinearOrder α] [FAbs α] (A : Buf α) (m1 : Mat) (B : Buf α) (m2 : Mat)
    (tol : α) : Option Bool :=
  if m2.rows = m1.rows ∧ m2.cols = m1.cols then
    some (colWalk (fun pp1 pp2 found => found || decide (tol < fabs (A pp1 - B pp2)))
      m1 m2.data m2.ld false)
  else none

end Mat

/-- The step `if (x > nrm) nrm = x` of `nrminf` is `max`. -/
theorem runningMax_eq_max [LinearOrder α] (nrm x : α) :
    (if nrm < x then x else nrm) = max nrm x := by
  by_cases h : nrm < x
  · rw [if_pos h, max_eq_right h.le]
  · rw [if_neg h, max_eq_left (not_lt.1 h)]

/-- A running maximum from `init` bounds `init` and every element, and is one of them. -/
theorem foldl_max_spec [LinearOrder α] (l : List α) (init : α) :
    init ≤ l.foldl max init ∧ (∀ x ∈ l, x ≤ l.foldl max init) ∧
      (l.foldl max init = init ∨ l.foldl max init ∈ l) := by
  induction l generalizing init with
  | nil => simp
  | cons y l ih =>
    obtain ⟨h₁, h₂, h₃⟩ := ih (max init y)
    rw [List.foldl_cons]
    refine ⟨(le_max_left _ _).trans h₁, fun x hx => ?_, ?_⟩
    · rcases List.mem_cons.1 hx with rfl | hx
      · exact (le_max_right _ _).trans h₁
      · exact h₂ x hx
    · rcases h₃ with h₃ | h₃
      · rcases max_choice init y with h | h <;> rw [h₃, h] <;> simp
      · exact Or.inr (List.mem_cons_of_mem y h₃)

/-- A running maximum is at most any bound on its start and on every element. -/
theorem foldl_max_le [LinearOrder α] {l : List α} {init b : α} (h0 : init ≤ b)
    (h : ∀ x ∈ l, x ≤ b) : l.foldl max init ≤ b := by
  rcases (foldl_max_spec l init).2.2 with he | hm
  · rw [he]; exact h0
  · exact h _ hm

/-- A disjunction accumulated over a list is the initial value or some element's test. -/
theorem foldl_or_eq_true {β : Type} (p : β → Bool) (l : List β) (b : Bool) :
    l.foldl (fun found x => found || p x) b = true ↔ b = true ∨ ∃ x ∈ l, p x = true := by
  induction l generalizing b with
  | nil => simp
  | cons y l ih =>
    simp only [List.foldl_cons, ih, Bool.or_eq_true, List.mem_cons, or_and_right, exists_or,
      exists_eq_left, or_assoc]

namespace Mat

variable {A B : Buf α}

/-- Over a block, when each cell `m2(i, j)` is `m1(i, j)` itself or no cell of `m1`, the loop
of `add` and `sub` reads no element it has written: `m1(i, j)` becomes
`old m1(i, j) op old m2(i, j)`. -/
theorem zipCols_apply_cell (op : α → α → α) (m1 : Block) (m2 : Mat)
    (hsep : ∀ i j, i < m1.rows → j < m1.cols →
      m2.addr i j = m1.addr i j ∨ ¬ m1.IsCell (m2.addr i j))
    {i j : Nat} (hi : i < m1.rows) (hj : j < m1.cols) :
    zipCols op A m1.toMat m2 (m1.addr i j) = op (A (m1.addr i j)) (A (m2.addr i j)) := by
  have hld := m1.rows_le_ld
  have inj : ∀ c ∈ cells m1.rows m1.cols, ∀ c' ∈ cells m1.rows m1.cols,
      m1.addr c.1 c.2 = m1.addr c'.1 c'.2 → c = c' := fun c hc c' hc' h => by
    have := addr_inj (m := m1.toMat) (by have := (mem_cells.1 hc).1; omega)
      (by have := (mem_cells.1 hc').1; omega) h
    exact Prod.ext this.1 this.2
  rw [zipCols_eq, foldl_update_eq_store (cells_nodup _ _) (fun c => m1.addr c.1 c.2)
    (fun c A => op (A (m1.addr c.1 c.2)) (A (m2.addr c.1 c.2)))
    (fun c x => x = m1.addr c.1 c.2 ∨ x = m2.addr c.1 c.2)
    (fun c _ A B h => congrArg₂ op (h _ (.inl rfl)) (h _ (.inr rfl))) fun c hc c' hc' h => ?_]
  · exact m1.store_cells_apply A (fun i j => op (A (m1.addr i j)) (A (m2.addr i j)))
      (cells_nodup _ _) (fun c hc => (mem_cells.1 hc).1) (mem_cells.2 ⟨hi, hj⟩)
  -- a cell the loop writes is read only by its own iteration
  obtain ⟨hc₁, hc₂⟩ := mem_cells.1 hc
  rcases h with h | h
  · exact (inj c' hc' c hc h).symm
  · rcases hsep c.1 c.2 hc₁ hc₂ with he | hn
    · exact (inj c' hc' c hc (h.trans he)).symm
    · exact absurd ⟨c'.1, c'.2, (mem_cells.1 hc').1, (mem_cells.1 hc').2, h⟩ hn

theorem mapCols_apply_cell (f : α → α) (m : Block) {i j : Nat} (hi : i < m.rows)
    (hj : j < m.cols) : mapCols f A m.toMat (m.addr i j) = f (A (m.addr i j)) := by
  rw [mapCols_eq, Block.updateEach_cell A m _ hi hj]

/-- `nrminf` is the running maximum of the `fabs` of the cells, from `0`. -/
theorem nrminf_eq [Zero α] [LinearOrder α] [FAbs α] (m : Block) :
    nrminf A m.toMat =
      ((cells m.rows m.cols).map fun c => fabs (A (m.addr c.1 c.2))).foldl max 0 := by
  rw [nrminf, colWalk_eq_foldl, List.foldl_map]
  simp only [runningMax_eq_max]

/-- `isDiff` is the disjunction of the cell tests, in column-major order. -/
theorem isDiff_eq [Sub α] [LinearOrder α] [FAbs α] (m1 : Block) (m2 : Mat) (tol : α)
    (hr : m2.rows = m1.rows) (hc : m2.cols = m1.cols) :
    isDiff A m1.toMat B m2 tol = some ((cells m1.rows m1.cols).foldl
      (fun found c => found || decide (tol < fabs (A (m1.addr c.1 c.2) - B (m2.addr c.1 c.2))))
      false) := by
  rw [isDiff, if_pos ⟨hr, hc⟩, colWalk_eq_foldl]
  rfl

/-- `isDiff` returns whether some cell's difference exceeds `tol`. -/
theorem isDiff_eq_decide [Sub α] [LinearOrder α] [FAbs α] (m1 : Block) (m2 : Mat) (tol : α)
    (hr : m2.rows = m1.rows) (hc : m2.cols = m1.cols) :
    isDiff A m1.toMat B m2 tol = some (decide (∃ i < m1.rows, ∃ j < m1.cols,
      tol < fabs (A (m1.addr i j) - B (m2.addr i j)))) := by
  rw [isDiff_eq m1 m2 tol hr hc, Option.some.injEq, Bool.eq_iff_iff, foldl_or_eq_true,
    decide_eq_true_iff]
  simp only [Bool.false_eq_true, false_or, decide_eq_true_eq, mem_cells, Prod.exists]
  exact ⟨fun ⟨i, j, ⟨hi, hj⟩, h⟩ => ⟨i, hi, j, hj, h⟩, fun ⟨i, hi, j, hj, h⟩ => ⟨i, j, ⟨hi, hj⟩, h⟩⟩

end Mat

/-- **The pointer walks compute their index-wise definitions**, on operands that do not
overlap.  Over blocks whose cells lie below `2^64` (`ld ≥ rows`: every `Matrix` and every
view within bounds), all in one data space, with the scalar operations uninterpreted: `add`
and `sub` rewrite every cell `(i, j)` of `m1` from its old value and the old `m2(i, j)`,
whatever `m2`'s stride, when each cell of `m2` is the same cell of `m1` or no cell of `m1`;
their scalar forms and `negate` rewrite every cell from its old value; both `setAll`s store
the value; both template assignments from a source stored apart copy `b(i, j)`; `row_copy`
copies the old source row when it meets the destination row at most in the same column, and
touches nothing else; `nrminf` is the maximum of `0` and every `fabs m(i, j)`; and `isDiff`
finds a cell whose difference exceeds `tol` exactly when there is one. -/
theorem pointer_walks_are_indexwise [Add α] [Sub α] [Mul α] [Neg α] [One α] [Zero α]
    [LinearOrder α] [FAbs α] :
    (∀ (A : Buf α) (m1 m2 : FitBlock), m1.rows = m2.rows → m1.cols = m2.cols →
      (∀ i j, i < m1.rows → j < m1.cols →
        m2.addr i j = m1.addr i j ∨ ¬ m1.IsCell (m2.addr i j)) →
      ∃ A', Mat.add A m1.toMat m2.toMat = some A' ∧ ∀ i j, i < m1.rows → j < m1.cols →
        A' (m1.addr i j) = A (m1.addr i j) + A (m2.addr i j)) ∧
    (∀ (A : Buf α) (m1 m2 : FitBlock), m1.rows = m2.rows → m1.cols = m2.cols →
      (∀ i j, i < m1.rows → j < m1.cols →
        m2.addr i j = m1.addr i j ∨ ¬ m1.IsCell (m2.addr i j)) →
      ∃ A', Mat.sub A m1.toMat m2.toMat = some A' ∧ ∀ i j, i < m1.rows → j < m1.cols →
        A' (m1.addr i j) = A (m1.addr i j) - A (m2.addr i j)) ∧
    (∀ (A : Buf α) (m1 : FitBlock) (d : α) i j, i < m1.rows → j < m1.cols →
      Mat.addScalar A m1.toMat d (m1.addr i j) = A (m1.addr i j) + d) ∧
    (∀ (A : Buf α) (m1 : FitBlock) (d : α) i j, i < m1.rows → j < m1.cols →
      Mat.subScalar A m1.toMat d (m1.addr i j) = A (m1.addr i j) + -1 * d) ∧
    (∀ (A : Buf α) (m : FitBlock) i j, i < m.rows → j < m.cols →
      Mat.negate A m.toMat (m.addr i j) = -A (m.addr i j)) ∧
    (∀ (A : Buf α) (m : Matrix) (v : α) i j, i < m.rows → j < m.cols →
      Matrix.setAll A m v (m.toMat.addr i j) = v) ∧
    (∀ (A : Buf α) (m : FitBlock) (v : α) i j, i < m.rows → j < m.cols →
      MatrixView.setAll A m.toMat v (m.addr i j) = v) ∧
    (∀ (A B : Buf α) (a : Matrix) (b : FitBlock), a.rows = b.rows → a.cols = b.cols →
      ∃ A', Matrix.assign A a B b.toMat = some A' ∧ ∀ i j, i < a.rows → j < a.cols →
        A' (a.toMat.addr i j) = B (b.addr i j)) ∧
    (∀ (A B : Buf α) (a b : FitBlock), a.rows = b.rows → a.cols = b.cols →
      ∃ A', MatrixView.assign A a.toMat B b.toMat = some A' ∧ ∀ i j, i < a.rows → j < a.cols →
        A' (a.addr i j) = B (b.addr i j)) ∧
    (∀ (A : Buf α) (src dest : FitBlock) (rs rd : Nat), src.cols = dest.cols → rs < src.rows →
      rd < dest.rows →
      (∀ k k', k < src.cols → k' < src.cols → src.addr rs k = dest.addr rd k' → k = k') →
      ∃ D', Mat.rowCopy A src.toMat rs dest.toMat rd = some D' ∧
        (∀ k, k < src.cols → D' (dest.addr rd k) = A (src.addr rs k)) ∧
        ∀ x, (∀ k, k < dest.cols → dest.addr rd k ≠ x) → D' x = A x) ∧
    (∀ (A : Buf α) (m : FitBlock), 0 ≤ Mat.nrminf A m.toMat ∧
      (∀ i j, i < m.rows → j < m.cols → fabs (A (m.addr i j)) ≤ Mat.nrminf A m.toMat) ∧
      (Mat.nrminf A m.toMat = 0 ∨
        ∃ i j, i < m.rows ∧ j < m.cols ∧ Mat.nrminf A m.toMat = fabs (A (m.addr i j)))) ∧
    (∀ (A B : Buf α) (m1 m2 : FitBlock) (tol : α), m2.rows = m1.rows →
      m2.cols = m1.cols → Mat.isDiff A m1.toMat B m2.toMat tol = some (decide (∃ i < m1.rows,
        ∃ j < m1.cols, tol < fabs (A (m1.addr i j) - B (m2.addr i j))))) := by
  refine ⟨fun A m1 m2 hr hc hsep =>
      ⟨_, if_pos ⟨hr, hc⟩, fun _ _ => Mat.zipCols_apply_cell _ m1.toBlock m2.toMat hsep⟩,
    fun A m1 m2 hr hc hsep =>
      ⟨_, if_pos ⟨hr, hc⟩, fun _ _ => Mat.zipCols_apply_cell _ m1.toBlock m2.toMat hsep⟩,
    fun A m1 d i j hi hj => Mat.mapCols_apply_cell _ m1.toBlock hi hj,
    fun A m1 d i j hi hj => Mat.mapCols_apply_cell (· + -1 * d) m1.toBlock hi hj,
    fun A m i j hi hj => Mat.mapCols_apply_cell _ m.toBlock hi hj,
    fun A m v i j hi hj => Matrix.setAll_apply_cell A m v hi hj,
    fun A m v i j hi hj => by
      rw [MatrixView.setAll_eq A m.toBlock, Block.store_cellWrites_cell A m.toBlock _ hi hj],
    fun A B a b hr hc => Block.assign_apply A B a.toBlock b.toMat hr hc,
    fun A B a b hr hc => Block.assign_apply A B a.toBlock b.toMat hr hc,
    fun A src dest rs rd hc hs hd hsep => ?_, fun A m => ?_, fun A B m1 m2 tol hr hc => ?_⟩
  · rw [Mat.rowCopy_eq_const hsep]
    refine ⟨_, Mat.rowCopyWith_const_eq_some_iff.2 ⟨⟨hc, hs, hd⟩, rfl⟩, fun k hk => ?_,
      fun x hx => ?_⟩
    · exact dest.store_map_apply A (fun k => (rd, k)) (fun k => A (src.addr rs k))
        ((List.nodup_range _).map fun k k' h => (Prod.mk.inj h).2) (fun _ _ => hd)
        (List.mem_range.2 hk)
    · refine store_apply_of_not_mem fun w hw => ?_
      obtain ⟨k, hk, rfl⟩ := List.mem_map.1 hw
      exact hx k (hc ▸ List.mem_range.1 hk)
  · obtain ⟨h₀, h₁, h₂⟩ :=
      foldl_max_spec ((cells m.rows m.cols).map fun c => fabs (A (m.addr c.1 c.2))) 0
    rw [← Mat.nrminf_eq m.toBlock] at h₀ h₁ h₂
    refine ⟨h₀, fun i j hi hj => h₁ _ (List.mem_map.2 ⟨(i, j), mem_cells.2 ⟨hi, hj⟩, rfl⟩), ?_⟩
    rcases h₂ with h₂ | h₂
    · exact Or.inl h₂
    · obtain ⟨c, hc, he⟩ := List.mem_map.1 h₂
      exact Or.inr ⟨c.1, c.2, (mem_cells.1 hc).1, (mem_cells.1 hc).2, he.symm⟩
  · exact Mat.isDiff_eq_decide m1.toBlock m2.toMat tol hr hc

/-- `add(V, W)` for the overlapping views `V = MatrixView(P, 1, 0, 2, 1)` and
`W = MatrixView(P, 0, 0, 2, 1)` of a `3 × 1` matrix `P` holding `1, 10, 100`: the walk reads
`W(1, 0)`, which is `V(0, 0)`, after adding to it, and leaves `111` in `V(1, 0)`, where the
index-wise sum of the old cells is `100 + 10 = 110`. -/
theorem add_overlapping_views :
    matrixView (Matrix.toMat ⟨3, 1⟩) 1 0 2 1 = some ⟨1, 2, 1, 3⟩ ∧
    matrixView (Matrix.toMat ⟨3, 1⟩) 0 0 2 1 = some ⟨0, 2, 1, 3⟩ ∧
    ∃ A', Mat.add (fun x => ([1, 10, 100] : List Int).getD x 0) ⟨1, 2, 1, 3⟩ ⟨0, 2, 1, 3⟩ =
        some A' ∧ A' (Mat.addr ⟨1, 2, 1, 3⟩ 1 0) = 111 ∧
      ([1, 10, 100] : List Int).getD (Mat.addr ⟨1, 2, 1, 3⟩ 1 0) 0 +
        ([1, 10, 100] : List Int).getD (Mat.addr ⟨0, 2, 1, 3⟩ 1 0) 0 = 110 := by
  refine ⟨by decide, by decide, _, rfl, ?_, by decide⟩
  rw [show (⟨1, 2, 1, 3⟩ : Mat) = (⟨⟨1, 2, 1, 3⟩, by decide⟩ : Block).toMat from rfl,
    Mat.zipCols_eq]
  decide

end Dynare
