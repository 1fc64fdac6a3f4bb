/-
# The matrix concept: owning matrices and views

`DynareBison.hh` defines three classes implementing the "matrix concept": `Matrix`, which
owns its data space, and `MatrixView` / `MatrixConstView`, which address a rectangular
block of another value's data space.  The generic functions of namespace `mat` see any of
them only through `getData()`, `getRows()`, `getCols()`, `getLd()` and `M(i, j)`, which is
`data[i + j*ld]`.  A value is therefore modelled by these four numbers (`Mat`), its data
pointer being an offset into the data space it lives in.

An owning `Matrix` sits at offset `0` of its own data space with `ld = rows`.  A view is
built by the checked constructor `(parent, row_offset, col_offset, rows, cols)`, whose
assertion adds `size_t` offsets and sizes (`matrixView`).  When the bounds of every
constructor of a chain hold in ℕ (`ViewOf`), the view's cells are the parent's cells of a
shifted block: `ViewOf.addr_eq` is the composition law and `viewOf_matrix` its consequences
for an owning parent.  When a sum wraps, the assertion passes for a view that reaches past
its parent (`matrixView_wraps_past_parent`).

Offsets are taken in ℕ.  The code's index `i + j*ld` and its loop bound `cols*ld` are
`size_t`, and agree with the model on the blocks whose cells lie below `2^64` (`FitBlock`):
every Matrix that can be allocated, and every view of one within its bounds.
-/
import DynareMatrix.Storage

namespace Dynare

/-! ## Matrix-concept values -/

/-- A value of a class implementing the matrix concept: `getData()` as an offset into the
data space the value lives in, `getRows()`, `getCols()` and `getLd()`. -/
structure Mat where
  data : Nat
  rows : Nat
  cols : Nat
  ld : Nat
  deriving DecidableEq, Repr

namespace Mat

/-- The offset of `M(i, j)`: `data[i + j*ld]`, taken in ℕ.  The code computes `i + j*ld` in
`size_t`; the two agree as long as that sum stays below `2^64`, as it does at every cell of
a `FitBlock` (`FitBlock.addr_eq_sizeAdd`). -/
def addr (m : Mat) (i j : Nat) : Nat := m.data + (i + j * m.ld)

/-- `M(i, j)` read from the data space `A`. -/
def get {α : Type} (A : Buf α) (m : Mat) (i j : Nat) : α := A (m.addr i j)

@[simp] theorem get_def {α : Type} (A : Buf α) (m : Mat) (i j : Nat) :
    m.get A i j = A (m.addr i j) := rfl

/-- Two cells of a value whose rows fit in one column stride have distinct offsets. -/
theorem addr_inj {m : Mat} {i j i' j' : Nat} (hi : i < m.ld) (hi' : i' < m.ld)
    (h : m.addr i j = m.addr i' j') : i = i' ∧ j = j' := by
  have h' : i + j * m.ld = i' + j' * m.ld := by simp only [addr] at h; omega
  have hii : i = i' := by
    have := congrArg (· % m.ld) h'
    simpa [Nat.add_mul_mod_self_right, Nat.mod_eq_of_lt hi, Nat.mod_eq_of_lt hi'] using this
  subst hii
  exact ⟨rfl, Nat.eq_of_mul_eq_mul_right (m := m.ld) (by omega) (by omega)⟩

end Mat

/-- The cells `(i, j)` of a `rows × cols` value, column by column: the order in which the
pointer loops of `mat` visit them. -/
def cells (rows cols : Nat) : List (Nat × Nat) :=
  (List.range cols).flatMap fun j => (List.range rows).map fun i => (i, j)

@[simp] theorem mem_cells {rows cols : Nat} {c : Nat × Nat} :
    c ∈ cells rows cols ↔ c.1 < rows ∧ c.2 < cols := by
  obtain ⟨i, j⟩ := c
  simp only [cells, List.mem_flatMap, List.mem_range, List.mem_map, Prod.mk.injEq]
  constructor
  · rintro ⟨j, hj, i, hi, rfl, rfl⟩
    exact ⟨hi, hj⟩
  · rintro ⟨hi, hj⟩
    exact ⟨j, hj, i, hi, rfl, rfl⟩

@[simp] theorem cells_zero_rows (cols : Nat) : cells 0 cols = [] :=
  List.flatMap_eq_nil_iff.2 fun _ _ => rfl

theorem cells_nodup (rows cols : Nat) : (cells rows cols).Nodup := by
  refine List.nodup_flatMap.2 ⟨fun j _ => (List.nodup_range rows).map fun a b h => ?_, ?_⟩
  · simpa using h
  · refine (List.nodup_range cols).pairwise_of_forall_ne fun j _ j' _ hne => ?_
    simp only [Function.onFun, List.disjoint_left, List.mem_map]
    rintro _ ⟨i, -, rfl⟩ ⟨i', -, h⟩
    exact hne (Prod.mk.inj h).2.symm

/-- A value whose columns do not overlap in its data space, `rows ≤ ld`: every owning
`Matrix`, and every view cut out of one within its bounds (`ViewOf.rows_le_ld`). -/
structure Block extends Mat where
  rows_le_ld : rows ≤ ld

namespace Block

/-- The offsets of the cells of a block, in visiting order, are pairwise distinct. -/
theorem addr_cells_nodup (m : Block) : ((cells m.rows m.cols).map fun c => m.addr c.1 c.2).Nodup :=
  (cells_nodup _ _).map_on fun c hc c' hc' h => by
    have := m.toMat.addr_inj (by have := (mem_cells.1 hc).1; have := m.rows_le_ld; omega)
      (by have := (mem_cells.1 hc').1; have := m.rows_le_ld; omega) h
    exact Prod.ext this.1 this.2

end Block

/-- A block whose loop bound `data + cols*ld`, and with it every cell offset, stays below
`2^64`.  There the `size_t` index `i + j*ld` of `M(i, j)` and the product `cols*ld` that
bounds the pointer loops do not wrap, and `Mat.addr` is the offset the code reaches.  The
checked constructor also admits blocks past that bound: `MatrixView(P, 0, 1, 2, 2^64 - 1)`
of a `2 × 2` matrix `P`, whose cells `(0, 0)` and `(0, 2^63)` are one element in the code and
two offsets in ℕ. -/
structure FitBlock extends Block where
  end_lt : data + cols * ld < 2 ^ 64

namespace FitBlock

/-- The `size_t` product `cols*ld` that bounds the pointer loops does not wrap. -/
theorem sizeMul_cols_ld (m : FitBlock) : sizeMul m.cols m.ld = m.cols * m.ld :=
  sizeMul_of_lt (by have := m.end_lt; omega)

/-- Every cell of a fitting block lies below offset `2^64`, at the `size_t` index
`i + j*ld` that `M(i, j)` computes. -/
theorem addr_eq_sizeAdd (m : FitBlock) {i j : Nat} (hi : i < m.rows) (hj : j < m.cols) :
    m.addr i j < 2 ^ 64 ∧ m.addr i j = m.data + sizeAdd i (sizeMul j m.ld) := by
  have hld := m.rows_le_ld
  have hend := m.end_lt
  have h : i + j * m.ld < m.cols * m.ld := calc
    i + j * m.ld < (j + 1) * m.ld := by rw [Nat.succ_mul]; omega
    _ ≤ m.cols * m.ld := Nat.mul_le_mul_right _ hj
  rw [sizeMul_of_lt (by omega), sizeAdd_of_lt (by omega)]
  exact ⟨by simp only [Mat.addr]; omega, rfl⟩

end FitBlock

/-! ## Owning matrices -/

/-- An owning `Matrix` of the given dimensions: its `rows * cols` scalars start at offset `0`
of its own data space, column after column, and `getLd()` returns `rows`. -/
structure Matrix where
  rows : Nat
  cols : Nat
  deriving DecidableEq, Repr

namespace Matrix

/-- The matrix-concept value of an owning matrix. -/
def toMat (m : Matrix) : Mat := ⟨0, m.rows, m.cols, m.rows⟩

/-- An owning matrix has `ld = rows`, so its columns do not overlap. -/
def toBlock (m : Matrix) : Block := ⟨m.toMat, le_rfl⟩

/-- An owning matrix whose `rows * cols` scalars lie below offset `2^64`. -/
def toFitBlock (m : Matrix) (h : m.cols * m.rows < 2 ^ 64) : FitBlock :=
  ⟨m.toBlock, show 0 + m.cols * m.rows < 2 ^ 64 by omega⟩

@[simp] theorem toMat_rows (m : Matrix) : m.toMat.rows = m.rows := rfl
@[simp] theorem toMat_cols (m : Matrix) : m.toMat.cols = m.cols := rfl
@[simp] theorem toMat_ld (m : Matrix) : m.toMat.ld = m.rows := rfl
@[simp] theorem toMat_data (m : Matrix) : m.toMat.data = 0 := rfl
@[simp] theorem toBlock_toMat (m : Matrix) : m.toBlock.toMat = m.toMat := rfl
@[simp] theorem toFitBlock_toBlock (m : Matrix) (h : m.cols * m.rows < 2 ^ 64) :
    (m.toFitBlock h).toBlock = m.toBlock := rfl

/-- The cells of an owning matrix lie in its `rows * cols` data space. -/
theorem addr_lt {m : Matrix} {i j : Nat} (hi : i < m.rows) (hj : j < m.cols) :
    m.toMat.addr i j < m.rows * m.cols := by
  calc m.toMat.addr i j = i + j * m.rows := by simp [Mat.addr]
    _ < (j + 1) * m.rows := by rw [Nat.succ_mul]; omega
    _ ≤ m.cols * m.rows := Nat.mul_le_mul_right _ hj
    _ = m.rows * m.cols := Nat.mul_comm _ _

end Matrix

/-! ## Views -/

/-- The checked constructor `MatrixView(arg, row_offset, col_offset, rows_arg, cols_arg)`:
`data = arg.getData() + row_offset + col_offset*arg.getLd()` and `ld = arg.getLd()`, behind
an assertion whose sums are taken in `size_t`. -/
def matrixView (arg : Mat) (rowOffset colOffset rowsArg colsArg : Nat) : Option Mat :=
  if rowOffset < arg.rows ∧ sizeAdd rowOffset rowsArg ≤ arg.rows ∧
      colOffset < arg.cols ∧ sizeAdd colOffset colsArg ≤ arg.cols then
    some ⟨arg.data + rowOffset + colOffset * arg.ld, rowsArg, colsArg, arg.ld⟩
  else none

/-- The checked constructor `MatrixConstView(arg, row_offset, col_offset, rows_arg, cols_arg)`,
whose body is that of `MatrixView`. -/
def matrixConstView (arg : Mat) (rowOffset colOffset rowsArg colsArg : Nat) : Option Mat :=
  matrixView arg rowOffset colOffset rowsArg colsArg

theorem matrixView_eq_some {arg w : Mat} {ro co r c : Nat}
    (h : matrixView arg ro co r c = some w) :
    w = ⟨arg.data + ro + co * arg.ld, r, c, arg.ld⟩ := by
  unfold matrixView at h
  split_ifs at h
  exact (Option.some.inj h).symm

/-- `ViewOf p v R C`: `v` is reached from `p` by a chain of `MatrixView` and
`MatrixConstView` constructions, each passing its assertion with its bounds holding in ℕ;
`R` and `C` are the sums of the row and of the column offsets along the chain. -/
inductive ViewOf (p : Mat) : Mat → Nat → Nat → Prop
  | refl : ViewOf p p 0 0
  | view {v w : Mat} {R C ro co r c : Nat} : ViewOf p v R C →
      matrixView v ro co r c = some w → ro + r ≤ v.rows → co + c ≤ v.cols →
      ViewOf p w (R + ro) (C + co)
  | constView {v w : Mat} {R C ro co r c : Nat} : ViewOf p v R C →
      matrixConstView v ro co r c = some w → ro + r ≤ v.rows → co + c ≤ v.cols →
      ViewOf p w (R + ro) (C + co)

namespace ViewOf

variable {p v : Mat} {R C : Nat}

/-- The shape of a view at the end of a chain: the parent's stride, a base pointer
shifted by `R + C * ld`, and a block inside the parent's. -/
theorem shape (h : ViewOf p v R C) :
    v.ld = p.ld ∧ v.data = p.data + R + C * p.ld ∧ R + v.rows ≤ p.rows ∧ C + v.cols ≤ p.cols := by
  induction h with
  | refl => simp
  | view _ hw hr hc ih | constView _ hw hr hc ih =>
    obtain rfl := matrixView_eq_some hw
    refine ⟨ih.1, ?_, by dsimp only; omega, by dsimp only; omega⟩
    simp only [ih.1, ih.2.1, Nat.add_mul]
    omega

/-- **Composition of views.**  A cell of a view at the end of a chain is the parent's cell
at the summed offsets. -/
theorem addr_eq (h : ViewOf p v R C) (i j : Nat) : v.addr i j = p.addr (R + i) (C + j) := by
  obtain ⟨hld, hdata, -, -⟩ := h.shape
  simp only [Mat.addr, hld, hdata, Nat.add_mul]
  omega

/-- Views of a block keep their rows within one column stride. -/
theorem rows_le_ld (h : ViewOf p v R C) (hp : p.rows ≤ p.ld) : v.rows ≤ v.ld := by
  obtain ⟨hld, -, hr, -⟩ := h.shape
  omega

/-- A view cut from a block, as a block. -/
def toBlock (h : ViewOf p v R C) (hp : p.rows ≤ p.ld) : Block := ⟨v, h.rows_le_ld hp⟩

end ViewOf

/-- **Views of an owning matrix**, nested to any depth.  For every chain of checked
constructions from an owning matrix `P` whose bounds hold in ℕ, the final view `V` has
`P`'s leading dimension, fits its rows in it, and addresses at `(i, j)` the cell of `P` at
`(R + i, C + j)`.  Hence distinct cells of `V` are distinct storage cells, all inside `P`'s
`rows * cols` data space, and a store through either is read back through the other. -/
theorem viewOf_matrix {α : Type} (P : Matrix) {V : Mat} {R C : Nat} (h : ViewOf P.toMat V R C) :
    V.ld = P.rows ∧ V.rows ≤ V.ld ∧
    (∀ i j, i < V.rows → j < V.cols →
      V.addr i j = P.toMat.addr (R + i) (C + j) ∧ R + i < P.rows ∧ C + j < P.cols) ∧
    (∀ i j i' j', i < V.rows → i' < V.rows → V.addr i j = V.addr i' j' → i = i' ∧ j = j') ∧
    (∀ i j, i < V.rows → j < V.cols → V.addr i j < P.rows * P.cols) ∧
    (∀ (A : Buf α) (x : α) i j, i < V.rows → j < V.cols →
      V.get (Function.update A (V.addr i j) x) i j = x ∧
      P.toMat.get (Function.update A (V.addr i j) x) (R + i) (C + j) = x ∧
      V.get (Function.update A (P.toMat.addr (R + i) (C + j)) x) i j = x) := by
  obtain ⟨hld, -, hr, hc⟩ := h.shape
  simp only [Matrix.toMat_ld, Matrix.toMat_rows, Matrix.toMat_cols] at hld hr hc
  have hcell : ∀ i j, i < V.rows → j < V.cols →
      V.addr i j = P.toMat.addr (R + i) (C + j) ∧ R + i < P.rows ∧ C + j < P.cols :=
    fun i j hi hj => ⟨h.addr_eq i j, by omega, by omega⟩
  refine ⟨hld, by omega, hcell, fun i j i' j' hi hi' => Mat.addr_inj (by omega) (by omega),
    fun i j hi hj => ?_, fun A x i j hi hj => ?_⟩
  · obtain ⟨he, hi', hj'⟩ := hcell i j hi hj
    exact he ▸ Matrix.addr_lt hi' hj'
  · simp only [Mat.get_def]
    rw [h.addr_eq i j, Function.update_same]
    exact ⟨rfl, rfl, rfl⟩

/-- With `row_offset = 1` and `rows_arg = 2^64 - 1` (what a caller's `n - k` gives when
`k = n + 1`), the sum wraps to `0` and the constructor accepts a view of a `2 × 2` matrix
whose last row sits `2^64 - 1` offsets into a data space of four cells. -/
theorem matrixView_wraps_past_parent :
    matrixView (Matrix.toMat ⟨2, 2⟩) 1 0 (2 ^ 64 - 1) 1 = some ⟨1, 2 ^ 64 - 1, 1, 2⟩ ∧
      ¬ 1 + (2 ^ 64 - 2) < 2 ∧ Mat.addr ⟨1, 2 ^ 64 - 1, 1, 2⟩ (2 ^ 64 - 2) 0 = 2 ^ 64 - 1 := by
  refine ⟨?_, by decide, rfl⟩
  simp only [matrixView, sizeAdd, Matrix.toMat]
  decide

/-- A two-step chain from a `4 × 4` matrix: `MatrixView(P, 1, 0, 3, 3)`, then
`MatrixConstView(V, 1, 1, 2, 2)`; its cell `(1, 1)` is the matrix's cell `(3, 2)`. -/
theorem viewOf_matrix_chain :
    ViewOf (Matrix.toMat ⟨4, 4⟩) ⟨6, 2, 2, 4⟩ 2 1 ∧
      Mat.addr ⟨6, 2, 2, 4⟩ 1 1 = (Matrix.toMat ⟨4, 4⟩).addr 3 2 := by
  have e₁ : matrixView (Matrix.toMat ⟨4, 4⟩) 1 0 3 3 = some ⟨1, 3, 3, 4⟩ := by decide
  have e₂ : matrixConstView ⟨1, 3, 3, 4⟩ 1 1 2 2 = some ⟨6, 2, 2, 4⟩ := by decide
  have h : ViewOf (Matrix.toMat ⟨4, 4⟩) ⟨6, 2, 2, 4⟩ 2 1 :=
    .constView (.view .refl e₁ (by decide) (by decide)) e₂ (by decide) (by decide)
  exact ⟨h, ((viewOf_matrix (α := Int) ⟨4, 4⟩ h).2.2.1 1 1 (by decide) (by decide)).1⟩

end Dynare
