/-
# Triangles, transposition and the symmetric comparison

The functions of namespace `mat` that address cells by index, `M(i, j) = data[i + j*ld]`,
rather than by pointer walk: the mirror copies `copy_upper_to_lower` /
`copy_lower_to_upper`, `set_identity`, the in-place and the out-of-place `transpose`, and
`isDiffSym`, which compares only the upper triangle, diagonal by diagonal.

Both mirror copies write only strictly below (or above) the diagonal and read only the
other side, so no cell is read after it was written: each is the write log of the old values
(`foldl_copy_eq_store`), which makes every cell of the leading block the old value of its
upper (or lower) representative, leaves everything else alone, and gives idempotence and
symmetry (`mirror_copies_symmetrize`).

The in-place transpose swaps each cell below the diagonal with its mirror image; the swapped
pairs are pairwise disjoint (`foldl_swap_apply`), so the result is the out-of-place
transpose and a second call undoes the first (`transpose_in_place_eq_out_of_place`).  The
diagonal traversal of `isDiffSym` meets each upper cell exactly once
(`diagCells_nodup`, `mem_diagCells`), so on symmetric operands it agrees with `isDiff`
(`isDiffSym_upper_triangle`).
-/
import DynareMatrix.Elementwise
import Mathlib.Data.List.ProdSigma

namespace Dynare

variable {α : Type}

/-! ## The cells below the diagonal -/

/-- The index pairs of `for (i = 0; i < d; i++) for (j = 0; j < i; j++)`, in loop order. -/
def lowerCells (d : Nat) : List (Nat × Nat) :=
  (List.range d).flatMap fun i => (List.range i).map fun j => (i, j)

@[simp] theorem mem_lowerCells {d : Nat} {c : Nat × Nat} :
    c ∈ lowerCells d ↔ c.2 < c.1 ∧ c.1 < d := by
  obtain ⟨i, j⟩ := c
  simp only [lowerCells, List.mem_flatMap, List.mem_range, List.mem_map, Prod.mk.injEq]
  constructor
  · rintro ⟨i, hi, j, hj, rfl, rfl⟩
    exact ⟨hj, hi⟩
  · rintro ⟨hj, hi⟩
    exact ⟨i, hi, j, hj, rfl, rfl⟩

theorem lowerCells_nodup (d : Nat) : (lowerCells d).Nodup := by
  refine List.nodup_flatMap.2 ⟨fun i _ => (List.nodup_range i).map fun a b h => ?_, ?_⟩
  · simpa using h
  · refine (List.nodup_range d).pairwise_of_forall_ne fun i _ i' _ hne => ?_
    simp only [Function.onFun, List.disjoint_left, List.mem_map]
    rintro _ ⟨j, -, rfl⟩ ⟨j', -, h⟩
    exact hne (Prod.mk.inj h).1.symm

namespace Mat

/-! ## Mirror copies and the identity -/

/-- `mat::copy_upper_to_lower(M)`: `M(i, j) = M(j, i)` for `j < i < min(cols, rows)`. -/
def copyUpperToLower (A : Buf α) (m : Mat) : Buf α :=
  (lowerCells (min m.cols m.rows)).foldl
    (fun A c => Function.update A (m.addr c.1 c.2) (A (m.addr c.2 c.1))) A

/-- `mat::copy_lower_to_upper(M)`: `M(j, i) = M(i, j)` for `j < i < min(cols, rows)`. -/
def copyLowerToUpper (A : Buf α) (m : Mat) : Buf α :=
  (lowerCells (min m.cols m.rows)).foldl
    (fun A c => Function.update A (m.addr c.2 c.1) (A (m.addr c.1 c.2))) A

/-- `mat::set_identity(M)` for a class whose `setAll` is `setAll`: `M.setAll(0.0)`, then
`M(i, i) = 1.0` for `i < min(cols, rows)`. -/
def setIdentity [Zero α] [One α] (setAll : Buf α → Mat → α → Buf α) (A : Buf α) (m : Mat) :
    Buf α :=
  (List.range (min m.cols m.rows)).foldl (fun A i => Function.update A (m.addr i i) 1)
    (setAll A m 0)

/-! ## Transposition -/

/-- `mat::transpose(M)`: asserts a square matrix, then `std::swap(M(i, j), M(j, i))` for
`j < i < rows`. -/
def transpose (A : Buf α) (m : Mat) : Option (Buf α) :=
  if m.rows = m.cols then
    some ((lowerCells m.rows).foldl (fun A c => swap A (m.addr c.1 c.2) (m.addr c.2 c.1)) A)
  else none

/-- `mat::transpose(M1, M2)`: asserts transposed dimensions, then `M1(i, j) = M2(j, i)` for
every `i < M1.rows` and, row by row, `j < M1.cols`, `M2(j, i)` read from `srcOf` of the data
space as the loop left it: the same one (`id`), or a separate one (`fun _ => B`). -/
def transposeToWith (srcOf : Buf α → Buf α) (A : Buf α) (m1 m2 : Mat) : Option (Buf α) :=
  if m1.rows = m2.cols ∧ m1.cols = m2.rows then
    some ((List.range m1.rows).foldl (fun A i => (List.range m1.cols).foldl
      (fun A j => Function.update A (m1.addr i j) (srcOf A (m2.addr j i))) A) A)
  else none

/-- `mat::transpose(M1, M2)` from an `M2` in a data space of its own. -/
def transposeTo (A : Buf α) (m1 : Mat) (B : Buf α) (m2 : Mat) : Option (Buf α) :=
  transposeToWith (fun _ => B) A m1 m2

/-! ## The symmetric comparison -/

/-- `mat::isDiffSym(m1, m2, tol)`: asserts square operands of one size, then for `i < cols`
and each `j` with `i + j < cols` tests `fabs(m1(j, j + i) - m2(j, j + i)) > tol`, returning
`true` at the first hit. -/
def isDiffSym [Sub α] [LinearOrder α] [FAbs α] (A : Buf α) (m1 : Mat) (B : Buf α) (m2 : Mat)
    (tol : α) : Option Bool :=
  if m2.rows = m1.rows ∧ m2.cols = m1.cols ∧ m2.rows = m1.cols ∧ m2.cols = m1.rows then
    some ((List.range m1.cols).any fun i => (List.range (m1.cols - i)).any fun j =>
      decide (tol < fabs (A (m1.addr j (j + i)) - B (m2.addr j (j + i)))))
  else none

end Mat

/-- The cells `isDiffSym` visits, in its order: diagonal `i` (`i = 0` the main diagonal),
then the cells `(j, j + i)` down it. -/
def diagCells (n : Nat) : List (Nat × Nat) :=
  (List.range n).flatMap fun i => (List.range (n - i)).map fun j => (j, j + i)

@[simp] theorem mem_diagCells {n : Nat} {c : Nat × Nat} :
    c ∈ diagCells n ↔ c.1 ≤ c.2 ∧ c.2 < n := by
  obtain ⟨r, s⟩ := c
  simp only [diagCells, List.mem_flatMap, List.mem_range, List.mem_map, Prod.mk.injEq]
  constructor
  · rintro ⟨i, -, j, hj, rfl, rfl⟩
    omega
  · rintro ⟨hrs, hs⟩
    exact ⟨s - r, by omega, r, by omega, rfl, by omega⟩

/-- The diagonal traversal meets no cell twice. -/
theorem diagCells_nodup (n : Nat) : (diagCells n).Nodup := by
  refine List.nodup_flatMap.2 ⟨fun i _ => (List.nodup_range _).map fun a b h => ?_, ?_⟩
  · simpa using h
  · refine (List.nodup_range n).pairwise_of_forall_ne fun i _ i' _ hne => ?_
    simp only [Function.onFun, List.disjoint_left, List.mem_map]
    rintro _ ⟨j, -, rfl⟩ ⟨j', -, h⟩
    obtain ⟨h₁, h₂⟩ := Prod.mk.inj h
    omega

namespace Mat

/-! ## The identity -/

/-- `set_identity` on a view: inside the block, ones on the leading diagonal and zeros
everywhere else. -/
theorem setIdentity_apply [Zero α] [One α] (A : Buf α) (m : Block) {i j : Nat}
    (hi : i < m.rows) (hj : j < m.cols) :
    setIdentity MatrixView.setAll A m.toMat (m.addr i j) = if i = j then 1 else 0 := by
  have hld := m.rows_le_ld
  by_cases hij : i = j
  · subst hij
    have hnd : ((List.range (min m.cols m.rows)).map fun k => m.addr k k).Nodup :=
      (List.nodup_range _).map_on fun k hk k' hk' h =>
        (addr_inj (by simp at hk; omega) (by simp at hk'; omega) h).1
    rw [if_pos rfl]
    exact updateEach_apply_of_mem (f := fun _ _ => 1) hnd (List.mem_range.2 (by omega))
  · rw [if_neg hij, setIdentity, foldl_update_apply_of_forall_ne _ (fun _ _ => 1) fun k hk h =>
      hij ?_, MatrixView.setAll_eq, Block.store_cellWrites_cell A m _ hi hj]
    have := addr_inj (by simp at hk; omega) (by omega) h
    omega

/-! ## The mirror copies -/

/-- Two data spaces are equal when they agree at each cell of the leading `r × c` block of
`m` and at every offset outside it. -/
theorem buf_ext (m : Mat) (r c : Nat) {A B : Buf α}
    (hcell : ∀ i j, i < r → j < c → A (m.addr i j) = B (m.addr i j))
    (hout : ∀ x, (∀ i j, i < r → j < c → m.addr i j ≠ x) → A x = B x) : A = B := by
  funext x
  by_cases hx : ∃ i j, i < r ∧ j < c ∧ m.addr i j = x
  · obtain ⟨i, j, hi, hj, rfl⟩ := hx
    exact hcell i j hi hj
  · exact hout x fun i j hi hj he => hx ⟨i, j, hi, hj, he⟩

/-- The cell a mirror copy writes is never a cell it reads: both lie in the leading block,
one strictly below the diagonal and the other strictly above. -/
theorem lowerCells_addr_ne (m : Block) {c c' : Nat × Nat}
    (hc : c ∈ lowerCells (min m.cols m.rows)) (hc' : c' ∈ lowerCells (min m.cols m.rows)) :
    m.addr c.1 c.2 ≠ m.addr c'.2 c'.1 := fun h => by
  have := m.rows_le_ld
  have := min_le_right m.cols m.rows
  obtain ⟨h₁, h₂⟩ := mem_lowerCells.1 hc
  obtain ⟨h₁', h₂'⟩ := mem_lowerCells.1 hc'
  have := addr_inj (by omega) (by omega) h
  omega

/-- `copy_upper_to_lower` writes only cells of the leading `d × d` block. -/
theorem copyUpperToLower_of_not_block (A : Buf α) (m : Mat) {x : Nat}
    (hx : ∀ i j, i < min m.cols m.rows → j < min m.cols m.rows → m.addr i j ≠ x) :
    copyUpperToLower A m x = A x :=
  foldl_update_apply_of_forall_ne (fun c : Nat × Nat => m.addr c.1 c.2)
    (fun c A => A (m.addr c.2 c.1)) fun c hc =>
      hx c.1 c.2 (mem_lowerCells.1 hc).2 (by have := mem_lowerCells.1 hc; omega)

/-- `copy_lower_to_upper` writes only cells of the leading `d × d` block. -/
theorem copyLowerToUpper_of_not_block (A : Buf α) (m : Mat) {x : Nat}
    (hx : ∀ i j, i < min m.cols m.rows → j < min m.cols m.rows → m.addr i j ≠ x) :
    copyLowerToUpper A m x = A x :=
  foldl_update_apply_of_forall_ne (fun c : Nat × Nat => m.addr c.2 c.1)
    (fun c A => A (m.addr c.1 c.2)) fun c hc =>
      hx c.2 c.1 (by have := mem_lowerCells.1 hc; omega) (mem_lowerCells.1 hc).2

/-- Inside the leading block, `copy_upper_to_lower` leaves at `(i, j)` the old value at
`(min i j, max i j)`. -/
theorem copyUpperToLower_apply (A : Buf α) (m : Block) {i j : Nat}
    (hi : i < min m.cols m.rows) (hj : j < min m.cols m.rows) :
    copyUpperToLower A m.toMat (m.addr i j) = A (m.addr (min i j) (max i j)) := by
  have hd := min_le_right m.cols m.rows
  rw [copyUpperToLower, foldl_copy_eq_store _ _ (fun c hc c' hc' => lowerCells_addr_ne m hc hc')]
  by_cases hij : j < i
  · rw [min_eq_right hij.le, max_eq_left hij.le]
    exact m.store_cells_apply A (fun i j => A (m.addr j i)) (lowerCells_nodup _)
      (fun c hc => by have := mem_lowerCells.1 hc; omega) (mem_lowerCells.2 ⟨hij, hi⟩)
  · rw [min_eq_left (not_lt.1 hij), max_eq_right (not_lt.1 hij)]
    refine store_apply_of_not_mem fun w hw => ?_
    obtain ⟨c, hc, rfl⟩ := List.mem_map.1 hw
    obtain ⟨h₁, h₂⟩ := mem_lowerCells.1 hc
    have := m.rows_le_ld
    exact fun h => hij (by have := addr_inj (by omega) (by omega) h; omega)

/-- Inside the leading block, `copy_lower_to_upper` leaves at `(i, j)` the old value at
`(max i j, min i j)`. -/
theorem copyLowerToUpper_apply (A : Buf α) (m : Block) {i j : Nat}
    (hi : i < min m.cols m.rows) (hj : j < min m.cols m.rows) :
    copyLowerToUpper A m.toMat (m.addr i j) = A (m.addr (max i j) (min i j)) := by
  have hd := min_le_right m.cols m.rows
  rw [copyLowerToUpper,
    foldl_copy_eq_store _ _ (fun c hc c' hc' => (lowerCells_addr_ne m hc' hc).symm)]
  by_cases hij : i < j
  · rw [max_eq_right hij.le, min_eq_left hij.le]
    exact m.store_map_apply A (fun c => (c.2, c.1)) (fun c => A (m.addr c.1 c.2))
      ((lowerCells_nodup _).map Prod.swap_injective)
      (fun c hc => show c.2 < m.rows by have := mem_lowerCells.1 hc; omega)
      (q := (j, i)) (mem_lowerCells.2 ⟨hij, hj⟩)
  · rw [max_eq_left (not_lt.1 hij), min_eq_right (not_lt.1 hij)]
    refine store_apply_of_not_mem fun w hw => ?_
    obtain ⟨c, hc, rfl⟩ := List.mem_map.1 hw
    obtain ⟨h₁, h₂⟩ := mem_lowerCells.1 hc
    have := m.rows_le_ld
    exact fun h => hij (by have := addr_inj (by omega) (by omega) h; omega)

/-- A second `copy_upper_to_lower` changes nothing. -/
theorem copyUpperToLower_idem (A : Buf α) (m : Block) :
    copyUpperToLower (copyUpperToLower A m.toMat) m.toMat = copyUpperToLower A m.toMat :=
  m.buf_ext _ _ (fun i j hi hj => by
      rw [copyUpperToLower_apply _ m hi hj,
        copyUpperToLower_apply _ m ((min_le_left i j).trans_lt hi) (max_lt hi hj),
        min_eq_left min_le_max, max_eq_right min_le_max, copyUpperToLower_apply A m hi hj])
    fun x hx => copyUpperToLower_of_not_block _ _ hx

/-- A second `copy_lower_to_upper` changes nothing. -/
theorem copyLowerToUpper_idem (A : Buf α) (m : Block) :
    copyLowerToUpper (copyLowerToUpper A m.toMat) m.toMat = copyLowerToUpper A m.toMat :=
  m.buf_ext _ _ (fun i j hi hj => by
      rw [copyLowerToUpper_apply _ m hi hj,
        copyLowerToUpper_apply _ m (max_lt hi hj) ((min_le_left i j).trans_lt hi),
        max_eq_left min_le_max, min_eq_right min_le_max, copyLowerToUpper_apply A m hi hj])
    fun x hx => copyLowerToUpper_of_not_block _ _ hx

end Mat

/-- **The mirror copies.**  For every `M` whose cells lie below `2^64` (an owning matrix, or
a view with `ld ≥ rows` within its parent; rectangular or square) and `d = min(cols, rows)`,
`copy_upper_to_lower(M)` leaves `M(i, j) = M₀(min i j, max i j)` and `copy_lower_to_upper(M)`
leaves `M(i, j) = M₀(max i j, min i j)` for all `i, j < d`, and neither changes an offset
that is not a cell of the leading `d × d` block: no other cell of `M`, nothing outside it.
Each is therefore idempotent and leaves the leading block symmetric. -/
theorem mirror_copies_symmetrize (A : Buf α) (M : FitBlock) :
    (∀ i j, i < min M.cols M.rows → j < min M.cols M.rows →
      Mat.copyUpperToLower A M.toMat (M.addr i j) = A (M.addr (min i j) (max i j)) ∧
      Mat.copyLowerToUpper A M.toMat (M.addr i j) = A (M.addr (max i j) (min i j))) ∧
    (∀ x, (∀ i j, i < min M.cols M.rows → j < min M.cols M.rows → M.addr i j ≠ x) →
      Mat.copyUpperToLower A M.toMat x = A x ∧ Mat.copyLowerToUpper A M.toMat x = A x) ∧
    Mat.copyUpperToLower (Mat.copyUpperToLower A M.toMat) M.toMat =
      Mat.copyUpperToLower A M.toMat ∧
    Mat.copyLowerToUpper (Mat.copyLowerToUpper A M.toMat) M.toMat =
      Mat.copyLowerToUpper A M.toMat ∧
    (∀ i j, i < min M.cols M.rows → j < min M.cols M.rows →
      Mat.copyUpperToLower A M.toMat (M.addr i j) =
        Mat.copyUpperToLower A M.toMat (M.addr j i) ∧
      Mat.copyLowerToUpper A M.toMat (M.addr i j) =
        Mat.copyLowerToUpper A M.toMat (M.addr j i)) :=
  let B := M.toBlock
  ⟨fun i j hi hj => ⟨Mat.copyUpperToLower_apply A B hi hj, Mat.copyLowerToUpper_apply A B hi hj⟩,
    fun x hx => ⟨Mat.copyUpperToLower_of_not_block A M.toMat hx,
      Mat.copyLowerToUpper_of_not_block A M.toMat hx⟩,
    Mat.copyUpperToLower_idem A B, Mat.copyLowerToUpper_idem A B,
    fun i j hi hj => ⟨by
      rw [Mat.copyUpperToLower_apply A B hi hj, Mat.copyUpperToLower_apply A B hj hi, min_comm,
        max_comm], by
      rw [Mat.copyLowerToUpper_apply A B hi hj, Mat.copyLowerToUpper_apply A B hj hi, max_comm,
        min_comm]⟩⟩

/-- The view `MatrixView(P, 1, 0, 2^64 - 1, 2)` of a `2 × 2` matrix passes its assertion, and
its leading `2 × 2` block reaches cell `(0, 1)` at offset `3`, which is also its cell
`(2, 0)`: `copy_lower_to_upper` stores the old `M(1, 0)` there and changes a cell outside
the block. -/
theorem copyLowerToUpper_wrapped_view :
    matrixView (Matrix.toMat ⟨2, 2⟩) 1 0 (2 ^ 64 - 1) 2 = some ⟨1, 2 ^ 64 - 1, 2, 2⟩ ∧
    Mat.get (Mat.copyLowerToUpper (fun x => (x : Int)) ⟨1, 2 ^ 64 - 1, 2, 2⟩)
      ⟨1, 2 ^ 64 - 1, 2, 2⟩ 2 0 = 2 ∧
    Mat.get (fun x => (x : Int)) ⟨1, 2 ^ 64 - 1, 2, 2⟩ 2 0 = 3 :=
  ⟨by decide, by decide, rfl⟩

/-! ## The in-place transpose is the out-of-place one -/

namespace Mat

/-- The swap loop of the in-place transpose, over a block with `n` rows: each cell `(i, j)`,
`i, j < n`, receives its mirror image, and offsets outside the `n × n` block are left alone. -/
theorem transpose_swaps (A : Buf α) (m : Block) :
    (∀ i j, i < m.rows → j < m.rows → (lowerCells m.rows).foldl
      (fun A c => swap A (m.addr c.1 c.2) (m.addr c.2 c.1)) A (m.addr i j) = A (m.addr j i)) ∧
    ∀ x, (∀ i j, i < m.rows → j < m.rows → m.addr i j ≠ x) → (lowerCells m.rows).foldl
      (fun A c => swap A (m.addr c.1 c.2) (m.addr c.2 c.1)) A x = A x := by
  have hld := m.rows_le_ld
  have inj : ∀ {i j i' j'}, i < m.rows → i' < m.rows → m.addr i j = m.addr i' j' →
      i = i' ∧ j = j' :=
    fun hi hi' h => Mat.addr_inj (by omega) (by omega) h
  obtain ⟨hswap, hframe⟩ := foldl_swap_apply (A := A) (lowerCells_nodup m.rows)
    (f := fun c => m.addr c.1 c.2) (g := fun c => m.addr c.2 c.1)
    (fun p hp q hq h => by
      have := inj (mem_lowerCells.1 hp).2 (mem_lowerCells.1 hq).2 h
      exact Prod.ext this.1 this.2)
    (fun p hp q hq h => by
      have hp' := mem_lowerCells.1 hp; have hq' := mem_lowerCells.1 hq
      have := inj (by omega) (by omega) h
      exact Prod.ext this.2 this.1)
    (fun p hp q hq h => by
      have hp' := mem_lowerCells.1 hp; have hq' := mem_lowerCells.1 hq
      have := inj hp'.2 (by omega) h
      omega)
  refine ⟨fun i j hi hj => ?_, fun x hx => hframe x fun p hp => ?_⟩
  · rcases lt_trichotomy j i with hji | rfl | hij
    · exact (hswap (i, j) (mem_lowerCells.2 ⟨hji, hi⟩)).1
    · refine hframe _ fun p hp => ⟨fun h => ?_, fun h => ?_⟩ <;>
        have hp' := mem_lowerCells.1 hp <;> have := inj (by omega) hj h <;> omega
    · exact (hswap (j, i) (mem_lowerCells.2 ⟨hij, hj⟩)).2
  · have hp' := mem_lowerCells.1 hp
    exact ⟨hx _ _ hp'.2 (by omega), hx _ _ (by omega) hp'.2⟩

/-- The two loops of the out-of-place transpose are one loop over the cells of `m1`, row
by row. -/
theorem transposeToWith_eq (srcOf : Buf α → Buf α) (A : Buf α) (m1 m2 : Mat) :
    transposeToWith srcOf A m1 m2 = if m1.rows = m2.cols ∧ m1.cols = m2.rows then
      some (((List.range m1.rows).product (List.range m1.cols)).foldl
        (fun A c => Function.update A (m1.addr c.1 c.2) (srcOf A (m2.addr c.2 c.1))) A)
      else none := by
  simp only [transposeToWith, List.product, foldl_flatMap, List.foldl_map]

/-- The out-of-place transpose, wherever it reads `m2`, stores only at cells of `m1`. -/
theorem transposeToWith_onlyWrites {srcOf : Buf α → Buf α} {A A' : Buf α} {m1 m2 : Mat}
    (h : transposeToWith srcOf A m1 m2 = some A') : m1.OnlyWrites A A' := by
  rw [transposeToWith_eq] at h
  split_ifs at h
  exact Option.some.inj h ▸ onlyWrites_foldl_update _ _ fun c hc =>
    isCell_addr (List.mem_range.1 (List.mem_product.1 hc).1)
      (List.mem_range.1 (List.mem_product.1 hc).2)

/-- Whether the out-of-place transpose passes its assertion does not depend on the data. -/
theorem transposeToWith_isSome (srcOf srcOf' : Buf α → Buf α) (A A' : Buf α) (m1 m2 : Mat) :
    (transposeToWith srcOf A m1 m2).isSome = (transposeToWith srcOf' A' m1 m2).isSome := by
  unfold transposeToWith
  split_ifs <;> rfl

/-- **The out-of-place transpose within one data space.**  From an `m2` that shares no cell
with `m1`, no element is read after it was written: it is the transpose of the old `m2`, read
from any data space that holds its cells. -/
theorem transposeToWith_id (A S : Buf α) (m1 m2 : Mat) (hS : m2.AgreesOn S A)
    (hsep : ∀ x, m2.IsCell x → ¬ m1.IsCell x) :
    transposeToWith id A m1 m2 = transposeTo A m1 S m2 := by
  rw [transposeTo, transposeToWith_eq, transposeToWith_eq]
  refine ite_congr rfl (fun hd => congrArg some ?_) fun _ => rfl
  refine foldl_congr_of_inv (m2.AgreesOn S) _ A hS fun D hD c hc => ?_
  obtain ⟨hi, hj⟩ := List.mem_product.1 hc
  refine ⟨by rw [id_eq, hD _ (isCell_addr (hd.2 ▸ List.mem_range.1 hj)
    (hd.1 ▸ List.mem_range.1 hi))], hD.of_onlyWrites (fun x hx => ?_) hsep⟩
  exact Function.update_noteq (fun he => hx (by
    rw [he]; exact isCell_addr (List.mem_range.1 hi) (List.mem_range.1 hj))) _ _

/-- The out-of-place transpose into a block stores `m2(j, i)` at each cell `(i, j)` of `m1`. -/
theorem transposeTo_apply {A B A' : Buf α} {m1 : Block} {m2 : Mat}
    (h : transposeTo A m1.toMat B m2 = some A') {i j : Nat} (hi : i < m1.rows) (hj : j < m1.cols) :
    A' (m1.addr i j) = B (m2.addr j i) := by
  rw [transposeTo, transposeToWith_eq, Option.ite_none_right_eq_some, Option.some.injEq] at h
  have e : List.foldl (fun A c => Function.update A (m1.addr c.1 c.2) (B (m2.addr c.2 c.1))) A
      ((List.range m1.rows).product (List.range m1.cols)) = store A
      (((List.range m1.rows).product (List.range m1.cols)).map fun c =>
        (m1.addr c.1 c.2, B (m2.addr c.2 c.1))) := by rw [store, List.foldl_map]
  rw [← h.2, e]
  exact m1.store_cells_apply A (fun i j => B (m2.addr j i))
    ((List.nodup_range _).product (List.nodup_range _))
    (fun c hc => List.mem_range.1 (List.mem_product.1 hc).1)
    (List.mem_product.2 ⟨List.mem_range.2 hi, List.mem_range.2 hj⟩)

end Mat

/-- **In-place transposition.**  For every square block `M` (an owning matrix, or a view
with `ld ≥ rows`) of any size `n`, `transpose(M)` succeeds and leaves `M(i, j) = M₀(j, i)`
for all `i, j < n`: the state the out-of-place `transpose(T, M₀)` writes into any `n × n`
matrix `T`.  Applying `transpose(M)` again restores the whole data space. -/
theorem transpose_in_place_eq_out_of_place (A : Buf α) (M : Block) (hsq : M.rows = M.cols) :
    ∃ A', Mat.transpose A M.toMat = some A' ∧
      (∀ i j, i < M.rows → j < M.rows → A' (M.addr i j) = A (M.addr j i)) ∧
      (∀ (T : Matrix) (C : Buf α), T.rows = M.rows → T.cols = M.rows →
        ∃ C', Mat.transposeTo C T.toMat A M.toMat = some C' ∧
          ∀ i j, i < M.rows → j < M.rows → A' (M.addr i j) = C' (T.toMat.addr i j)) ∧
      Mat.transpose A' M.toMat = some A := by
  obtain ⟨hcell, hframe⟩ := Mat.transpose_swaps A M
  refine ⟨_, if_pos hsq, hcell, fun T C hr hc => ?_, ?_⟩
  · obtain ⟨C', hC⟩ : ∃ C', Mat.transposeTo C T.toMat A M.toMat = some C' :=
      ⟨_, if_pos ⟨hr.trans hsq, hc⟩⟩
    refine ⟨C', hC, fun i j hi hj => ?_⟩
    rw [hcell i j hi hj]
    exact (Mat.transposeTo_apply
      (show Mat.transposeTo C T.toBlock.toMat A M.toMat = some C' from hC)
      (by simpa [hr] using hi) (by simpa [hc] using hj)).symm
  · rw [Mat.transpose, if_pos hsq, Option.some.injEq]
    obtain ⟨hcell', hframe'⟩ := Mat.transpose_swaps
      ((lowerCells M.rows).foldl (fun A c => swap A (M.addr c.1 c.2) (M.addr c.2 c.1)) A) M
    exact M.buf_ext _ _ (fun i j hi hj => by rw [hcell' i j hi hj, hcell j i hj hi])
      fun x hx => by rw [hframe' x hx, hframe x hx]

/-- Transposing in place the `2 × 2` matrix holding `0, 1, 2, 3` column-major exchanges its
off-diagonal cells. -/
theorem transpose_two_by_two :
    ∃ A', Mat.transpose (fun x => (x : Int)) (Matrix.toMat ⟨2, 2⟩) = some A' ∧
      A' 1 = 2 ∧ A' 2 = 1 := by
  obtain ⟨A', h, hcell, -⟩ :=
    transpose_in_place_eq_out_of_place (fun x => (x : Int)) (Matrix.toBlock ⟨2, 2⟩) rfl
  exact ⟨A', h, hcell 1 0 (by decide) (by decide), hcell 0 1 (by decide) (by decide)⟩

/-! ## The symmetric comparison visits the upper triangle -/

/-- `List.any` over a `map`. -/
theorem any_map_eq {β γ : Type} (f : β → γ) (l : List β) (p : γ → Bool) :
    (l.map f).any p = l.any fun b => p (f b) := by
  induction l with
  | nil => rfl
  | cons b l ih => rw [List.map_cons, List.any_cons, List.any_cons, ih]

/-- `isDiffSym`'s nested loops are one search over the diagonal traversal. -/
theorem Mat.isDiffSym_eq [Sub α] [LinearOrder α] [FAbs α] (A B : Buf α) (m1 m2 : Mat) (tol : α)
    (h : m2.rows = m1.rows ∧ m2.cols = m1.cols ∧ m2.rows = m1.cols ∧ m2.cols = m1.rows) :
    Mat.isDiffSym A m1 B m2 tol = some ((diagCells m1.cols).any fun c =>
      decide (tol < fabs (A (m1.addr c.1 c.2) - B (m2.addr c.1 c.2)))) := by
  rw [Mat.isDiffSym, if_pos h, diagCells, List.any_flatMap]
  simp only [any_map_eq]

/-- **The symmetric comparison.**  For square `n × n` operands, the diagonal-by-diagonal
traversal of `isDiffSym` meets every cell `(i, j)` with `i ≤ j < n` exactly once and no
other, so `isDiffSym` reports whether some upper-triangle cell, diagonal included, differs by
more than `tol`.  When both operands are symmetric (and `m1` keeps its rows within its
stride, as every `Matrix` and view does), it answers as `isDiff`. -/
theorem isDiffSym_upper_triangle [Sub α] [LinearOrder α] [FAbs α] (A B : Buf α) (m1 m2 : Mat)
    (n : Nat) (tol : α) (h1r : m1.rows = n) (h1c : m1.cols = n) (h2r : m2.rows = n)
    (h2c : m2.cols = n) :
    (diagCells n).Nodup ∧ (∀ c, c ∈ diagCells n ↔ c.1 ≤ c.2 ∧ c.2 < n) ∧
    Mat.isDiffSym A m1 B m2 tol = some ((diagCells n).any fun c =>
      decide (tol < fabs (A (m1.addr c.1 c.2) - B (m2.addr c.1 c.2)))) ∧
    Mat.isDiffSym A m1 B m2 tol =
      some (decide (∃ i < n, ∃ j < n, i ≤ j ∧ tol < fabs (A (m1.addr i j) - B (m2.addr i j)))) ∧
    (m1.rows ≤ m1.ld → (∀ i j, i < n → j < n → A (m1.addr i j) = A (m1.addr j i)) →
      (∀ i j, i < n → j < n → B (m2.addr i j) = B (m2.addr j i)) →
      Mat.isDiffSym A m1 B m2 tol = Mat.isDiff A m1 B m2 tol) := by
  have hsym := Mat.isDiffSym_eq A B m1 m2 tol ⟨by omega, by omega, by omega, by omega⟩
  rw [h1c] at hsym
  have hdec : Mat.isDiffSym A m1 B m2 tol =
      some (decide (∃ i < n, ∃ j < n, i ≤ j ∧ tol < fabs (A (m1.addr i j) - B (m2.addr i j)))) := by
    rw [hsym, Option.some.injEq, Bool.eq_iff_iff, List.any_eq_true, decide_eq_true_iff]
    simp only [mem_diagCells, decide_eq_true_eq, Prod.exists]
    constructor
    · rintro ⟨i, j, ⟨hij, hj⟩, h⟩
      exact ⟨i, by omega, j, hj, hij, h⟩
    · rintro ⟨i, -, j, hj, hij, h⟩
      exact ⟨i, j, ⟨hij, hj⟩, h⟩
  refine ⟨diagCells_nodup n, fun c => mem_diagCells, hsym, hdec, fun hb hA hB => ?_⟩
  rw [hdec, Mat.isDiff_eq_decide ⟨m1, hb⟩ m2 tol (by simp [h1r, h2r]) (by simp [h1c, h2c]),
    Option.some.injEq, decide_eq_decide]
  simp only [h1r, h1c]
  constructor
  · rintro ⟨i, hi, j, hj, -, h⟩
    exact ⟨i, hi, j, hj, h⟩
  · rintro ⟨i, hi, j, hj, h⟩
    rcases le_total i j with hij | hji
    · exact ⟨i, hi, j, hj, hij, h⟩
    · exact ⟨j, hj, i, hi, hji, by rwa [hA j i hj hi, hB j i hj hi]⟩

/-- Two `2 × 2` matrices that differ by more than `1` at their upper corner only. -/
theorem isDiffSym_two_by_two :
    Mat.isDiffSym (fun x => (x : Int)) (Matrix.toMat ⟨2, 2⟩) (fun _ => 0) (Matrix.toMat ⟨2, 2⟩) 1 =
      some true :=
  (isDiffSym_upper_triangle _ _ _ _ 2 _ rfl rfl rfl rfl).2.2.2.1.trans (by decide)

end Dynare
