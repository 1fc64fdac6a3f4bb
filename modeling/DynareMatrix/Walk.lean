/-
# Pointer walks

The element-wise functions of namespace `mat` (`add`, `sub`, `negate`, `nrminf`,
`isDiff`, `row_copy`) and `MatrixView::setAll` do not count indices: they step raw
pointers by a stride and stop on a pointer comparison,

    for (p1 = m1.getData(), p2 = m2.getData(); p1 < m1.getData() + m1.getCols()*m1.getLd();
         p1 += m1.getLd(), p2 += m2.getLd())
      for (pp1 = p1, pp2 = p2; pp1 < p1 + m1.getRows(); pp1++, pp2++)
        ...

`walk` is that loop shape, and `walk_eq_foldl` its invariant: started `off < dp` past a
base, a walk bounded by `base + n * dp` makes exactly `n` steps.  For the nested walk of a
block (`colWalk`), `colWalk_eq_foldl` concludes that the pointers visit exactly the cells
`(i, j)` of the block, at `data + (i + j*ld)`, in column-major order.
-/
import DynareMatrix.Concept

namespace Dynare

variable {σ : Type}

/-- `List.foldl` over a `flatMap` is the nested fold. -/
theorem foldl_flatMap {α β : Type} (f : σ → β → σ) (g : α → List β) (l : List α) (s : σ) :
    (l.flatMap g).foldl f s = l.foldl (fun s a => (g a).foldl f s) s := by
  induction l generalizing s with
  | nil => rfl
  | cons a l ih => simp only [List.flatMap_cons, List.foldl_append, List.foldl_cons, ih]

/-- The pointer loop `for (p = p0, q = q0; p < stop; p += dp, q += dq) body(p, q)`.  The
walk also stops on a zero stride; the loops of `mat` start at `data` with bound
`data + cols*ld`, so a zero stride gives them a bound they are already at. -/
def walk (body : Nat → Nat → σ → σ) (stop dp dq p q : Nat) (s : σ) : σ :=
  if p < stop ∧ 0 < dp then walk body stop dp dq (p + dp) (q + dq) (body p q s) else s
termination_by stop - p
decreasing_by omega

/-- **The walk invariant.**  Started `off < dp` past `base` and bounded by
`base + n * dp`, a walk makes exactly `n` steps, the `j`-th at `base + off + j*dp`. -/
theorem walk_eq_foldl (body : Nat → Nat → σ → σ) {dp off : Nat} (hoff : off < dp) (dq : Nat) :
    ∀ (n base q : Nat) (s : σ), walk body (base + n * dp) dp dq (base + off) q s =
      (List.range n).foldl (fun s j => body (base + off + j * dp) (q + j * dq) s) s := by
  intro n
  induction n with
  | zero => intro base q s; rw [walk]; simp
  | succ n ih =>
    intro base q s
    have hlt : base + off < base + (n + 1) * dp ∧ 0 < dp := ⟨by rw [Nat.succ_mul]; omega, by omega⟩
    rw [walk, if_pos hlt, List.range_succ_eq_map, List.foldl_cons, List.foldl_map]
    have e : base + (n + 1) * dp = (base + dp) + n * dp := by rw [Nat.succ_mul]; omega
    rw [e, show base + off + dp = (base + dp) + off by omega, ih]
    congr 1
    · funext s j
      congr 1 <;> simp only [Nat.succ_eq_add_one, Nat.succ_mul] <;> omega
    · simp

/-- The nested walk over the columns of `m1`: the outer pointer steps by `m1.getLd()`
through the columns (a second pointer from `data2` by `ld2`), the inner pair by one through
the `m1.getRows()` cells of a column.  The bound `getData() + getCols()*getLd()` is taken in
ℕ, which is the code's `size_t` product on a `FitBlock` (`FitBlock.sizeMul_cols_ld`). -/
def colWalk (body : Nat → Nat → σ → σ) (m1 : Mat) (data2 ld2 : Nat) (s : σ) : σ :=
  walk (fun p1 p2 s => walk body (p1 + m1.rows) 1 1 p1 p2 s)
    (m1.data + m1.cols * m1.ld) m1.ld ld2 m1.data data2 s

/-- **The column walk visits each cell once.**  Over a block, the nested walk applies its
body at the cells `(i, j)` of `m1`, column by column, the second pointer being at the same
cell of a value with base `data2` and stride `ld2`. -/
theorem colWalk_eq_foldl (body : Nat → Nat → σ → σ) (m1 : Block) (data2 ld2 : Nat) (s : σ) :
    colWalk body m1.toMat data2 ld2 s =
      (cells m1.rows m1.cols).foldl
        (fun s c => body (m1.addr c.1 c.2) (data2 + (c.1 + c.2 * ld2)) s) s := by
  rcases Nat.eq_zero_or_pos m1.ld with hld | hld
  · have h0 : m1.rows = 0 := by have := m1.rows_le_ld; omega
    rw [colWalk, walk, if_neg (by simp [hld]), h0, cells_zero_rows, List.foldl_nil]
  · have outer := walk_eq_foldl (fun p1 p2 s => walk body (p1 + m1.rows) 1 1 p1 p2 s) hld ld2
      m1.cols m1.data data2 s
    simp only [Nat.add_zero] at outer
    rw [colWalk, outer, cells, foldl_flatMap]
    congr 1
    funext s j
    have inner := walk_eq_foldl body Nat.one_pos 1 m1.rows (m1.data + j * m1.ld) (data2 + j * ld2) s
    simp only [Nat.add_zero, Nat.mul_one] at inner
    rw [inner, List.foldl_map]
    congr 1
    funext s i
    simp only [Mat.addr]
    congr 1 <;> omega

end Dynare
