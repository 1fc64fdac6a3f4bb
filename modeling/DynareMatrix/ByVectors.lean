/-
# Assignment by index vectors

`reorderColumnsByVectors`, `reorderRowsByVectors` and `assignByVectors` emulate Matlab's
`A(:, b) = B(:, d)`, `A(a, :) = B(c, :)` and `A(a, b) = B(c, d)`, an empty
`std::vector<size_t>` standing for `:`.  Each index list is resolved the same way: an
empty list against its count (`a.getCols()`, `b.getRows()`, ...) becomes a temporary,

    tmpvp.reserve(n);
    for (size_t i = 0; i < n; ++i)
      tmpvp[i] = i;

and a non-empty list is checked element by element.  `reserve` leaves `tmpvp.size()` at 0,
so these writes, and the reads `(*vp)[k]` of the copy loops, fall past `size()` into the
reserved capacity.  The model keeps for every vector its `size()` and what its storage
holds (`SizeVec`), and logs each element access with the size of the vector accessed
(`Access`).  It reads through the storage, so the copy loops see the expanded list.

Every successful run stores the cross log `crossWrites`,
`a(toRows[i], toCols[j]) = b(rows[i], cols[j])`, of the expanded lists; the fast paths do
it in another loop order, which `store_flatMap_comm` shows to give the same state.
-/
import DynareMatrix.Elementwise
import Mathlib.Data.List.ProdSigma

namespace Dynare

variable {α : Type}

/-! ## Index vectors and their resolution -/

/-- A `std::vector<size_t>` as the copy loops read it: its `size()`, and the elements its
storage holds from the front, which may run past `size()` into reserved capacity. -/
structure SizeVec where
  size : Nat
  elems : List Nat
deriving DecidableEq, Repr

/-- `v[k]`, read from the storage whatever `size()` is. -/
def SizeVec.get (v : SizeVec) (k : Nat) : Nat := v.elems.getD k 0

/-- One element access `v[index]` to a vector whose `size()` is `size`. -/
structure Access where
  index : Nat
  size : Nat
deriving DecidableEq, Repr

/-- The index list an argument stands for against its count `n`: `:` when it is empty. -/
def expand (v : List Nat) (n : Nat) : List Nat := if v.length = 0 then List.range n else v

/-- What resolving checks of a list: `assert(v[i] < n)` for each element, then
`assert(v.size() <= n)`; both hold of the empty list. -/
def Checked (v : List Nat) (n : Nat) : Prop := (∀ x ∈ v, x < n) ∧ v.length ≤ n

instance (v : List Nat) (n : Nat) : Decidable (Checked v n) :=
  inferInstanceAs (Decidable (_ ∧ _))

/-- One index list `v` resolved against its count `n`.  An empty list becomes the
temporary after `reserve(n)` and the `n` writes `tmpvp[i] = i`; a non-empty one passes its
checks.  Returns the vector the copy loop reads through `vp`, whose stored elements number
the loop count (`n`, or `v.size()`), and the element accesses made. -/
def resolve (v : List Nat) (n : Nat) : Option (SizeVec × List Access) :=
  if v.length = 0 then
    some (⟨0, List.range n⟩, (List.range n).map fun i => ⟨i, 0⟩)
  else if (∀ x ∈ v, x < n) ∧ v.length ≤ n then
    some (⟨v.length, v⟩, (List.range v.length).map fun i => ⟨i, v.length⟩)
  else none

/-- The accesses of resolving `v` against `n`: one per element of its expansion, to a
vector of `size()` the length of `v`. -/
def resolveLog (v : List Nat) (n : Nat) : List Access :=
  (List.range (expand v n).length).map fun i => ⟨i, v.length⟩

/-- **Resolution.**  A list resolves when it passes its checks, to a vector of `size()`
its own length holding its expansion. -/
theorem resolve_eq (v : List Nat) (n : Nat) :
    resolve v n = if Checked v n then some (⟨v.length, expand v n⟩, resolveLog v n) else none := by
  unfold resolve resolveLog expand Checked
  by_cases hv : v.length = 0
  · simp [hv, List.length_eq_zero.1 hv]
  · simp [hv]

theorem lt_of_mem_expand {v : List Nat} {n x : Nat} (hv : Checked v n) (hx : x ∈ expand v n) :
    x < n := by
  unfold expand at hx
  split_ifs at hx
  · exact List.mem_range.1 hx
  · exact hv.1 x hx

theorem length_expand_le {v : List Nat} {n : Nat} (hv : Checked v n) : (expand v n).length ≤ n := by
  unfold expand
  split_ifs
  · exact (List.length_range n).le
  · exact hv.2

@[simp] theorem expand_nil (n : Nat) : expand [] n = List.range n := rfl

theorem checked_nil (n : Nat) : Checked [] n := ⟨nofun, Nat.zero_le _⟩

theorem expand_of_ne_nil {v : List Nat} (hv : v ≠ []) (n : Nat) : expand v n = v :=
  if_neg (mt List.length_eq_zero.1 hv)

theorem getD_range {n i : Nat} (hi : i < n) : (List.range n).getD i 0 = i := by
  simp [List.getElem?_range hi]

theorem getD_mem {l : List Nat} {i : Nat} (hi : i < l.length) : l.getD i 0 ∈ l := by
  simp [List.getElem?_eq_getElem hi, List.getElem_mem]

theorem getD_inj_of_nodup {l : List Nat} (h : l.Nodup) {i j : Nat} (hi : i < l.length)
    (hj : j < l.length) (e : l.getD i 0 = l.getD j 0) : i = j := by
  simp only [List.getD_eq_getElem?_getD, List.getElem?_eq_getElem hi, List.getElem?_eq_getElem hj,
    Option.getD_some] at e
  exact h.getElem_inj_iff.1 e

/-! ## The three functions -/

/-- The stores `a(toRows[i], toCols[j]) = b(rows[i], cols[j])` for `i < |rows|` and
`j < |cols|`, row by row. -/
def crossWrites (a : Mat) (toRows toCols : List Nat) (B : Buf α) (b : Mat)
    (rows cols : List Nat) : List (Nat × α) :=
  (List.range rows.length).flatMap fun i => (List.range cols.length).map fun j =>
    (a.addr (toRows.getD i 0) (toCols.getD j 0), B (b.addr (rows.getD i 0) (cols.getD j 0)))

namespace Mat

/-- `mat::reorderColumnsByVectors(a, vToCols, b, vcols)`, the destination `a` in `A`: after
`assert(b.getRows() == a.getRows())`, `a = b` when both lists are empty; otherwise both
lists resolved, `assert(toncols == ncols && ncols > 0)`, and
`col_copy(b, (*vpCols)[j], a, (*vpToCols)[j])` for each `j < ncols`, each copy reading `b`
from `srcOf` of the data space as it stands. -/
def reorderColumnsByVectorsWith (srcOf : Buf α → Buf α) (A : Buf α) (a : Mat)
    (vToCols : List Nat) (b : Mat) (vcols : List Nat) : Option (Buf α × List Access) :=
  if b.rows = a.rows then
    if vToCols.length = 0 ∧ vcols.length = 0 then (assignWith srcOf A a b).map fun A => (A, [])
    else do
      let toCols ← resolve vToCols a.cols
      let cols ← resolve vcols b.cols
      let ncols := cols.1.elems.length
      if toCols.1.elems.length = ncols ∧ 0 < ncols then
        let A ← (List.range ncols).foldlM
          (fun A j => colCopy (srcOf A) b (cols.1.get j) A a (toCols.1.get j)) A
        some (A, toCols.2 ++ cols.2 ++
          (List.range ncols).flatMap fun j => [⟨j, cols.1.size⟩, ⟨j, toCols.1.size⟩])
      else none
  else none

/-- `reorderColumnsByVectors` from a source `b` stored apart, in `B`. -/
def reorderColumnsByVectors (A : Buf α) (a : Mat) (vToCols : List Nat) (B : Buf α) (b : Mat)
    (vcols : List Nat) : Option (Buf α × List Access) :=
  reorderColumnsByVectorsWith (fun _ => B) A a vToCols b vcols

/-- `mat::reorderRowsByVectors(a, vToRows, b, vrows)`: after
`assert(b.getCols() == a.getCols())`, `a = b` when both lists are empty; otherwise both
lists resolved, `assert(tonrows == nrows && nrows > 0)`, and
`row_copy(b, (*vpRows)[i], a, (*vpToRows)[i])` for each `i < nrows`, reading `b` from
`srcOf` of the data space as it stands. -/
def reorderRowsByVectorsWith (srcOf : Buf α → Buf α) (A : Buf α) (a : Mat) (vToRows : List Nat)
    (b : Mat) (vrows : List Nat) : Option (Buf α × List Access) :=
  if b.cols = a.cols then
    if vToRows.length = 0 ∧ vrows.length = 0 then (assignWith srcOf A a b).map fun A => (A, [])
    else do
      let toRows ← resolve vToRows a.rows
      let rows ← resolve vrows b.rows
      let nrows := rows.1.elems.length
      if toRows.1.elems.length = nrows ∧ 0 < nrows then
        let A ← (List.range nrows).foldlM
          (fun A i => rowCopyWith srcOf A b (rows.1.get i) a (toRows.1.get i)) A
        some (A, toRows.2 ++ rows.2 ++
          (List.range nrows).flatMap fun i => [⟨i, rows.1.size⟩, ⟨i, toRows.1.size⟩])
      else none
  else none

/-- `reorderRowsByVectors` from a source `b` stored apart, in `B`. -/
def reorderRowsByVectors (A : Buf α) (a : Mat) (vToRows : List Nat) (B : Buf α) (b : Mat)
    (vrows : List Nat) : Option (Buf α × List Access) :=
  reorderRowsByVectorsWith (fun _ => B) A a vToRows b vrows

/-- The general branch of `mat::assignByVectors`: the four lists resolved,
`assert(tonrows == nrows && toncols == ncols && nrows * ncols > 0)` with a `size_t`
product, and `a((*vpToRows)[i], (*vpToCols)[j]) = b((*vpRows)[i], (*vpCols)[j])` for
`i < nrows`, `j < ncols`, row by row, each `b(·, ·)` read from `srcOf` of the data space as
it stands. -/
def assignGeneralWith (srcOf : Buf α → Buf α) (A : Buf α) (a : Mat) (vToRows vToCols : List Nat)
    (b : Mat) (vrows vcols : List Nat) : Option (Buf α × List Access) := do
  let toRows ← resolve vToRows a.rows
  let toCols ← resolve vToCols a.cols
  let rows ← resolve vrows b.rows
  let cols ← resolve vcols b.cols
  let nrows := rows.1.elems.length
  let ncols := cols.1.elems.length
  if toRows.1.elems.length = nrows ∧ toCols.1.elems.length = ncols ∧ 0 < sizeMul nrows ncols then
    some ((List.range nrows).foldl (fun A i => (List.range ncols).foldl (fun A j =>
        Function.update A (a.addr (toRows.1.get i) (toCols.1.get j))
          (srcOf A (b.addr (rows.1.get i) (cols.1.get j)))) A) A,
      toRows.2 ++ toCols.2 ++ rows.2 ++ cols.2 ++ (List.range nrows).flatMap fun i =>
        (List.range ncols).flatMap fun j =>
          [⟨i, toRows.1.size⟩, ⟨j, toCols.1.size⟩, ⟨i, rows.1.size⟩, ⟨j, cols.1.size⟩])
  else none

/-- The general branch from a source `b` stored apart, in `B`. -/
def assignGeneral (A : Buf α) (a : Mat) (vToRows vToCols : List Nat) (B : Buf α) (b : Mat)
    (vrows vcols : List Nat) : Option (Buf α × List Access) :=
  assignGeneralWith (fun _ => B) A a vToRows vToCols b vrows vcols

/-- `mat::assignByVectors(a, vToRows, vToCols, b, vrows, vcols)`: `a = b` when all four
lists are empty, `reorderColumnsByVectors` when both row lists are,
`reorderRowsByVectors` when both column lists are, the general branch otherwise. -/
def assignByVectorsWith (srcOf : Buf α → Buf α) (A : Buf α) (a : Mat) (vToRows vToCols : List Nat)
    (b : Mat) (vrows vcols : List Nat) : Option (Buf α × List Access) :=
  if vToRows.length = 0 ∧ vToCols.length = 0 ∧ vrows.length = 0 ∧ vcols.length = 0 then
    (assignWith srcOf A a b).map fun A => (A, [])
  else if vToRows.length = 0 ∧ vrows.length = 0 then
    reorderColumnsByVectorsWith srcOf A a vToCols b vcols
  else if vToCols.length = 0 ∧ vcols.length = 0 then
    reorderRowsByVectorsWith srcOf A a vToRows b vrows
  else assignGeneralWith srcOf A a vToRows vToCols b vrows vcols

/-- `assignByVectors` from a source `b` stored apart, in `B`. -/
def assignByVectors (A : Buf α) (a : Mat) (vToRows vToCols : List Nat) (B : Buf α) (b : Mat)
    (vrows vcols : List Nat) : Option (Buf α × List Access) :=
  assignByVectorsWith (fun _ => B) A a vToRows vToCols b vrows vcols

/-- The dispatch of `assignByVectors` from a source stored apart. -/
theorem assignByVectors_eq (A : Buf α) (a : Mat) (vToRows vToCols : List Nat) (B : Buf α)
    (b : Mat) (vrows vcols : List Nat) :
    assignByVectors A a vToRows vToCols B b vrows vcols =
      if vToRows.length = 0 ∧ vToCols.length = 0 ∧ vrows.length = 0 ∧ vcols.length = 0 then
        (assign A a B b).map fun A => (A, [])
      else if vToRows.length = 0 ∧ vrows.length = 0 then
        reorderColumnsByVectors A a vToCols B b vcols
      else if vToCols.length = 0 ∧ vcols.length = 0 then
        reorderRowsByVectors A a vToRows B b vrows
      else assignGeneral A a vToRows vToCols B b vrows vcols := rfl

end Mat

/-! ## Every successful run stores the cross log -/

/-- A checked step followed by the rest of a run. -/
theorem ite_bind_none {β γ : Type} (c : Prop) [Decidable c] (x : β) (f : β → Option γ) :
    (if c then some x else none) >>= f = if c then f x else none := by
  split_ifs <;> rfl

section Runs

variable (A B : Buf α)

/-- The cross log, stored, is the row-by-row loop of its stores. -/
theorem store_crossWrites_eq_foldl (a : Mat) (toRows toCols : List Nat) (b : Mat)
    (rows cols : List Nat) :
    store A (crossWrites a toRows toCols B b rows cols) =
      (List.range rows.length).foldl (fun A i => (List.range cols.length).foldl (fun A j =>
        Function.update A (a.addr (toRows.getD i 0) (toCols.getD j 0))
          (B (b.addr (rows.getD i 0) (cols.getD j 0)))) A) A := by
  rw [store, crossWrites, foldl_flatMap]
  simp only [List.foldl_map]

/-- **The general branch.**  It passes its assertions when the four lists pass their checks,
the row and column counts agree and their `size_t` product is positive, and then stores
`b(rows[i], cols[j])` at `a(toRows[i], toCols[j])`, row by row, of the expanded lists. -/
theorem assignGeneralWith_eq (srcOf : Buf α → Buf α) (a b : Mat)
    (vToRows vToCols vrows vcols : List Nat) :
    Mat.assignGeneralWith srcOf A a vToRows vToCols b vrows vcols =
      if Checked vToRows a.rows ∧ Checked vToCols a.cols ∧ Checked vrows b.rows ∧
          Checked vcols b.cols ∧ (expand vToRows a.rows).length = (expand vrows b.rows).length ∧
          (expand vToCols a.cols).length = (expand vcols b.cols).length ∧
          0 < sizeMul (expand vrows b.rows).length (expand vcols b.cols).length then
        some ((List.range (expand vrows b.rows).length).foldl (fun A i =>
            (List.range (expand vcols b.cols).length).foldl (fun A j => Function.update A
              (a.addr ((expand vToRows a.rows).getD i 0) ((expand vToCols a.cols).getD j 0))
              (srcOf A (b.addr ((expand vrows b.rows).getD i 0) ((expand vcols b.cols).getD j 0))))
            A) A,
          resolveLog vToRows a.rows ++ resolveLog vToCols a.cols ++ resolveLog vrows b.rows ++
            resolveLog vcols b.cols ++ (List.range (expand vrows b.rows).length).flatMap fun i =>
              (List.range (expand vcols b.cols).length).flatMap fun j =>
                [⟨i, vToRows.length⟩, ⟨j, vToCols.length⟩, ⟨i, vrows.length⟩, ⟨j, vcols.length⟩])
      else none := by
  simp only [Mat.assignGeneralWith, resolve_eq, ite_bind_none, ite_and, SizeVec.get]

/-- The general branch from a source stored apart stores the cross log of the four expanded
lists. -/
theorem assignGeneral_eq (a b : Mat) (vToRows vToCols vrows vcols : List Nat) :
    Mat.assignGeneral A a vToRows vToCols B b vrows vcols =
      if Checked vToRows a.rows ∧ Checked vToCols a.cols ∧ Checked vrows b.rows ∧
          Checked vcols b.cols ∧ (expand vToRows a.rows).length = (expand vrows b.rows).length ∧
          (expand vToCols a.cols).length = (expand vcols b.cols).length ∧
          0 < sizeMul (expand vrows b.rows).length (expand vcols b.cols).length then
        some (store A (crossWrites a (expand vToRows a.rows) (expand vToCols a.cols) B b
            (expand vrows b.rows) (expand vcols b.cols)),
          resolveLog vToRows a.rows ++ resolveLog vToCols a.cols ++ resolveLog vrows b.rows ++
            resolveLog vcols b.cols ++ (List.range (expand vrows b.rows).length).flatMap fun i =>
              (List.range (expand vcols b.cols).length).flatMap fun j =>
                [⟨i, vToRows.length⟩, ⟨j, vToCols.length⟩, ⟨i, vrows.length⟩, ⟨j, vcols.length⟩])
      else none := by
  rw [Mat.assignGeneral, assignGeneralWith_eq, store_crossWrites_eq_foldl]

/-- Over a destination block, the cross log with all rows on both sides may be stored
column by column: the stores of different rows go to different cells. -/
theorem store_crossWrites_by_columns (a : Block) (b : Mat) (hr : b.rows = a.rows)
    (toCols cols : List Nat) :
    store A (crossWrites a.toMat (List.range a.rows) toCols B b (List.range b.rows) cols) =
      store A ((List.range cols.length).flatMap fun j => (List.range a.rows).map fun i =>
        (a.addr i (toCols.getD j 0), B (b.addr i (cols.getD j 0)))) := by
  rw [crossWrites, List.length_range, hr, store_flatMap_comm A (List.range cols.length) _
    (List.nodup_range _) fun i hi i' hi' hne _ _ _ _ h => hne ?_]
  · refine congrArg (store A) (List.flatMap_congr fun j _ => List.map_congr_left fun i hi => ?_)
    rw [getD_range (List.mem_range.1 hi)]
  · have hi := List.mem_range.1 hi
    have hi' := List.mem_range.1 hi'
    rw [getD_range hi, getD_range hi'] at h
    exact (Mat.addr_inj (Nat.lt_of_lt_of_le hi a.rows_le_ld)
      (Nat.lt_of_lt_of_le hi' a.rows_le_ld) h).1

/-- **The column reordering**, when its two lists are not both empty: it passes its
assertions when the rows agree and both lists pass their checks with the same positive
count, and then makes one column copy per listed column. -/
theorem reorderColumnsByVectorsWith_eq (srcOf : Buf α → Buf α) (a b : Mat)
    (vToCols vcols : List Nat) (hne : ¬ (vToCols.length = 0 ∧ vcols.length = 0)) :
    Mat.reorderColumnsByVectorsWith srcOf A a vToCols b vcols =
      if b.rows = a.rows ∧ Checked vToCols a.cols ∧ Checked vcols b.cols ∧
          (expand vToCols a.cols).length = (expand vcols b.cols).length ∧
          0 < (expand vcols b.cols).length then
        (List.range (expand vcols b.cols).length).foldlM (fun A j => Mat.colCopy (srcOf A) b
            ((expand vcols b.cols).getD j 0) A a ((expand vToCols a.cols).getD j 0)) A >>=
          fun A => some (A, resolveLog vToCols a.cols ++ resolveLog vcols b.cols ++
            (List.range (expand vcols b.cols).length).flatMap fun j =>
              [⟨j, vcols.length⟩, ⟨j, vToCols.length⟩])
      else none := by
  simp only [Mat.reorderColumnsByVectorsWith, hne, if_false, resolve_eq, ite_bind_none, ite_and,
    SizeVec.get]

/-- The column reordering from a source stored apart stores the cross log of the expanded
lists with all rows on both sides. -/
theorem reorderColumnsByVectors_eq (a b : Block) (vToCols vcols : List Nat)
    (hne : ¬ (vToCols.length = 0 ∧ vcols.length = 0)) :
    Mat.reorderColumnsByVectors A a.toMat vToCols B b.toMat vcols =
      if b.rows = a.rows ∧ Checked vToCols a.cols ∧ Checked vcols b.cols ∧
          (expand vToCols a.cols).length = (expand vcols b.cols).length ∧
          0 < (expand vcols b.cols).length then
        some (store A (crossWrites a.toMat (List.range a.rows) (expand vToCols a.cols) B b.toMat
            (List.range b.rows) (expand vcols b.cols)),
          resolveLog vToCols a.cols ++ resolveLog vcols b.cols ++
            (List.range (expand vcols b.cols).length).flatMap fun j =>
              [⟨j, vcols.length⟩, ⟨j, vToCols.length⟩])
      else none := by
  rw [Mat.reorderColumnsByVectors, reorderColumnsByVectorsWith_eq A _ _ _ _ _ hne]
  refine ite_congr rfl (fun hc => ?_) fun _ => rfl
  obtain ⟨hr, h1, h2, hl, -⟩ := hc
  rw [foldlM_eq_some _ _ _ fun D j hj => Mat.colCopy_eq_store ⟨hr, lt_of_mem_expand h2
    (getD_mem (List.mem_range.1 hj)), lt_of_mem_expand h1 (getD_mem (hl ▸ List.mem_range.1 hj))⟩,
    foldl_store, store_crossWrites_by_columns A B a b.toMat hr]
  rfl

/-- **The row reordering**, when its two lists are not both empty: one row copy per listed
row. -/
theorem reorderRowsByVectorsWith_eq (srcOf : Buf α → Buf α) (a b : Mat)
    (vToRows vrows : List Nat) (hne : ¬ (vToRows.length = 0 ∧ vrows.length = 0)) :
    Mat.reorderRowsByVectorsWith srcOf A a vToRows b vrows =
      if b.cols = a.cols ∧ Checked vToRows a.rows ∧ Checked vrows b.rows ∧
          (expand vToRows a.rows).length = (expand vrows b.rows).length ∧
          0 < (expand vrows b.rows).length then
        (List.range (expand vrows b.rows).length).foldlM (fun A i => Mat.rowCopyWith srcOf A b
            ((expand vrows b.rows).getD i 0) a ((expand vToRows a.rows).getD i 0)) A >>=
          fun A => some (A, resolveLog vToRows a.rows ++ resolveLog vrows b.rows ++
            (List.range (expand vrows b.rows).length).flatMap fun i =>
              [⟨i, vrows.length⟩, ⟨i, vToRows.length⟩])
      else none := by
  simp only [Mat.reorderRowsByVectorsWith, hne, if_false, resolve_eq, ite_bind_none, ite_and,
    SizeVec.get]

/-- The row reordering from a source stored apart stores the cross log of the expanded
lists with all columns on both sides. -/
theorem reorderRowsByVectors_eq (a b : Block) (vToRows vrows : List Nat)
    (hne : ¬ (vToRows.length = 0 ∧ vrows.length = 0)) :
    Mat.reorderRowsByVectors A a.toMat vToRows B b.toMat vrows =
      if b.cols = a.cols ∧ Checked vToRows a.rows ∧ Checked vrows b.rows ∧
          (expand vToRows a.rows).length = (expand vrows b.rows).length ∧
          0 < (expand vrows b.rows).length then
        some (store A (crossWrites a.toMat (expand vToRows a.rows) (List.range a.cols) B b.toMat
            (expand vrows b.rows) (List.range b.cols)),
          resolveLog vToRows a.rows ++ resolveLog vrows b.rows ++
            (List.range (expand vrows b.rows).length).flatMap fun i =>
              [⟨i, vrows.length⟩, ⟨i, vToRows.length⟩])
      else none := by
  rw [Mat.reorderRowsByVectors, reorderRowsByVectorsWith_eq A _ _ _ _ _ hne]
  refine ite_congr rfl (fun hc => ?_) fun _ => rfl
  obtain ⟨hc, h1, h2, hl, -⟩ := hc
  rw [foldlM_eq_some _ _ _ fun D i hi => Mat.rowCopyWith_const_eq_some_iff.2 ⟨⟨hc,
    lt_of_mem_expand h2 (getD_mem (List.mem_range.1 hi)),
    lt_of_mem_expand h1 (getD_mem (hl ▸ List.mem_range.1 hi))⟩, rfl⟩,
    foldl_store, crossWrites, List.length_range]
  refine congrArg (fun ws => some (store A ws, _)) (List.flatMap_congr fun i _ =>
    List.map_congr_left fun k hk => ?_)
  rw [getD_range (List.mem_range.1 hk), getD_range (hc ▸ List.mem_range.1 hk)]

/-- The postcondition of an assignment by index lists: each `a(toRows[i], toCols[j])` holds
the old `b(rows[i], cols[j])`, and every other offset keeps its value. -/
def CrossAssigned (A' : Buf α) (a : Mat) (toRows toCols : List Nat) (b : Mat)
    (rows cols : List Nat) : Prop :=
  (∀ i j, i < rows.length → j < cols.length →
    A' (a.addr (toRows.getD i 0) (toCols.getD j 0)) = B (b.addr (rows.getD i 0) (cols.getD j 0))) ∧
  ∀ x, (∀ i j, i < rows.length → j < cols.length → a.addr (toRows.getD i 0) (toCols.getD j 0) ≠ x) →
    A' x = A x

/-- **Readback of the cross log.**  Over a destination block, with duplicate-free
destination lists inside it and as long as the source lists, the cross log assigns. -/
theorem store_crossWrites_assigns (a : Block) (b : Mat) {toRows toCols rows cols : List Nat}
    (hlr : toRows.length = rows.length) (hlc : toCols.length = cols.length)
    (hr : ∀ x ∈ toRows, x < a.rows) (hndr : toRows.Nodup) (hndc : toCols.Nodup) :
    CrossAssigned A B (store A (crossWrites a.toMat toRows toCols B b rows cols)) a.toMat toRows
      toCols b rows cols := by
  refine ⟨fun i j hi hj => ?_, fun x hx => store_apply_of_not_mem fun w hw hwx => ?_⟩
  · have e : crossWrites a.toMat toRows toCols B b rows cols =
        ((List.range rows.length).product (List.range cols.length)).map fun q =>
          (a.addr (toRows.getD q.1 0, toCols.getD q.2 0).1 (toRows.getD q.1 0, toCols.getD q.2 0).2,
            B (b.addr (rows.getD q.1 0) (cols.getD q.2 0))) := by
      simp only [crossWrites, List.product, List.map_flatMap, List.map_map, Function.comp_def]
    have hnd : (((List.range rows.length).product (List.range cols.length)).map fun q =>
        (toRows.getD q.1 0, toCols.getD q.2 0)).Nodup :=
      ((List.nodup_range _).product (List.nodup_range _)).map_on fun q hq q' hq' h => by
        obtain ⟨hq₁, hq₂⟩ := List.mem_product.1 hq
        obtain ⟨hq₁', hq₂'⟩ := List.mem_product.1 hq'
        obtain ⟨h₁, h₂⟩ := Prod.mk.inj h
        rw [List.mem_range] at hq₁ hq₂ hq₁' hq₂'
        exact Prod.ext (getD_inj_of_nodup hndr (by omega) (by omega) h₁)
          (getD_inj_of_nodup hndc (by omega) (by omega) h₂)
    rw [e]
    exact a.store_map_apply A _ (fun q => B (b.addr (rows.getD q.1 0) (cols.getD q.2 0))) hnd
      (fun q hq => hr _ (getD_mem (by have := List.mem_range.1 (List.mem_product.1 hq).1; omega)))
      (List.mem_product.2 ⟨List.mem_range.2 hi, List.mem_range.2 hj⟩)
  · simp only [crossWrites, List.mem_flatMap, List.mem_map, List.mem_range] at hw
    obtain ⟨i, hi, j, hj, rfl⟩ := hw
    exact hx i j hi hj hwx

/-- The template assignment `a = b` stores the cross log of all rows and all columns. -/
theorem store_cellWrites_eq_crossWrites (a : Block) (b : Mat) (hr : b.rows = a.rows)
    (hc : b.cols = a.cols) :
    store A (a.cellWrites fun i j => B (b.addr i j)) = store A (crossWrites a.toMat
      (List.range a.rows) (List.range a.cols) B b (List.range b.rows) (List.range b.cols)) := by
  rw [store_crossWrites_by_columns A B a b hr, List.length_range, hc]
  simp only [Mat.cellWrites, cells, List.map_flatMap, List.map_map, Function.comp_def]
  refine congrArg (store A) (List.flatMap_congr fun j hj => List.map_congr_left fun i _ => ?_)
  rw [getD_range (List.mem_range.1 hj)]

/-- A column reordering that succeeds stores the cross log of its expanded lists, all rows
on both sides. -/
theorem reorderColumnsByVectors_store (a b : Block) {vToCols vcols : List Nat}
    {r : Buf α × List Access}
    (h : Mat.reorderColumnsByVectors A a.toMat vToCols B b.toMat vcols = some r) :
    b.rows = a.rows ∧ Checked vToCols a.cols ∧ Checked vcols b.cols ∧
      (expand vToCols a.cols).length = (expand vcols b.cols).length ∧
      r.1 = store A (crossWrites a.toMat (List.range a.rows) (expand vToCols a.cols) B b.toMat
        (List.range b.rows) (expand vcols b.cols)) := by
  by_cases hne : vToCols.length = 0 ∧ vcols.length = 0
  · rw [List.length_eq_zero, List.length_eq_zero] at hne
    obtain ⟨rfl, rfl⟩ := hne
    simp only [Mat.reorderColumnsByVectors, Mat.reorderColumnsByVectorsWith, List.length_nil,
      and_self, if_true, Mat.assignWith_const, Mat.assign_eq] at h
    split_ifs at h with hr hd <;> cases h
    exact ⟨hr, ⟨nofun, Nat.zero_le _⟩, ⟨nofun, Nat.zero_le _⟩, by simp [hd.2],
      store_cellWrites_eq_crossWrites A B a b.toMat hr hd.2.symm⟩
  · rw [reorderColumnsByVectors_eq A B a b _ _ hne] at h
    split_ifs at h with hc
    cases h
    exact ⟨hc.1, hc.2.1, hc.2.2.1, hc.2.2.2.1, rfl⟩

/-- A row reordering that succeeds stores the cross log of its expanded lists, all columns
on both sides. -/
theorem reorderRowsByVectors_store (a b : Block) {vToRows vrows : List Nat}
    {r : Buf α × List Access}
    (h : Mat.reorderRowsByVectors A a.toMat vToRows B b.toMat vrows = some r) :
    b.cols = a.cols ∧ Checked vToRows a.rows ∧ Checked vrows b.rows ∧
      (expand vToRows a.rows).length = (expand vrows b.rows).length ∧
      r.1 = store A (crossWrites a.toMat (expand vToRows a.rows) (List.range a.cols) B b.toMat
        (expand vrows b.rows) (List.range b.cols)) := by
  by_cases hne : vToRows.length = 0 ∧ vrows.length = 0
  · rw [List.length_eq_zero, List.length_eq_zero] at hne
    obtain ⟨rfl, rfl⟩ := hne
    simp only [Mat.reorderRowsByVectors, Mat.reorderRowsByVectorsWith, List.length_nil,
      and_self, if_true, Mat.assignWith_const, Mat.assign_eq] at h
    split_ifs at h with hc hd <;> cases h
    exact ⟨hc, ⟨nofun, Nat.zero_le _⟩, ⟨nofun, Nat.zero_le _⟩, by simp [hd.1],
      store_cellWrites_eq_crossWrites A B a b.toMat hd.1.symm hc⟩
  · rw [reorderRowsByVectors_eq A B a b _ _ hne] at h
    split_ifs at h with hc
    cases h
    exact ⟨hc.1, hc.2.1, hc.2.2.1, hc.2.2.2.1, rfl⟩

/-- An assignment by vectors that succeeds, on whichever path, stores the cross log of its
four expanded lists. -/
theorem assignByVectors_store (a b : Block) {vToRows vToCols vrows vcols : List Nat}
    {r : Buf α × List Access}
    (h : Mat.assignByVectors A a.toMat vToRows vToCols B b.toMat vrows vcols = some r) :
    Checked vToRows a.rows ∧ (expand vToRows a.rows).length = (expand vrows b.rows).length ∧
      (expand vToCols a.cols).length = (expand vcols b.cols).length ∧
      r.1 = store A (crossWrites a.toMat (expand vToRows a.rows) (expand vToCols a.cols) B b.toMat
        (expand vrows b.rows) (expand vcols b.cols)) := by
  rw [Mat.assignByVectors_eq] at h
  split_ifs at h with h4 hrow hcol
  · simp only [List.length_eq_zero] at h4
    obtain ⟨rfl, rfl, rfl, rfl⟩ := h4
    rw [Mat.assign_eq] at h
    split_ifs at h with hd <;> cases h
    exact ⟨⟨nofun, Nat.zero_le _⟩, by simp [hd.1], by simp [hd.2],
      store_cellWrites_eq_crossWrites A B a b.toMat hd.1.symm hd.2.symm⟩
  · simp only [List.length_eq_zero] at hrow
    obtain ⟨rfl, rfl⟩ := hrow
    obtain ⟨hr, -, -, hl, hA⟩ := reorderColumnsByVectors_store A B a b h
    exact ⟨⟨nofun, Nat.zero_le _⟩, by simp [hr], hl, hA⟩
  · simp only [List.length_eq_zero] at hcol
    obtain ⟨rfl, rfl⟩ := hcol
    obtain ⟨hc, h1, -, hl, hA⟩ := reorderRowsByVectors_store A B a b h
    exact ⟨h1, hl, by simp [hc], hA⟩
  · rw [assignGeneral_eq] at h
    split_ifs at h with hc
    cases h
    exact ⟨hc.1, hc.2.2.2.2.1, hc.2.2.2.2.2.1, rfl⟩

end Runs

/-! ## Where the source is read -/

/-- A checked step followed by a final result passes exactly when the step does. -/
theorem isSome_bind_some {β γ : Type} (x : Option β) (f : β → γ) :
    (x >>= fun b => some (f b)).isSome = x.isSome := by
  cases x <;> rfl

theorem Mat.colCopy_isSome (S S' D D' : Buf α) (src : Mat) (cs : Nat) (dest : Mat) (cd : Nat) :
    (Mat.colCopy S src cs D dest cd).isSome = (Mat.colCopy S' src cs D' dest cd).isSome := by
  unfold Mat.colCopy
  split_ifs <;> rfl

theorem Mat.rowCopyWith_isSome (srcOf srcOf' : Buf α → Buf α) (D D' : Buf α) (src : Mat)
    (rs : Nat) (dest : Mat) (rd : Nat) :
    (Mat.rowCopyWith srcOf D src rs dest rd).isSome =
      (Mat.rowCopyWith srcOf' D' src rs dest rd).isSome := by
  unfold Mat.rowCopyWith
  split_ifs <;> rfl

theorem Mat.assignWith_isSome (srcOf srcOf' : Buf α → Buf α) (A A' : Buf α) (a b : Mat) :
    (Mat.assignWith srcOf A a b).isSome = (Mat.assignWith srcOf' A' a b).isSome := by
  unfold Mat.assignWith
  split_ifs <;> rfl

section Sources

variable (srcOf srcOf' : Buf α → Buf α) (A A' : Buf α)

/-- Whether the column reordering passes its assertions depends on the shapes and the
lists, not on the contents of the data spaces nor on where the source is read. -/
theorem reorderColumnsByVectorsWith_isSome (a b : Mat) (vToCols vcols : List Nat) :
    (Mat.reorderColumnsByVectorsWith srcOf A a vToCols b vcols).isSome =
      (Mat.reorderColumnsByVectorsWith srcOf' A' a vToCols b vcols).isSome := by
  by_cases hne : vToCols.length = 0 ∧ vcols.length = 0
  · simp only [Mat.reorderColumnsByVectorsWith, hne, and_self, if_true]
    split_ifs
    · rw [Option.isSome_map', Option.isSome_map', Mat.assignWith_isSome srcOf srcOf' A A']
    · rfl
  · rw [reorderColumnsByVectorsWith_eq A _ _ _ _ _ hne,
      reorderColumnsByVectorsWith_eq A' _ _ _ _ _ hne]
    split_ifs
    · rw [isSome_bind_some, isSome_bind_some]
      exact foldlM_isSome_eq _ _ _ fun _ _ _ _ => Mat.colCopy_isSome _ _ _ _ _ _ _ _
    · rfl

/-- Whether the row reordering passes its assertions depends on the shapes and the lists. -/
theorem reorderRowsByVectorsWith_isSome (a b : Mat) (vToRows vrows : List Nat) :
    (Mat.reorderRowsByVectorsWith srcOf A a vToRows b vrows).isSome =
      (Mat.reorderRowsByVectorsWith srcOf' A' a vToRows b vrows).isSome := by
  by_cases hne : vToRows.length = 0 ∧ vrows.length = 0
  · simp only [Mat.reorderRowsByVectorsWith, hne, and_self, if_true]
    split_ifs
    · rw [Option.isSome_map', Option.isSome_map', Mat.assignWith_isSome srcOf srcOf' A A']
    · rfl
  · rw [reorderRowsByVectorsWith_eq A _ _ _ _ _ hne, reorderRowsByVectorsWith_eq A' _ _ _ _ _ hne]
    split_ifs
    · rw [isSome_bind_some, isSome_bind_some]
      exact foldlM_isSome_eq _ _ _ fun _ _ _ _ => Mat.rowCopyWith_isSome _ _ _ _ _ _ _ _
    · rfl

/-- Whether an assignment by vectors passes its assertions depends on the shapes and the
lists only. -/
theorem assignByVectorsWith_isSome (a b : Mat) (vToRows vToCols vrows vcols : List Nat) :
    (Mat.assignByVectorsWith srcOf A a vToRows vToCols b vrows vcols).isSome =
      (Mat.assignByVectorsWith srcOf' A' a vToRows vToCols b vrows vcols).isSome := by
  unfold Mat.assignByVectorsWith
  split_ifs
  · simp only [Option.isSome_map']
    exact Mat.assignWith_isSome _ _ _ _ _ _
  · exact reorderColumnsByVectorsWith_isSome _ _ _ _ _ _ _ _
  · exact reorderRowsByVectorsWith_isSome _ _ _ _ _ _ _ _
  · rw [assignGeneralWith_eq, assignGeneralWith_eq]
    split_ifs <;> rfl

variable {srcOf A} {r : Buf α × List Access}

/-- The column reordering, wherever it reads its source, stores only in `a`. -/
theorem reorderColumnsByVectorsWith_onlyWrites {a : Block} {b : Mat} {vToCols vcols : List Nat}
    (h : Mat.reorderColumnsByVectorsWith srcOf A a.toMat vToCols b vcols = some r) :
    a.OnlyWrites A r.1 := by
  by_cases hne : vToCols.length = 0 ∧ vcols.length = 0
  · simp only [Mat.reorderColumnsByVectorsWith, hne, and_self, if_true] at h
    split_ifs at h
    obtain ⟨A', hA', rfl⟩ := Option.map_eq_some'.1 h
    exact Mat.assignWith_onlyWrites hA'
  · rw [reorderColumnsByVectorsWith_eq A _ _ _ _ _ hne] at h
    split_ifs at h
    obtain ⟨A', hA', ⟨⟩⟩ := Option.bind_eq_some.1 h
    exact Mat.onlyWrites_foldlM (fun _ _ _ _ h' => Mat.colCopy_onlyWrites h') hA'

/-- The row reordering, wherever it reads its source, stores only in `a`. -/
theorem reorderRowsByVectorsWith_onlyWrites {a b : Block} {vToRows vrows : List Nat}
    (h : Mat.reorderRowsByVectorsWith srcOf A a.toMat vToRows b.toMat vrows = some r) :
    a.OnlyWrites A r.1 := by
  by_cases hne : vToRows.length = 0 ∧ vrows.length = 0
  · simp only [Mat.reorderRowsByVectorsWith, hne, and_self, if_true] at h
    split_ifs at h
    obtain ⟨A', hA', rfl⟩ := Option.map_eq_some'.1 h
    exact Mat.assignWith_onlyWrites hA'
  · rw [reorderRowsByVectorsWith_eq A _ _ _ _ _ hne] at h
    split_ifs at h
    obtain ⟨A', hA', ⟨⟩⟩ := Option.bind_eq_some.1 h
    exact Mat.onlyWrites_foldlM (fun _ _ _ _ h' => Mat.rowCopyWith_onlyWrites h') hA'

/-- The general branch, wherever it reads its source, stores only in `a`. -/
theorem assignGeneralWith_onlyWrites {a : Mat} {b : Mat} {vToRows vToCols vrows vcols : List Nat}
    (h : Mat.assignGeneralWith srcOf A a vToRows vToCols b vrows vcols = some r) :
    a.OnlyWrites A r.1 := by
  rw [assignGeneralWith_eq] at h
  split_ifs at h with hc
  obtain ⟨h1, h2, -, -, hlr, hlc, -⟩ := hc
  cases h
  exact Mat.onlyWrites_foldl (fun D i hi => Mat.onlyWrites_foldl_update _ _ fun j hj =>
    Mat.isCell_addr (lt_of_mem_expand h1 (getD_mem (hlr ▸ List.mem_range.1 hi)))
      (lt_of_mem_expand h2 (getD_mem (hlc ▸ List.mem_range.1 hj)))) A

/-- An assignment by vectors, wherever it reads its source, stores only in `a`. -/
theorem assignByVectorsWith_onlyWrites {a b : Block} {vToRows vToCols vrows vcols : List Nat}
    (h : Mat.assignByVectorsWith srcOf A a.toMat vToRows vToCols b.toMat vrows vcols = some r) :
    a.OnlyWrites A r.1 := by
  unfold Mat.assignByVectorsWith at h
  split_ifs at h
  · obtain ⟨A', hA', rfl⟩ := Option.map_eq_some'.1 h
    exact Mat.assignWith_onlyWrites hA'
  · exact reorderColumnsByVectorsWith_onlyWrites h
  · exact reorderRowsByVectorsWith_onlyWrites h
  · exact assignGeneralWith_onlyWrites h

end Sources

section OneSpace

variable (A S : Buf α)

/-- **The column reordering within one data space.**  When the source `b` shares no cell
with `a`, no column copy reads a cell that an earlier one wrote: the reordering is the one
from any data space `S` that holds the old cells of `b`. -/
theorem reorderColumnsByVectorsWith_id (a : Block) (b : Mat) (vToCols vcols : List Nat)
    (hS : b.AgreesOn S A) (hsep : ∀ x, b.IsCell x → ¬ a.IsCell x) :
    Mat.reorderColumnsByVectorsWith id A a.toMat vToCols b vcols =
      Mat.reorderColumnsByVectors A a.toMat vToCols S b vcols := by
  by_cases hne : vToCols.length = 0 ∧ vcols.length = 0
  · simp only [Mat.reorderColumnsByVectors, Mat.reorderColumnsByVectorsWith, hne, and_self,
      if_true, Mat.assignWith_id A S a.toMat b hS hsep, Mat.assignWith_const]
  · rw [Mat.reorderColumnsByVectors, reorderColumnsByVectorsWith_eq A _ _ _ _ _ hne,
      reorderColumnsByVectorsWith_eq A _ _ _ _ _ hne]
    refine ite_congr rfl (fun _ => ?_) fun _ => rfl
    congr 1
    exact foldlM_congr_of_inv (b.AgreesOn S) _ A hS fun D hD j _ =>
      ⟨Mat.colCopy_congr_source hD, fun _ h' => hD.of_onlyWrites (Mat.colCopy_onlyWrites h') hsep⟩

/-- **The row reordering within one data space**, from a source sharing no cell with `a`. -/
theorem reorderRowsByVectorsWith_id (a b : Block) (vToRows vrows : List Nat)
    (hS : b.AgreesOn S A) (hsep : ∀ x, b.IsCell x → ¬ a.IsCell x) :
    Mat.reorderRowsByVectorsWith id A a.toMat vToRows b.toMat vrows =
      Mat.reorderRowsByVectors A a.toMat vToRows S b.toMat vrows := by
  by_cases hne : vToRows.length = 0 ∧ vrows.length = 0
  · simp only [Mat.reorderRowsByVectors, Mat.reorderRowsByVectorsWith, hne, and_self,
      if_true, Mat.assignWith_id A S a.toMat b.toMat hS hsep, Mat.assignWith_const]
  · rw [Mat.reorderRowsByVectors, reorderRowsByVectorsWith_eq A _ _ _ _ _ hne,
      reorderRowsByVectorsWith_eq A _ _ _ _ _ hne]
    refine ite_congr rfl (fun _ => ?_) fun _ => rfl
    congr 1
    exact foldlM_congr_of_inv (b.AgreesOn S) _ A hS fun D hD i _ =>
      ⟨(Mat.rowCopy_eq_const_of_apart hsep).trans (Mat.rowCopyWith_const_congr hD),
        fun _ h' => hD.of_onlyWrites (Mat.rowCopyWith_onlyWrites h') hsep⟩

/-- **The general branch within one data space**, from a source sharing no cell with `a`:
no element assignment reads a cell that an earlier one wrote. -/
theorem assignGeneralWith_id (a b : Mat) (vToRows vToCols vrows vcols : List Nat)
    (hS : b.AgreesOn S A) (hsep : ∀ x, b.IsCell x → ¬ a.IsCell x) :
    Mat.assignGeneralWith id A a vToRows vToCols b vrows vcols =
      Mat.assignGeneral A a vToRows vToCols S b vrows vcols := by
  rw [Mat.assignGeneral, assignGeneralWith_eq, assignGeneralWith_eq]
  refine ite_congr rfl (fun hc => ?_) fun _ => rfl
  obtain ⟨h1, h2, h3, h4, hlr, hlc, -⟩ := hc
  have ha : ∀ i ∈ List.range (expand vrows b.rows).length,
      ∀ j ∈ List.range (expand vcols b.cols).length,
      a.IsCell (a.addr ((expand vToRows a.rows).getD i 0) ((expand vToCols a.cols).getD j 0)) :=
    fun i hi j hj => Mat.isCell_addr (lt_of_mem_expand h1 (getD_mem (hlr ▸ List.mem_range.1 hi)))
      (lt_of_mem_expand h2 (getD_mem (hlc ▸ List.mem_range.1 hj)))
  have hb : ∀ i ∈ List.range (expand vrows b.rows).length,
      ∀ j ∈ List.range (expand vcols b.cols).length,
      b.IsCell (b.addr ((expand vrows b.rows).getD i 0) ((expand vcols b.cols).getD j 0)) :=
    fun i hi j hj => Mat.isCell_addr (lt_of_mem_expand h3 (getD_mem (List.mem_range.1 hi)))
      (lt_of_mem_expand h4 (getD_mem (List.mem_range.1 hj)))
  -- row by row and element by element, the cells of `b` keep their old values
  refine congrArg (fun D => some (D, _)) (foldl_congr_of_inv (b.AgreesOn S) _ A hS
    fun D hD i hi => ⟨foldl_congr_of_inv (b.AgreesOn S) _ D hD (fun D' hD' j hj =>
      ⟨by rw [id_eq, hD' _ (hb i hi j hj)], fun x hx => ?_⟩), fun x hx => ?_⟩)
  · rw [Function.update_noteq fun he => hsep x hx (by rw [he]; exact ha i hi j hj), hD' x hx]
  · rw [Mat.onlyWrites_foldl_update _ _ (ha i hi) x (hsep x hx), hD x hx]

/-- **Assignment by vectors within one data space**, from a source sharing no cell with
`a`, on whichever path: it is the assignment from any data space holding the old `b`. -/
theorem assignByVectorsWith_id (a b : Block) (vToRows vToCols vrows vcols : List Nat)
    (hS : b.AgreesOn S A) (hsep : ∀ x, b.IsCell x → ¬ a.IsCell x) :
    Mat.assignByVectorsWith id A a.toMat vToRows vToCols b.toMat vrows vcols =
      Mat.assignByVectors A a.toMat vToRows vToCols S b.toMat vrows vcols := by
  rw [Mat.assignByVectors_eq]
  unfold Mat.assignByVectorsWith
  split_ifs
  · rw [Mat.assignWith_id A S a.toMat b.toMat hS hsep]
  · exact reorderColumnsByVectorsWith_id A S a b.toMat _ _ hS hsep
  · exact reorderRowsByVectorsWith_id A S a b _ _ hS hsep
  · exact assignGeneralWith_id A S a.toMat b.toMat _ _ _ _ hS hsep

end OneSpace

/-- **Assignment by index vectors.**  For a destination `a` and a source `b` (owning
matrices or views whose cells lie below `2^64`) in separate storage and any four index lists,
each empty list read as the whole range of its own matrix and axis: when `assignByVectors`
passes its assertions and the expanded destination lists repeat no index, every
`a(toRows[i], toCols[j])` then holds the old `b(rows[i], cols[j])`, and every other offset
keeps its value.  The same holds of `reorderColumnsByVectors`, all rows on both sides, and of
`reorderRowsByVectors`, all columns on both sides. -/
theorem assignByVectors_assigns (A B : Buf α) (a b : FitBlock)
    (vToRows vToCols vrows vcols : List Nat) :
    (∀ r, Mat.assignByVectors A a.toMat vToRows vToCols B b.toMat vrows vcols = some r →
      (expand vToRows a.rows).Nodup → (expand vToCols a.cols).Nodup →
      CrossAssigned A B r.1 a.toMat (expand vToRows a.rows) (expand vToCols a.cols) b.toMat
        (expand vrows b.rows) (expand vcols b.cols)) ∧
    (∀ r, Mat.reorderColumnsByVectors A a.toMat vToCols B b.toMat vcols = some r →
      (expand vToCols a.cols).Nodup →
      CrossAssigned A B r.1 a.toMat (List.range a.rows) (expand vToCols a.cols) b.toMat
        (List.range b.rows) (expand vcols b.cols)) ∧
    (∀ r, Mat.reorderRowsByVectors A a.toMat vToRows B b.toMat vrows = some r →
      (expand vToRows a.rows).Nodup →
      CrossAssigned A B r.1 a.toMat (expand vToRows a.rows) (List.range a.cols) b.toMat
        (expand vrows b.rows) (List.range b.cols)) := by
  refine ⟨fun r h hndr hndc => ?_, fun r h hndc => ?_, fun r h hndr => ?_⟩
  · obtain ⟨h1, hlr, hlc, hA⟩ := assignByVectors_store A B a.toBlock b.toBlock h
    exact hA ▸ store_crossWrites_assigns A B a.toBlock b.toMat hlr hlc
      (fun x hx => lt_of_mem_expand h1 hx) hndr hndc
  · obtain ⟨hr, -, -, hlc, hA⟩ := reorderColumnsByVectors_store A B a.toBlock b.toBlock h
    exact hA ▸ store_crossWrites_assigns A B a.toBlock b.toMat (by simp [hr]) hlc
      (fun x hx => List.mem_range.1 hx) (List.nodup_range _) hndc
  · obtain ⟨hc, h1, -, hlr, hA⟩ := reorderRowsByVectors_store A B a.toBlock b.toBlock h
    exact hA ▸ store_crossWrites_assigns A B a.toBlock b.toMat hlr (by simp [hc])
      (fun x hx => lt_of_mem_expand h1 hx) hndr (List.nodup_range _)

/-- On `2 × 2` matrices, the source holding its offsets and the destination `-1`:
`a([1], [1]) = b([0], [1])` through the general branch, `a(:, [1]) = b(:, [1])` and
`a([1], :) = b([0], :)`. -/
theorem assignByVectors_two_by_two :
    (∃ r, Mat.assignByVectors (fun _ => (-1 : Int)) (Matrix.toMat ⟨2, 2⟩) [1] [1]
      (fun x => (x : Int)) (Matrix.toMat ⟨2, 2⟩) [0] [1] = some r ∧ r.1 3 = 2) ∧
    (∃ r, Mat.reorderColumnsByVectors (fun _ => (-1 : Int)) (Matrix.toMat ⟨2, 2⟩) [1]
      (fun x => (x : Int)) (Matrix.toMat ⟨2, 2⟩) [1] = some r ∧ r.1 2 = 2 ∧ r.1 3 = 3) ∧
    (∃ r, Mat.reorderRowsByVectors (fun _ => (-1 : Int)) (Matrix.toMat ⟨2, 2⟩) [1]
      (fun x => (x : Int)) (Matrix.toMat ⟨2, 2⟩) [0] = some r ∧ r.1 1 = 0 ∧ r.1 3 = 2) := by
  have h := assignByVectors_assigns (fun _ => (-1 : Int)) (fun x => (x : Int))
    (Matrix.toFitBlock ⟨2, 2⟩ (by decide)) (Matrix.toFitBlock ⟨2, 2⟩ (by decide)) [1] [1] [0] [1]
  refine ⟨⟨_, rfl, (h.1 _ rfl (by decide) (by decide)).1 0 0 (by decide) (by decide)⟩,
    ⟨_, rfl, (h.2.1 _ rfl (by decide)).1 0 0 (by decide) (by decide),
      (h.2.1 _ rfl (by decide)).1 1 0 (by decide) (by decide)⟩,
    ⟨_, rfl, (h.2.2 _ rfl (by decide)).1 0 0 (by decide) (by decide),
      (h.2.2 _ rfl (by decide)).1 0 1 (by decide) (by decide)⟩⟩

/-- The view `MatrixView(P, 1, 0, 2^64 - 1, 2)` of a `2 × 2` matrix passes its assertion
(`matrixView_wraps_past_parent`), and its cells `(2, 0)` and `(0, 1)` share offset `3`:
`assignByVectors(a, {2}, {0}, b, {0}, {0})` changes `a(0, 1)`, a cell it does not list. -/
theorem assignByVectors_wrapped_view :
    matrixView (Matrix.toMat ⟨2, 2⟩) 1 0 (2 ^ 64 - 1) 2 = some ⟨1, 2 ^ 64 - 1, 2, 2⟩ ∧
    ∃ r, Mat.assignByVectors (fun _ => (0 : Int)) ⟨1, 2 ^ 64 - 1, 2, 2⟩ [2] [0] (fun _ => 1)
      (Matrix.toMat ⟨1, 1⟩) [0] [0] = some r ∧
      Mat.get r.1 ⟨1, 2 ^ 64 - 1, 2, 2⟩ 0 1 = 1 :=
  ⟨by decide, _, rfl, rfl⟩

/-! ## Element accesses -/

/-- Every access of a log is below the `size()` of the vector accessed. -/
def InRange (log : List Access) : Prop := ∀ acc ∈ log, acc.index < acc.size

instance (log : List Access) : Decidable (InRange log) :=
  inferInstanceAs (Decidable (∀ acc ∈ log, _))

@[simp] theorem inRange_nil : InRange [] := nofun

@[simp] theorem inRange_cons {acc : Access} {log : List Access} :
    InRange (acc :: log) ↔ acc.index < acc.size ∧ InRange log :=
  List.forall_mem_cons

@[simp] theorem inRange_append {l₁ l₂ : List Access} :
    InRange (l₁ ++ l₂) ↔ InRange l₁ ∧ InRange l₂ :=
  List.forall_mem_append

@[simp] theorem inRange_flatMap {β : Type} {l : List β} {f : β → List Access} :
    InRange (l.flatMap f) ↔ ∀ x ∈ l, InRange (f x) := by
  simp only [InRange, List.mem_flatMap, forall_exists_index, and_imp]
  exact ⟨fun h x hx acc hacc => h acc x hx hacc, fun h acc x hx hacc => h x hx acc hacc⟩

/-- The accesses of a resolution stay below `size()` exactly when the list was not
expanded: an expansion writes its `n > 0` elements into a vector of size 0. -/
theorem inRange_resolveLog {v : List Nat} {n : Nat} (hpos : 0 < (expand v n).length) :
    InRange (resolveLog v n) ↔ v ≠ [] := by
  simp only [InRange, resolveLog, List.mem_map, List.mem_range, forall_exists_index, and_imp]
  rcases eq_or_ne v [] with rfl | hv
  · simp only [expand_nil, List.length_range] at hpos
    simp only [expand_nil, List.length_range, List.length_nil, ne_eq, not_true_eq_false, iff_false,
      not_forall]
    exact ⟨_, 0, hpos, rfl, Nat.lt_irrefl 0⟩
  · rw [expand_of_ne_nil hv]
    exact iff_of_true (fun _ i hi h => h ▸ hi) hv

section Accesses

variable (A B : Buf α)

/-- A column reordering that succeeds accesses its vectors within their `size()` exactly
when its two lists are both `:` or both given. -/
theorem reorderColumnsByVectors_inRange (a b : Block) {vToCols vcols : List Nat}
    {r : Buf α × List Access}
    (h : Mat.reorderColumnsByVectors A a.toMat vToCols B b.toMat vcols = some r) :
    InRange r.2 ↔ (vToCols = [] ↔ vcols = []) := by
  by_cases hne : vToCols.length = 0 ∧ vcols.length = 0
  · rw [List.length_eq_zero, List.length_eq_zero] at hne
    obtain ⟨rfl, rfl⟩ := hne
    simp only [Mat.reorderColumnsByVectors, Mat.reorderColumnsByVectorsWith, List.length_nil,
      and_self, if_true, Mat.assignWith_const, Mat.assign_eq] at h
    split_ifs at h <;> cases h
    exact iff_of_true inRange_nil Iff.rfl
  · rw [reorderColumnsByVectors_eq A B a b _ _ hne] at h
    split_ifs at h with hc
    cases h
    obtain ⟨-, -, -, hl, hpos⟩ := hc
    rw [List.length_eq_zero, List.length_eq_zero] at hne
    simp only [inRange_append, inRange_resolveLog (hl ▸ hpos : 0 < (expand vToCols a.cols).length),
      inRange_resolveLog hpos, inRange_flatMap, inRange_cons, inRange_nil, List.mem_range, and_true]
    constructor
    · rintro ⟨⟨h1, h2⟩, -⟩
      exact iff_of_false h1 h2
    · intro hiff
      have h1 : vToCols ≠ [] := fun h => hne ⟨h, hiff.1 h⟩
      have h2 : vcols ≠ [] := fun h => h1 (hiff.2 h)
      rw [expand_of_ne_nil h1, expand_of_ne_nil h2] at hl
      rw [expand_of_ne_nil h2]
      exact ⟨⟨h1, h2⟩, fun x hx => ⟨hx, by omega⟩⟩

/-- A row reordering that succeeds accesses its vectors within their `size()` exactly when
its two lists are both `:` or both given. -/
theorem reorderRowsByVectors_inRange (a b : Block) {vToRows vrows : List Nat}
    {r : Buf α × List Access}
    (h : Mat.reorderRowsByVectors A a.toMat vToRows B b.toMat vrows = some r) :
    InRange r.2 ↔ (vToRows = [] ↔ vrows = []) := by
  by_cases hne : vToRows.length = 0 ∧ vrows.length = 0
  · rw [List.length_eq_zero, List.length_eq_zero] at hne
    obtain ⟨rfl, rfl⟩ := hne
    simp only [Mat.reorderRowsByVectors, Mat.reorderRowsByVectorsWith, List.length_nil,
      and_self, if_true, Mat.assignWith_const, Mat.assign_eq] at h
    split_ifs at h <;> cases h
    exact iff_of_true inRange_nil Iff.rfl
  · rw [reorderRowsByVectors_eq A B a b _ _ hne] at h
    split_ifs at h with hc
    cases h
    obtain ⟨-, -, -, hl, hpos⟩ := hc
    rw [List.length_eq_zero, List.length_eq_zero] at hne
    simp only [inRange_append, inRange_resolveLog (hl ▸ hpos : 0 < (expand vToRows a.rows).length),
      inRange_resolveLog hpos, inRange_flatMap, inRange_cons, inRange_nil, List.mem_range, and_true]
    constructor
    · rintro ⟨⟨h1, h2⟩, -⟩
      exact iff_of_false h1 h2
    · intro hiff
      have h1 : vToRows ≠ [] := fun h => hne ⟨h, hiff.1 h⟩
      have h2 : vrows ≠ [] := fun h => h1 (hiff.2 h)
      rw [expand_of_ne_nil h1, expand_of_ne_nil h2] at hl
      rw [expand_of_ne_nil h2]
      exact ⟨⟨h1, h2⟩, fun x hx => ⟨hx, by omega⟩⟩

/-- An assignment by vectors that succeeds accesses its vectors within their `size()`
exactly when on each axis the destination and source lists are both `:` or both given. -/
theorem assignByVectors_inRange (a b : Block) {vToRows vToCols vrows vcols : List Nat}
    {r : Buf α × List Access}
    (h : Mat.assignByVectors A a.toMat vToRows vToCols B b.toMat vrows vcols = some r) :
    InRange r.2 ↔ (vToRows = [] ↔ vrows = []) ∧ (vToCols = [] ↔ vcols = []) := by
  rw [Mat.assignByVectors_eq] at h
  split_ifs at h with h4 hrow hcol
  · simp only [List.length_eq_zero] at h4
    obtain ⟨rfl, rfl, rfl, rfl⟩ := h4
    rw [Mat.assign_eq] at h
    split_ifs at h <;> cases h
    simp
  · simp only [List.length_eq_zero] at hrow
    obtain ⟨rfl, rfl⟩ := hrow
    simp [reorderColumnsByVectors_inRange A B a b h]
  · simp only [List.length_eq_zero] at hcol
    obtain ⟨rfl, rfl⟩ := hcol
    simp [reorderRowsByVectors_inRange A B a b h]
  · rw [assignGeneral_eq] at h
    split_ifs at h with hc
    cases h
    obtain ⟨-, -, -, -, hlr, hlc, hpos⟩ := hc
    obtain ⟨hr, hc⟩ := pos_of_sizeMul_pos hpos
    simp only [List.length_eq_zero] at hrow hcol
    simp only [inRange_append, inRange_resolveLog hr, inRange_resolveLog hc,
      inRange_resolveLog (hlr ▸ hr : 0 < (expand vToRows a.rows).length),
      inRange_resolveLog (hlc ▸ hc : 0 < (expand vToCols a.cols).length),
      inRange_flatMap, inRange_cons, inRange_nil, List.mem_range, and_true]
    constructor
    · rintro ⟨⟨⟨⟨h1, h2⟩, h3⟩, h4⟩, -⟩
      exact ⟨iff_of_false h1 h3, iff_of_false h2 h4⟩
    · rintro ⟨hiffr, hiffc⟩
      have h1 : vToRows ≠ [] := fun h => hrow ⟨h, hiffr.1 h⟩
      have h3 : vrows ≠ [] := fun h => h1 (hiffr.2 h)
      have h2 : vToCols ≠ [] := fun h => hcol ⟨h, hiffc.1 h⟩
      have h4 : vcols ≠ [] := fun h => h2 (hiffc.2 h)
      rw [expand_of_ne_nil h1, expand_of_ne_nil h3] at hlr
      rw [expand_of_ne_nil h2, expand_of_ne_nil h4] at hlc
      rw [expand_of_ne_nil h3, expand_of_ne_nil h4]
      exact ⟨⟨⟨⟨h1, h2⟩, h3⟩, h4⟩, fun i hi j hj => ⟨by omega, by omega, hi, hj⟩⟩

end Accesses

/-- **Vector accesses.**  For every call of `assignByVectors`, `reorderColumnsByVectors`
or `reorderRowsByVectors` that passes all its assertions, every element access stays below
the `size()` of its vector exactly when, on each axis, the destination and the source lists
are both `:` or both given.  Otherwise the `:` side is expanded into a vector that `reserve`
left at size 0, and the call writes and reads past its end. -/
theorem vector_accesses_in_range_iff (A B : Buf α) (a b : Block)
    (vToRows vToCols vrows vcols : List Nat) :
    (∀ r, Mat.assignByVectors A a.toMat vToRows vToCols B b.toMat vrows vcols = some r →
      (InRange r.2 ↔ (vToRows = [] ↔ vrows = []) ∧ (vToCols = [] ↔ vcols = []))) ∧
    (∀ r, Mat.reorderColumnsByVectors A a.toMat vToCols B b.toMat vcols = some r →
      (InRange r.2 ↔ (vToCols = [] ↔ vcols = []))) ∧
    (∀ r, Mat.reorderRowsByVectors A a.toMat vToRows B b.toMat vrows = some r →
      (InRange r.2 ↔ (vToRows = [] ↔ vrows = []))) :=
  ⟨fun _ h => assignByVectors_inRange A B a b h,
    fun _ h => reorderColumnsByVectors_inRange A B a b h,
    fun _ h => reorderRowsByVectors_inRange A B a b h⟩

/-- `reorderColumnsByVectors(a, {}, b, {0})` on `1 × 1` matrices passes its assertions and
accesses `tmpvpToCols` past its `size()`. -/
theorem reorderColumns_accesses_past_size :
    ∃ r, Mat.reorderColumnsByVectors (fun _ => (0 : Int)) (Matrix.toMat ⟨1, 1⟩) [] (fun _ => 1)
      (Matrix.toMat ⟨1, 1⟩) [0] = some r ∧ ¬ InRange r.2 := by
  obtain ⟨r, h⟩ : ∃ r, Mat.reorderColumnsByVectors (fun _ => (0 : Int)) (Matrix.toMat ⟨1, 1⟩) []
      (fun _ => 1) (Matrix.toMat ⟨1, 1⟩) [0] = some r := ⟨_, rfl⟩
  exact ⟨r, h, fun hin => absurd (((vector_accesses_in_range_iff _ _ (Matrix.toBlock ⟨1, 1⟩)
    (Matrix.toBlock ⟨1, 1⟩) [] [] [] [0]).2.1 r h).1 hin) (by decide)⟩

/-! ## The fast paths -/

section FastPaths

variable (A B : Buf α)

theorem map_fst_ite {β γ : Type} (c : Prop) [Decidable c] (x : β) (l : γ) :
    (if c then some (x, l) else none).map Prod.fst = if c then some x else none := by
  split_ifs <;> rfl

/-- The general branch aborts on a source with no rows or no columns: `nrows * ncols` is
then 0. -/
theorem assignGeneral_eq_none (a b : Mat) (vToRows vToCols vrows vcols : List Nat)
    (h : b.rows = 0 ∨ b.cols = 0) :
    Mat.assignGeneral A a vToRows vToCols B b vrows vcols = none := by
  rw [assignGeneral_eq, if_neg]
  rintro ⟨-, -, h3, h4, -, -, hpos⟩
  have := pos_of_sizeMul_pos hpos
  have := length_expand_le h3
  have := length_expand_le h4
  omega

end FastPaths

/-- **The fast paths of `assignByVectors`.**  For a destination `a` and a source `b` whose
cells lie below `2^64`, in separate storage, when both row lists or both column lists are
empty, the fast path `assignByVectors` takes (`a = b`, `reorderColumnsByVectors` or
`reorderRowsByVectors`) aborts exactly when the general four-list branch would, and
otherwise leaves `a` in the same state, provided `b` has rows and columns and
`b.rows * b.cols` fits in `size_t`.  On a source with no rows or no columns the general
branch always aborts on `nrows * ncols > 0`. -/
theorem assignByVectors_fast_paths_agree (A B : Buf α) (a b : FitBlock)
    (vToRows vToCols vrows vcols : List Nat) :
    ((vToRows = [] ∧ vrows = []) ∨ (vToCols = [] ∧ vcols = []) → 0 < b.rows → 0 < b.cols →
      b.rows * b.cols < 2 ^ 64 →
      (Mat.assignByVectors A a.toMat vToRows vToCols B b.toMat vrows vcols).map Prod.fst =
        (Mat.assignGeneral A a.toMat vToRows vToCols B b.toMat vrows vcols).map Prod.fst) ∧
    (b.rows = 0 ∨ b.cols = 0 →
      Mat.assignGeneral A a.toMat vToRows vToCols B b.toMat vrows vcols = none) := by
  refine ⟨fun hfast hr hc hsize => ?_, assignGeneral_eq_none A B a.toMat b.toMat _ _ _ _⟩
  /- the general branch's product assertion holds as soon as both counts are positive -/
  have hmul : ∀ {n m}, 0 < n → n ≤ b.rows → 0 < m → m ≤ b.cols → 0 < sizeMul n m :=
    fun hn hn' hm hm' => by
      rw [sizeMul_of_lt (lt_of_le_of_lt (Nat.mul_le_mul hn' hm') hsize)]
      exact Nat.mul_pos hn hm
  rw [Mat.assignByVectors_eq]
  split_ifs with h4 hrow hcol
  · simp only [List.length_eq_zero] at h4
    obtain ⟨rfl, rfl, rfl, rfl⟩ := h4
    rw [Mat.assign_eq, assignGeneral_eq, map_fst_ite]
    simp only [expand_nil, List.length_range]
    by_cases hd : a.rows = b.rows ∧ a.cols = b.cols
    · rw [if_pos hd, if_pos ⟨checked_nil _, checked_nil _, checked_nil _, checked_nil _, hd.1, hd.2,
        hmul hr le_rfl hc le_rfl⟩,
        store_cellWrites_eq_crossWrites A B a.toBlock b.toMat hd.1.symm hd.2.symm]
      rfl
    · rw [if_neg hd, if_neg fun h => hd ⟨h.2.2.2.2.1, h.2.2.2.2.2.1⟩]
      rfl
  · simp only [List.length_eq_zero] at hrow h4
    obtain ⟨rfl, rfl⟩ := hrow
    have hne : ¬ (vToCols.length = 0 ∧ vcols.length = 0) := by simpa using h4
    rw [reorderColumnsByVectors_eq A B a.toBlock b.toBlock _ _ hne, assignGeneral_eq, map_fst_ite,
      map_fst_ite, expand_nil, expand_nil]
    refine if_congr ?_ rfl rfl
    simp only [List.length_range]
    constructor
    · rintro ⟨hr', h1, h2, hl, hn⟩
      exact ⟨checked_nil _, h1, checked_nil _, h2, hr'.symm, hl,
        hmul hr le_rfl hn (length_expand_le h2)⟩
    · rintro ⟨-, h1, -, h2, hr', hl, hn⟩
      exact ⟨hr'.symm, h1, h2, hl, (pos_of_sizeMul_pos hn).2⟩
  · simp only [List.length_eq_zero] at hcol hrow
    obtain ⟨rfl, rfl⟩ := hcol
    have hne : ¬ (vToRows.length = 0 ∧ vrows.length = 0) := by simpa using hrow
    rw [reorderRowsByVectors_eq A B a.toBlock b.toBlock _ _ hne, assignGeneral_eq, map_fst_ite,
      map_fst_ite, expand_nil, expand_nil]
    refine if_congr ?_ rfl rfl
    simp only [List.length_range]
    constructor
    · rintro ⟨hc', h1, h2, hl, hn⟩
      exact ⟨h1, checked_nil _, h2, checked_nil _, hl, hc'.symm,
        hmul hn (length_expand_le h2) hc le_rfl⟩
    · rintro ⟨h1, -, h2, -, hl, hc', hn⟩
      exact ⟨hc'.symm, h1, h2, hl, (pos_of_sizeMul_pos hn).1⟩
  · simp only [List.length_eq_zero] at hrow hcol
    exact absurd hfast (not_or.2 ⟨hrow, hcol⟩)

/-- All four lists empty on `0 × 0` matrices: the fast path `a = b` succeeds, and the general
branch fails `nrows * ncols > 0`. -/
theorem assignByVectors_empty_diverges :
    (Mat.assignByVectors (fun _ => (0 : Int)) (Matrix.toMat ⟨0, 0⟩) [] [] (fun _ => 1)
      (Matrix.toMat ⟨0, 0⟩) [] []).map Prod.fst = some (fun _ => 0) ∧
    Mat.assignGeneral (fun _ => (0 : Int)) (Matrix.toMat ⟨0, 0⟩) [] [] (fun _ => 1)
      (Matrix.toMat ⟨0, 0⟩) [] [] = none :=
  ⟨rfl, assignGeneral_eq_none _ _ _ _ _ _ _ _ (Or.inl rfl)⟩

/-- One column of a `2 × 2` matrix reordered: the fast path and the general branch agree. -/
theorem assignByVectors_one_column_agrees :
    (Mat.assignByVectors (fun _ => (0 : Int)) (Matrix.toMat ⟨2, 2⟩) [] [1] (fun x => (x : Int))
      (Matrix.toMat ⟨2, 2⟩) [] [0]).map Prod.fst =
    (Mat.assignGeneral (fun _ => (0 : Int)) (Matrix.toMat ⟨2, 2⟩) [] [1] (fun x => (x : Int))
      (Matrix.toMat ⟨2, 2⟩) [] [0]).map Prod.fst :=
  (assignByVectors_fast_paths_agree _ _ (Matrix.toFitBlock ⟨2, 2⟩ (by decide))
    (Matrix.toFitBlock ⟨2, 2⟩ (by decide))
    [] [1] [] [0]).1 (Or.inl ⟨rfl, rfl⟩) (by decide) (by decide) (by decide)

/-! ## Repeated destination indices -/

/-- Matlab's `A(toRows, toCols) = B(rows, cols)` on the matrix `f`, the source read from
`g`: a cell `(i, j)` whose row and column are listed takes the source cell paired with the
last listing of `i` and the last listing of `j`; any other cell keeps its value. -/
def assignAt (f g : Nat → Nat → α) (toRows toCols rows cols : List Nat) (i j : Nat) : α :=
  match lastWhere (fun k => toRows.getD k 0 = i) toRows.length,
      lastWhere (fun l => toCols.getD l 0 = j) toCols.length with
  | some k, some l => g (rows.getD k 0) (cols.getD l 0)
  | _, _ => f i j

/-- Assigning the same source twice is assigning it once. -/
theorem assignAt_assignAt (f g : Nat → Nat → α) (toRows toCols rows cols : List Nat)
    (i j : Nat) :
    assignAt (assignAt f g toRows toCols rows cols) g toRows toCols rows cols i j =
      assignAt f g toRows toCols rows cols i j := by
  unfold assignAt
  cases lastWhere (fun k => toRows.getD k 0 = i) toRows.length <;>
    cases lastWhere (fun l => toCols.getD l 0 = j) toCols.length <;> rfl

/-- **The last store wins on a grid.**  A row-by-row log over `k < n`, `l < m` that stores
`v k l` at cell `(tr k, tc l)` of a block leaves at cell `(i, j)` the value of the last `k`
with `tr k = i` and the last `l` with `tc l = j`, or the old value when there is none. -/
theorem store_grid_apply (A : Buf α) (a : Block) (n m : Nat) (tr tc : Nat → Nat)
    (v : Nat → Nat → α) (htr : ∀ k < n, tr k < a.rows) {i j : Nat} (hi : i < a.rows) :
    store A ((List.range n).flatMap fun k => (List.range m).map fun l =>
        (a.addr (tr k) (tc l), v k l)) (a.addr i j) =
      match lastWhere (fun k => tr k = i) n, lastWhere (fun l => tc l = j) m with
      | some k, some l => v k l
      | _, _ => A (a.addr i j) := by
  induction n with
  | zero => cases lastWhere (fun l => tc l = j) m <;> rfl
  | succ n ih =>
    have hld := a.rows_le_ld
    have hn := htr n (by omega)
    rw [List.range_succ, List.flatMap_append, List.flatMap_singleton, store_append,
      store_range_map_apply, ih fun k hk => htr k (by omega), lastWhere]
    by_cases hin : tr n = i
    · rw [if_pos hin, lastWhere_congr fun l _ => ⟨fun h => (Mat.addr_inj (by omega) (by omega) h).2,
        fun h => by rw [hin, h]⟩]
      cases lastWhere (fun l => tc l = j) m <;> cases lastWhere (fun k => tr k = i) n <;> rfl
    · rw [if_neg hin, lastWhere_eq_none fun l _ h => hin (Mat.addr_inj (by omega) (by omega) h).1]
      rfl

/-- The column reordering as Matlab's `A(:, toCols) = B(:, cols)`. -/
theorem reorderColumnsByVectors_eq_assignAt (A B : Buf α) (a b : Block)
    {vToCols vcols : List Nat} {r : Buf α × List Access}
    (h : Mat.reorderColumnsByVectors A a.toMat vToCols B b.toMat vcols = some r)
    {i j : Nat} (hi : i < a.rows) :
    r.1 (a.addr i j) = assignAt (a.toMat.get A) (b.toMat.get B) (List.range a.rows)
      (expand vToCols a.cols) (List.range b.rows) (expand vcols b.cols) i j := by
  obtain ⟨hr, -, -, hl, hA⟩ := reorderColumnsByVectors_store A B a b h
  have hl' : (List.range a.rows).length = (List.range b.rows).length := by simp [hr]
  rw [hA, assignAt, hl', hl]
  exact store_grid_apply A a _ _ _ _ _ (fun k hk => by
    rw [List.length_range] at hk
    rw [getD_range (by omega)]
    omega) hi

/-- The row reordering as Matlab's `A(toRows, :) = B(rows, :)`. -/
theorem reorderRowsByVectors_eq_assignAt (A B : Buf α) (a b : Block)
    {vToRows vrows : List Nat} {r : Buf α × List Access}
    (h : Mat.reorderRowsByVectors A a.toMat vToRows B b.toMat vrows = some r)
    {i j : Nat} (hi : i < a.rows) :
    r.1 (a.addr i j) = assignAt (a.toMat.get A) (b.toMat.get B) (expand vToRows a.rows)
      (List.range a.cols) (expand vrows b.rows) (List.range b.cols) i j := by
  obtain ⟨hc, h1, -, hl, hA⟩ := reorderRowsByVectors_store A B a b h
  have hl' : (List.range a.cols).length = (List.range b.cols).length := by simp [hc]
  rw [hA, assignAt, hl', hl]
  exact store_grid_apply A a _ _ _ _ _
    (fun k hk => lt_of_mem_expand h1 (getD_mem (hl ▸ hk))) hi

/-- Whichever path `assignByVectors` takes, it assigns as Matlab's `A(a, b) = B(c, d)`. -/
theorem assignByVectors_eq_assignAt (A B : Buf α) (a b : Block)
    {vToRows vToCols vrows vcols : List Nat} {r : Buf α × List Access}
    (h : Mat.assignByVectors A a.toMat vToRows vToCols B b.toMat vrows vcols = some r)
    {i j : Nat} (hi : i < a.rows) :
    r.1 (a.addr i j) = assignAt (a.toMat.get A) (b.toMat.get B) (expand vToRows a.rows)
      (expand vToCols a.cols) (expand vrows b.rows) (expand vcols b.cols) i j := by
  obtain ⟨hcr, hl₁, hl₂, hA⟩ := assignByVectors_store A B a b h
  rw [hA, assignAt, hl₁, hl₂]
  exact store_grid_apply A a _ _ _ _ _
    (fun k hk => lt_of_mem_expand hcr (getD_mem (hl₁ ▸ hk))) hi

/-- **Repeated destination indices.**  For every destination and source whose cells lie
below `2^64` and all index lists, a call of `reorderColumnsByVectors`,
`reorderRowsByVectors` or `assignByVectors` (whichever path it takes) that passes its
assertions leaves `a` as Matlab's `A(:, b) = B(:, d)`, `A(a, :) = B(c, :)` or
`A(a, b) = B(c, d)` does, each empty list read as `:`.  A destination cell listed several
times keeps the last source cell copied to it, and a cell whose row or column is not listed
keeps its value. -/
theorem byVectors_last_write_wins (A B : Buf α) (a b : FitBlock) :
    (∀ vToCols vcols r, Mat.reorderColumnsByVectors A a.toMat vToCols B b.toMat vcols = some r →
      ∀ i j, i < a.rows → r.1 (a.addr i j) = assignAt (a.toMat.get A) (b.toMat.get B)
        (List.range a.rows) (expand vToCols a.cols) (List.range b.rows) (expand vcols b.cols)
        i j) ∧
    (∀ vToRows vrows r, Mat.reorderRowsByVectors A a.toMat vToRows B b.toMat vrows = some r →
      ∀ i j, i < a.rows → r.1 (a.addr i j) = assignAt (a.toMat.get A) (b.toMat.get B)
        (expand vToRows a.rows) (List.range a.cols) (expand vrows b.rows) (List.range b.cols)
        i j) ∧
    ∀ vToRows vToCols vrows vcols r,
      Mat.assignByVectors A a.toMat vToRows vToCols B b.toMat vrows vcols = some r →
      ∀ i j, i < a.rows → r.1 (a.addr i j) = assignAt (a.toMat.get A) (b.toMat.get B)
        (expand vToRows a.rows) (expand vToCols a.cols) (expand vrows b.rows)
        (expand vcols b.cols) i j :=
  ⟨fun _ _ _ h _ _ hi => reorderColumnsByVectors_eq_assignAt A B a.toBlock b.toBlock h hi,
    fun _ _ _ h _ _ hi => reorderRowsByVectors_eq_assignAt A B a.toBlock b.toBlock h hi,
    fun _ _ _ _ _ h _ _ hi => assignByVectors_eq_assignAt A B a.toBlock b.toBlock h hi⟩

/-- `A(:, [1 1]) = B(:, [1 2])` on `1 × 2` matrices (indices from 0 here): column 0 of the
destination is written twice and keeps the second source column. -/
theorem assignByVectors_repeated_column :
    ∃ r, Mat.assignByVectors (fun _ => (0 : Int)) (Matrix.toMat ⟨1, 2⟩) [] [0, 0]
      (fun x => (x : Int)) (Matrix.toMat ⟨1, 2⟩) [] [0, 1] = some r ∧ r.1 0 = 1 ∧ r.1 1 = 0 := by
  obtain ⟨r, h⟩ : ∃ r, Mat.assignByVectors (fun _ => (0 : Int)) (Matrix.toMat ⟨1, 2⟩) []
      [0, 0] (fun x => (x : Int)) (Matrix.toMat ⟨1, 2⟩) [] [0, 1] = some r := ⟨_, rfl⟩
  have hw := (byVectors_last_write_wins _ _ (Matrix.toFitBlock ⟨1, 2⟩ (by decide))
    (Matrix.toFitBlock ⟨1, 2⟩ (by decide))).2.2 _ _ _ _ _ h
  exact ⟨r, h, (hw 0 0 (by decide)).trans (by decide), (hw 0 1 (by decide)).trans (by decide)⟩

end Dynare
