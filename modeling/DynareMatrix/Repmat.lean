/-
# Tiling a matrix: repmat

`mat::repmat(a, multv, multh, repMat)` emulates Matlab's `repmat`: it lays a
`multv × multh` grid of copies of `a` into `repMat`, one 7-argument `col_copy` per column
of each copy,

    assert(repMat.getRows() == multv * a.getRows() && repMat.getCols() == multh * a.getCols());
    for (i < multv) for (j < multh) for (k < a.getCols())
      col_copy(a, k, 0, a.getRows(), repMat, a.getCols() * j + k, a.getRows() * i);

Each `col_copy` asserts `row_offset_src < src.getRows()`, here `0 < a.getRows()`.  A
source with no rows but some columns passes `repmat`'s own assertion and fails that of the
first `col_copy` (`repmat_eq_none_of_rows_zero`).  In every other case whose products fit
in `size_t`, every `col_copy` succeeds, and the run is one write log indexed by the loop
counters and the copied row (`repmat_eq_store`), whose addresses are distinct cells of
`repMat`: the tiles cover `repMat` exactly once, `repMat(I, J) = a(I mod r, J mod c)`.
-/
import DynareMatrix.Elementwise
import Mathlib.Data.List.ProdSigma

namespace Dynare

variable {α : Type}

/-! ## The loops -/

namespace Mat

/-- `mat::repmat(a, multv, multh, repMat)`: `a` and `repMat` lie in the one data space `R`,
and each `col_copy` reads `a` as the copies before it left the data space; the products and
the column sum are `size_t`. -/
def repmat (R : Buf α) (a : Mat) (multv multh : Nat) (repMat : Mat) : Option (Buf α) :=
  if repMat.rows = sizeMul multv a.rows ∧ repMat.cols = sizeMul multh a.cols then
    (List.range multv).foldlM (fun R i => (List.range multh).foldlM (fun R j =>
      (List.range a.cols).foldlM (fun R k =>
        colCopyRange R a k 0 a.rows R repMat (sizeAdd (sizeMul a.cols j) k) (sizeMul a.rows i))
        R) R) R
  else none

end Mat

/-- The loop counters `(i, j, k)` of `repmat`, each with a row `t` of the copied column. -/
def tileIndices (multv multh c r : Nat) : List (Nat × Nat × Nat × Nat) :=
  (List.range multv).product <| (List.range multh).product <| (List.range c).product (List.range r)

theorem mem_tileIndices {multv multh c r : Nat} {q : Nat × Nat × Nat × Nat} :
    q ∈ tileIndices multv multh c r ↔
      q.1 < multv ∧ q.2.1 < multh ∧ q.2.2.1 < c ∧ q.2.2.2 < r := by
  obtain ⟨i, j, k, t⟩ := q
  simp [tileIndices, List.mem_product]

theorem tileIndices_nodup (multv multh c r : Nat) : (tileIndices multv multh c r).Nodup :=
  (List.nodup_range _).product <| (List.nodup_range _).product <|
    (List.nodup_range _).product (List.nodup_range _)

/-- The cell of the grid that row `t` of column `k` of copy `(i, j)` lands on. -/
def tileCell (c r : Nat) (q : Nat × Nat × Nat × Nat) : Nat × Nat :=
  (r * q.1 + q.2.2.2, c * q.2.1 + q.2.2.1)

/-- Row `t < r` of block `i < n` of a stack of `n` blocks of `r` rows lies in the stack. -/
theorem mul_add_lt_of_lt {r i t n : Nat} (ht : t < r) (hi : i < n) : r * i + t < n * r := calc
  r * i + t < r * (i + 1) := by rw [Nat.mul_succ]; omega
  _ ≤ r * n := Nat.mul_le_mul_left _ hi
  _ = n * r := Nat.mul_comm _ _

/-- Every grid cell lies in the `multv * r × multh * c` grid. -/
theorem tileCell_lt {multv multh c r : Nat} {q : Nat × Nat × Nat × Nat}
    (hq : q ∈ tileIndices multv multh c r) :
    (tileCell c r q).1 < multv * r ∧ (tileCell c r q).2 < multh * c := by
  obtain ⟨hi, hj, hk, ht⟩ := mem_tileIndices.1 hq
  exact ⟨mul_add_lt_of_lt ht hi, mul_add_lt_of_lt hk hj⟩

/-- Row `t < r` of block `i` of a stack of blocks of `r` rows determines `i` and `t`. -/
theorem mul_add_inj {r i t i' t' : Nat} (ht : t < r) (ht' : t' < r)
    (h : r * i + t = r * i' + t') : i = i' ∧ t = t' := by
  have hr : 0 < r := by omega
  obtain ⟨h₁, h₂⟩ := (Nat.div_mod_unique hr).2 ⟨Nat.add_comm t (r * i), ht⟩
  obtain ⟨h₁', h₂'⟩ := (Nat.div_mod_unique hr).2 ⟨Nat.add_comm t' (r * i'), ht'⟩
  rw [h] at h₁ h₂
  exact ⟨h₁.symm.trans h₁', h₂.symm.trans h₂'⟩

/-- Within the bounds of a copy, the grid cell determines the copy, column and row. -/
theorem tileCell_inj {c r : Nat} {q q' : Nat × Nat × Nat × Nat} (hk : q.2.2.1 < c)
    (ht : q.2.2.2 < r) (hk' : q'.2.2.1 < c) (ht' : q'.2.2.2 < r)
    (h : tileCell c r q = tileCell c r q') : q = q' := by
  obtain ⟨h₁, h₂⟩ := Prod.mk.inj h
  obtain ⟨hi, ht⟩ := mul_add_inj ht ht' h₁
  obtain ⟨hj, hk⟩ := mul_add_inj hk hk' h₂
  exact Prod.ext hi (Prod.ext hj (Prod.ext hk ht))

/-! ## One column copy, then the whole run -/

section Run

variable (R : Buf α) (a repMat : Mat) {multv multh : Nat}

/-- The shape `repmat` needs: its own assertion over ℕ, with products inside `size_t`, and a
source with rows whenever some `col_copy` runs. -/
structure RepmatShape (a repMat : Mat) (multv multh : Nat) : Prop where
  rows_eq : repMat.rows = multv * a.rows
  cols_eq : repMat.cols = multh * a.cols
  rows_lt : repMat.rows < 2 ^ 64
  cols_lt : repMat.cols < 2 ^ 64
  copies : 0 < a.rows ∨ a.cols = 0 ∨ multv = 0 ∨ multh = 0

/-- The rows `r*i ≤ I < r*(i + 1)` of copy `i < n` of a stack of `n` copies lie in the stack. -/
theorem mul_add_le_of_lt {r i n : Nat} (hi : i < n) : r * i + r ≤ n * r := calc
  r * i + r = r * (i + 1) := (Nat.mul_succ _ _).symm
  _ ≤ r * n := Nat.mul_le_mul_left _ hi
  _ = n * r := Nat.mul_comm _ _

/-- **One `col_copy` of `repmat`.**  Column `k` of `a`, read from `S`, lands in column
`c*j + k` of `repMat`, from row `r*i` on. -/
theorem repmat_colCopy (S : Buf α) (hs : RepmatShape a repMat multv multh) {i j k : Nat}
    (hi : i < multv) (hj : j < multh) (hk : k < a.cols) :
    Mat.colCopyRange S a k 0 a.rows R repMat (sizeAdd (sizeMul a.cols j) k) (sizeMul a.rows i) =
      some (store R ((List.range a.rows).map fun t =>
        (repMat.addr (a.rows * i + t) (a.cols * j + k), S (a.addr t k)))) := by
  have hr : 0 < a.rows := by rcases hs.copies with h | h | h | h <;> omega
  have hcol : a.cols * j + k < repMat.cols := hs.cols_eq ▸ mul_add_lt_of_lt hk hj
  have hrow : a.rows * i + a.rows ≤ repMat.rows := hs.rows_eq ▸ mul_add_le_of_lt hi
  have hc := hs.cols_lt
  have hr' := hs.rows_lt
  rw [sizeMul_of_lt (by omega), sizeAdd_of_lt (by omega), sizeMul_of_lt (by omega),
    Mat.colCopyRange, if_pos ⟨hk, hcol, hr, by rw [sizeAdd_of_lt (by omega)]; omega, by omega,
      by rw [sizeAdd_of_lt (by omega)]; exact hrow⟩, memcpy]
  refine congrArg (fun ws => some (store R ws)) (List.map_congr_left fun t _ => ?_)
  simp only [Mat.addr, Prod.mk.injEq]
  exact ⟨by omega, congrArg S (by omega)⟩

variable {R a repMat}

/-- **One `col_copy` of `repmat` within one data space.**  While `a` holds what it held in
`R0`, a copy reads it from `R0`, and stores only in `repMat`, apart from `a`. -/
theorem repmat_colCopy_of_agrees (hs : RepmatShape a repMat multv multh)
    (hsep : ∀ x, a.IsCell x → ¬ repMat.IsCell x) {R0 : Buf α} (hR : a.AgreesOn R0 R) {i j k : Nat}
    (hi : i < multv) (hj : j < multh) (hk : k < a.cols) :
    let ws := (List.range a.rows).map fun t =>
      (repMat.addr (a.rows * i + t) (a.cols * j + k), R0 (a.addr t k))
    Mat.colCopyRange R a k 0 a.rows R repMat (sizeAdd (sizeMul a.cols j) k) (sizeMul a.rows i) =
      some (store R ws) ∧ a.AgreesOn R0 (store R ws) := by
  have hcol : a.cols * j + k < repMat.cols := hs.cols_eq ▸ mul_add_lt_of_lt hk hj
  refine ⟨(repmat_colCopy R a repMat R hs hi hj hk).trans (congrArg (fun ws => some (store R ws))
    (List.map_congr_left fun t ht => congrArg _ (hR _ (Mat.isCell_addr (List.mem_range.1 ht) hk)))),
    hR.of_onlyWrites (Mat.onlyWrites_store fun w hw => ?_) hsep⟩
  obtain ⟨t, ht, rfl⟩ := List.mem_map.1 hw
  exact Mat.isCell_addr ((mul_add_lt_of_lt (List.mem_range.1 ht) hi).trans_eq hs.rows_eq.symm) hcol

/-- **The run of `repmat`.**  From a source `a` apart from `repMat`, every `col_copy`
succeeds, and the run is one write log with an entry per loop counter `(i, j, k)` and
copied row `t`, reading `a` as it stood before the call. -/
theorem repmat_eq_store (hs : RepmatShape a repMat multv multh)
    (hsep : ∀ x, a.IsCell x → ¬ repMat.IsCell x) :
    Mat.repmat R a multv multh repMat = some (store R
      ((tileIndices multv multh a.cols a.rows).map fun q =>
        (repMat.addr (tileCell a.cols a.rows q).1 (tileCell a.cols a.rows q).2,
          R (a.addr q.2.2.2 q.2.2.1)))) := by
  have hdims : repMat.rows = sizeMul multv a.rows ∧ repMat.cols = sizeMul multh a.cols := by
    rw [sizeMul_of_lt (hs.rows_eq ▸ hs.rows_lt), sizeMul_of_lt (hs.cols_eq ▸ hs.cols_lt)]
    exact ⟨hs.rows_eq, hs.cols_eq⟩
  /- the column log of copy `(i, j)`, reading `a` from `R` -/
  let ws := fun i j => (List.range a.cols).flatMap fun k => (List.range a.rows).map fun t =>
    (repMat.addr (a.rows * i + t) (a.cols * j + k), R (a.addr t k))
  have hcopy : ∀ i < multv, ∀ j < multh, ∀ D : Buf α, a.AgreesOn R D →
      (List.range a.cols).foldlM (fun D k => Mat.colCopyRange D a k 0 a.rows D repMat
        (sizeAdd (sizeMul a.cols j) k) (sizeMul a.rows i)) D = some (store D (ws i j)) ∧
      a.AgreesOn R (store D (ws i j)) := fun i hi j hj D hD => by
    have h := foldlM_eq_some_of_inv (a.AgreesOn R) _ _ D hD fun D hD k hk =>
      repmat_colCopy_of_agrees hs hsep hD hi hj (List.mem_range.1 hk)
    rwa [foldl_store] at h
  have hrow : ∀ i < multv, ∀ D : Buf α, a.AgreesOn R D →
      (List.range multh).foldlM (fun D j => (List.range a.cols).foldlM (fun D k =>
        Mat.colCopyRange D a k 0 a.rows D repMat (sizeAdd (sizeMul a.cols j) k)
          (sizeMul a.rows i)) D) D = some (store D ((List.range multh).flatMap (ws i))) ∧
      a.AgreesOn R (store D ((List.range multh).flatMap (ws i))) := fun i hi D hD => by
    have h := foldlM_eq_some_of_inv (a.AgreesOn R) _ _ D hD fun D hD j hj =>
      hcopy i hi j (List.mem_range.1 hj) D hD
    rwa [foldl_store] at h
  rw [Mat.repmat, if_pos hdims, (foldlM_eq_some_of_inv (a.AgreesOn R) _ _ R (fun _ _ => rfl)
    fun D hD i hi => hrow i (List.mem_range.1 hi) D hD).1, foldl_store]
  simp only [ws, tileIndices, tileCell, List.product, List.map_flatMap, List.map_map,
    Function.comp_def]

end Run

/-- Whether `repmat` passes its assertions does not depend on the data. -/
theorem repmat_isSome (R R' : Buf α) (a : Mat) (multv multh : Nat) (repMat : Mat) :
    (Mat.repmat R a multv multh repMat).isSome = (Mat.repmat R' a multv multh repMat).isSome := by
  unfold Mat.repmat
  split_ifs
  · exact foldlM_isSome_eq _ _ _ fun _ _ _ _ => foldlM_isSome_eq _ _ _ fun _ _ _ _ =>
      foldlM_isSome_eq _ _ _ fun _ _ _ _ => Mat.colCopyRange_isSome _ _ _ _ _ _ _ _ _ _ _
  · rfl

/-- `repmat` with its products inside `size_t` stores only at cells of `repMat`, wherever
`a` lies. -/
theorem repmat_onlyWrites {R R' : Buf α} {a repMat : Mat} {multv multh : Nat}
    (hw : multv * a.rows < 2 ^ 64 ∧ multh * a.cols < 2 ^ 64)
    (h : Mat.repmat R a multv multh repMat = some R') : repMat.OnlyWrites R R' := by
  unfold Mat.repmat at h
  split_ifs at h
  refine Mat.onlyWrites_foldlM (fun _ i hi _ h => Mat.onlyWrites_foldlM (fun _ _ _ _ h =>
    Mat.onlyWrites_foldlM (fun _ _ _ _ h => Mat.colCopyRange_onlyWrites ?_ h) h) h) h
  -- the rows of copy `i` end within the stack of `multv` copies
  have := mul_add_le_of_lt (r := a.rows) (List.mem_range.1 hi)
  rw [sizeMul_of_lt (by omega)]
  omega

/-- A source with no rows but some columns fails the first inner `col_copy`, whatever
`repmat`'s own assertion says. -/
theorem repmat_eq_none_of_rows_zero (R : Buf α) (a repMat : Mat) {multv multh : Nat}
    (hr : a.rows = 0) (hc : 0 < a.cols) (hv : 0 < multv) (hh : 0 < multh) :
    Mat.repmat R a multv multh repMat = none := by
  obtain ⟨v, rfl⟩ : ∃ v, multv = v + 1 := ⟨multv - 1, by omega⟩
  obtain ⟨h, rfl⟩ : ∃ h, multh = h + 1 := ⟨multh - 1, by omega⟩
  obtain ⟨c, hc⟩ : ∃ c, a.cols = c + 1 := ⟨a.cols - 1, by omega⟩
  unfold Mat.repmat
  split
  · rw [List.range_succ_eq_map v, foldlM_cons_eq_none]
    rw [List.range_succ_eq_map h, foldlM_cons_eq_none]
    rw [hc, List.range_succ_eq_map c, foldlM_cons_eq_none]
    rw [Mat.colCopyRange, if_neg fun hc' => absurd hc'.2.2.1 (by omega)]
  · rfl

/-- A `repmat` with its products inside `size_t` that passes its assertions has the shape
it needs. -/
theorem repmat_shape {R R' : Buf α} {a repMat : Mat} {multv multh : Nat}
    (hw : multv * a.rows < 2 ^ 64 ∧ multh * a.cols < 2 ^ 64)
    (h : Mat.repmat R a multv multh repMat = some R') : RepmatShape a repMat multv multh := by
  have hd : repMat.rows = multv * a.rows ∧ repMat.cols = multh * a.cols := by
    unfold Mat.repmat at h
    split_ifs at h with hd
    rwa [sizeMul_of_lt hw.1, sizeMul_of_lt hw.2] at hd
  refine ⟨hd.1, hd.2, by omega, by omega, ?_⟩
  by_contra hc
  simp only [not_or] at hc
  rw [repmat_eq_none_of_rows_zero R a repMat (by omega) (by omega) (by omega) (by omega)] at h
  cases h

/-- The grid cell `(I, J)` is written by row `I mod r` of column `J mod c` of copy
`(I / r, J / c)`. -/
theorem tileCell_div_mod {multv multh c r I J : Nat} (hI : I < multv * r) (hJ : J < multh * c) :
    (I / r, J / c, J % c, I % r) ∈ tileIndices multv multh c r ∧
      tileCell c r (I / r, J / c, J % c, I % r) = (I, J) := by
  have hr : 0 < r := Nat.pos_of_ne_zero fun h => by simp [h] at hI
  have hc : 0 < c := Nat.pos_of_ne_zero fun h => by simp [h] at hJ
  exact ⟨mem_tileIndices.2 ⟨Nat.div_lt_of_lt_mul (by rwa [Nat.mul_comm]),
    Nat.div_lt_of_lt_mul (by rwa [Nat.mul_comm]), Nat.mod_lt _ hc, Nat.mod_lt _ hr⟩,
    Prod.ext (Nat.div_add_mod I r) (Nat.div_add_mod J c)⟩

/-- The write log of `repmat` over a block: each grid cell `(I, J)` holds `a(I mod r, J mod c)`
and nothing outside the block is written. -/
theorem repmat_store_apply (A R : Buf α) (a : Mat) (repMat : Block) {multv multh : Nat}
    (hs : RepmatShape a repMat.toMat multv multh) {I J : Nat} (hI : I < repMat.rows)
    (hJ : J < repMat.cols) :
    store R ((tileIndices multv multh a.cols a.rows).map fun q =>
        (repMat.addr (tileCell a.cols a.rows q).1 (tileCell a.cols a.rows q).2,
          A (a.addr q.2.2.2 q.2.2.1))) (repMat.addr I J) =
      A (a.addr (I % a.rows) (J % a.cols)) := by
  obtain ⟨hq, he⟩ := tileCell_div_mod (hs.rows_eq ▸ hI : I < multv * a.rows)
    (hs.cols_eq ▸ hJ : J < multh * a.cols)
  have hnd : ((tileIndices multv multh a.cols a.rows).map (tileCell a.cols a.rows)).Nodup :=
    (tileIndices_nodup _ _ _ _).map_on fun q hq' q' hq'' h => by
      have := mem_tileIndices.1 hq'
      have := mem_tileIndices.1 hq''
      exact tileCell_inj (by omega) (by omega) (by omega) (by omega) h
  have hread := repMat.store_map_apply R (tileCell a.cols a.rows)
    (fun q => A (a.addr q.2.2.2 q.2.2.1)) hnd
    (fun q hq' => hs.rows_eq ▸ (tileCell_lt hq').1) hq
  rwa [he] at hread

/-! ## The grid covers `repMat` exactly once -/

/-- **Tiling.**  Let `a` and `repMat` be owning matrices or views whose cells lie below
`2^64`, `repMat` with `multv * r` rows and `multh * c` columns, both below `2^64`.  If `a`
shares no cell with `repMat` and has rows, or the grid asks for no column copy,
`repmat(a, multv, multh, repMat)` completes, every cell `(I, J)` of `repMat` then holds the
old `a(I mod r, J mod c)`, and nothing outside `repMat` is written.  If `a` has no rows but
some columns, and the grid is not empty, it aborts in the first `col_copy`, whatever
`repMat` is, where Matlab's `repmat` returns an empty matrix. -/
theorem repmat_tiles_grid (R : Buf α) (a : FitBlock) (multv multh : Nat) (repMat : FitBlock) :
    (RepmatShape a.toMat repMat.toMat multv multh → (∀ x, a.IsCell x → ¬ repMat.IsCell x) →
      ∃ R', Mat.repmat R a.toMat multv multh repMat.toMat = some R' ∧
        (∀ I J, I < multv * a.rows → J < multh * a.cols →
          R' (repMat.addr I J) = R (a.addr (I % a.rows) (J % a.cols))) ∧
        ∀ x, ¬ repMat.IsCell x → R' x = R x) ∧
    (a.rows = 0 → 0 < a.cols → 0 < multv → 0 < multh →
      Mat.repmat R a.toMat multv multh repMat.toMat = none) := by
  refine ⟨fun hs hsep => ⟨_, repmat_eq_store hs hsep, fun I J hI hJ => ?_,
    fun x hx => store_apply_of_not_mem fun w hw hwx => hx ?_⟩,
    repmat_eq_none_of_rows_zero R a.toMat repMat.toMat⟩
  · exact repmat_store_apply R R a.toMat repMat.toBlock hs (hs.rows_eq ▸ hI) (hs.cols_eq ▸ hJ)
  · obtain ⟨q, hq, rfl⟩ := List.mem_map.1 hw
    exact ⟨_, _, hs.rows_eq ▸ (tileCell_lt hq).1, hs.cols_eq ▸ (tileCell_lt hq).2, hwx⟩

/-- A `1 × 1` matrix at offset `0` stacked twice into the `2 × 1` matrix at offsets `1, 2` of
the same data space, which holds its offsets; and a `0 × 1` source tiled once into a `0 × 1`
matrix: `repmat`'s own assertion holds, and the first `col_copy` rejects the call. -/
theorem repmat_two_copies :
    (∃ R', Mat.repmat (fun x => (x : Int)) ⟨0, 1, 1, 1⟩ 2 1 ⟨1, 2, 1, 2⟩ = some R' ∧
      R' 1 = 0 ∧ R' 2 = 0) ∧
    (Matrix.toMat ⟨0, 1⟩).rows = sizeMul 1 (Matrix.toMat ⟨0, 1⟩).rows ∧
    (Matrix.toMat ⟨0, 1⟩).cols = sizeMul 1 (Matrix.toMat ⟨0, 1⟩).cols ∧
    Mat.repmat (fun _ => (0 : Int)) (Matrix.toMat ⟨0, 1⟩) 1 1 (Matrix.toMat ⟨0, 1⟩) = none := by
  have h := repmat_tiles_grid (fun x => (x : Int)) ⟨⟨⟨0, 1, 1, 1⟩, le_rfl⟩, by decide⟩ 2 1
    ⟨⟨⟨1, 2, 1, 2⟩, le_rfl⟩, by decide⟩
  obtain ⟨R', hR, hcell, -⟩ := h.1 ⟨rfl, rfl, by decide, by decide, Or.inl Nat.one_pos⟩
    fun x ⟨i, j, hi, hj, hx⟩ ⟨i', j', hi', hj', hx'⟩ => by
      simp only [Mat.addr] at hi hj hi' hj' hx hx'
      omega
  exact ⟨⟨R', hR, hcell 0 0 (by decide) (by decide), hcell 1 0 (by decide) (by decide)⟩, rfl, rfl,
    (repmat_tiles_grid (fun _ => (0 : Int)) (Matrix.toFitBlock ⟨0, 1⟩ (by decide)) 1 1
      (Matrix.toFitBlock ⟨0, 1⟩ (by decide))).2 rfl Nat.one_pos Nat.one_pos Nat.one_pos⟩

end Dynare
