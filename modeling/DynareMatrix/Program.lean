/-
# Programs of calls on one data space

The mutating functions of the header, with the assignment and `setAll` of a view, are what
a caller does to matrices that live in one data space.  Each becomes a call (`Call`) on a
target block, its source matrix read from the same data space as the call finds it, and a
program is a list of calls run in order until an assertion fails (`runCalls`).  Targets and
sources are `FitBlock`s: their cells lie below `2^64`, where the offsets of the model are
the `size_t` offsets of the code.

Every fact about whole runs here comes from two facts per call.  A call that passes its
assertions changes nothing outside its target (`Call.exec_onlyWrites`).  A call that reads
no cell of its target leaves there the matrix its purpose describes (`Call.exec_apply`,
`Call.effect`, stated on matrices rather than pointers), its source as any data space that
agrees on it holds it.  `col_set`, the 7-argument `col_copy` and `repmat` need their `size_t`
sums and products not to wrap (`Call.NoWrap`); when they wrap, `col_set` and `col_copy`
write past the block.

* A run changes only the cells of the blocks it targets, and a run on views of one owning
  matrix nothing outside that matrix (`runCalls_frame`).
* Whether a run passes its assertions never depends on the data; when no call reads its own
  target, runs from data spaces that agree on the targets and the sources end agreeing on the
  targets (`runCalls_reads_only_targets`).  Hence programs on two views of one matrix whose
  blocks lie apart, and that read nothing either of them writes, commute (`views_commute`).
* A run of calls on one block whose sources lie outside it leaves in it the matrix the
  abstract program of their effects computes from the data space it started from
  (`runCalls_refines`); seen from an owning matrix, a run on a view updates one submatrix
  (`runCalls_on_view`).
* Running an overwriting call twice is running it once (`runCalls_rerun`), and `transpose`,
  and `negate` over scalars whose negation is an involution, undo themselves
  (`runCalls_undo`).
-/
import DynareMatrix.Frame
import DynareMatrix.Repmat
import DynareMatrix.ByVectors
import Mathlib.Algebra.Group.Basic

namespace Dynare

variable {α : Type}

/-! ## Calls -/

/-- A call of the header that changes the matrix it is given, with its other arguments:
`MatrixView::setAll`, the template assignment, the column and row copies, `col_set`, the
mirror copies, `set_identity`, both `transpose`s, `add`, `sub`, `negate`, the three
assignments by index vectors, and `repmat`, whose target is `repMat`. -/
inductive Call (α : Type) where
  | setAll (val : α)
  | assign (b : FitBlock)
  | colCopy (src : FitBlock) (colSrc colDest : Nat)
  | colCopyRange (src : FitBlock) (colSrc rowOffsetSrc rowNb colDest rowOffsetDest : Nat)
  | rowCopy (src : FitBlock) (rowSrc rowDest : Nat)
  | colSet (col rowOffset rowNb : Nat) (val : α)
  | copyUpperToLower
  | copyLowerToUpper
  | setIdentity
  | transpose
  | transposeFrom (m2 : FitBlock)
  | add (b : FitBlock)
  | addScalar (d : α)
  | sub (b : FitBlock)
  | subScalar (d : α)
  | negate
  | reorderColumnsByVectors (vToCols : List Nat) (b : FitBlock) (vcols : List Nat)
  | reorderRowsByVectors (vToRows : List Nat) (b : FitBlock) (vrows : List Nat)
  | assignByVectors (vToRows vToCols : List Nat) (b : FitBlock) (vrows vcols : List Nat)
  | repmat (a : FitBlock) (multv multh : Nat)

namespace Call

/-- The matrix a call reads besides its target, if any. -/
def source : Call α → Option FitBlock
  | assign b | colCopy b _ _ | colCopyRange b _ _ _ _ _ | rowCopy b _ _ | transposeFrom b
  | add b | sub b | reorderColumnsByVectors _ b _ | reorderRowsByVectors _ b _
  | assignByVectors _ _ b _ _ | repmat b _ _ => some b
  | _ => none

/-- `x` is a cell of the call's source. -/
def Reads (c : Call α) (x : Nat) : Prop :=
  match c.source with
  | some b => b.IsCell x
  | none => False

/-- The calls whose `size_t` row sums (`col_set`, 7-argument `col_copy`) or products
(`repmat`) stay below `2^64`. -/
def NoWrap : Call α → Prop
  | colSet _ ro rn _ => ro + rn < 2 ^ 64
  | colCopyRange _ _ ros rn _ rod => ros + rn < 2 ^ 64 ∧ rod + rn < 2 ^ 64
  | repmat a multv multh => multv * a.rows < 2 ^ 64 ∧ multh * a.cols < 2 ^ 64
  | _ => True

section Semantics

variable [Add α] [Sub α] [Mul α] [Neg α] [One α] [Zero α]

/-- A call on the target `V` in the data space `A`: the model of the function it names, its
source read from `A` as the call finds it. -/
def exec (A : Buf α) (V : Mat) : Call α → Option (Buf α)
  | setAll val => some (MatrixView.setAll A V val)
  | assign b => Mat.assignWith id A V b.toMat
  | colCopy src cs cd => Mat.colCopy A src.toMat cs A V cd
  | colCopyRange src cs ros rn cd rod => Mat.colCopyRange A src.toMat cs ros rn A V cd rod
  | rowCopy src rs rd => Mat.rowCopy A src.toMat rs V rd
  | colSet col ro rn val => Mat.colSet A V col ro rn val
  | copyUpperToLower => some (Mat.copyUpperToLower A V)
  | copyLowerToUpper => some (Mat.copyLowerToUpper A V)
  | setIdentity => some (Mat.setIdentity MatrixView.setAll A V)
  | transpose => Mat.transpose A V
  | transposeFrom m2 => Mat.transposeToWith id A V m2.toMat
  | add b => Mat.add A V b.toMat
  | addScalar d => some (Mat.addScalar A V d)
  | sub b => Mat.sub A V b.toMat
  | subScalar d => some (Mat.subScalar A V d)
  | negate => some (Mat.negate A V)
  | reorderColumnsByVectors vToCols b vcols =>
    (Mat.reorderColumnsByVectorsWith id A V vToCols b.toMat vcols).map Prod.fst
  | reorderRowsByVectors vToRows b vrows =>
    (Mat.reorderRowsByVectorsWith id A V vToRows b.toMat vrows).map Prod.fst
  | assignByVectors vToRows vToCols b vrows vcols =>
    (Mat.assignByVectorsWith id A V vToRows vToCols b.toMat vrows vcols).map Prod.fst
  | repmat a multv multh => Mat.repmat A a.toMat multv multh V

/-- What a call is for: the matrix it leaves in a `rows × cols` target that held `f`, its
source read from `S`.  Matlab's indexing for the assignments by vectors (`assignAt`). -/
def effect (S : Buf α) (rows cols : Nat) : Call α → (Nat → Nat → α) → Nat → Nat → α
  | setAll val, _ => fun _ _ => val
  | assign b, _ => b.get S
  | colCopy src cs cd, f => fun i j => if j = cd then S (src.addr i cs) else f i j
  | colCopyRange src cs ros rn cd rod, f => fun i j =>
    if j = cd ∧ rod ≤ i ∧ i < rod + rn then S (src.addr (ros + (i - rod)) cs) else f i j
  | rowCopy src rs rd, f => fun i j => if i = rd then S (src.addr rs j) else f i j
  | colSet col ro rn val, f => fun i j => if j = col ∧ ro ≤ i ∧ i < ro + rn then val else f i j
  | copyUpperToLower, f => fun i j =>
    if i < min cols rows ∧ j < min cols rows then f (min i j) (max i j) else f i j
  | copyLowerToUpper, f => fun i j =>
    if i < min cols rows ∧ j < min cols rows then f (max i j) (min i j) else f i j
  | setIdentity, _ => fun i j => if i = j then 1 else 0
  | transpose, f => fun i j => f j i
  | transposeFrom m2, _ => fun i j => S (m2.addr j i)
  | add b, f => fun i j => f i j + S (b.addr i j)
  | addScalar d, f => fun i j => f i j + d
  | sub b, f => fun i j => f i j - S (b.addr i j)
  | subScalar d, f => fun i j => f i j + -1 * d
  | negate, f => fun i j => -f i j
  | reorderColumnsByVectors vToCols b vcols, f => assignAt f (b.toMat.get S) (List.range rows)
    (expand vToCols cols) (List.range b.rows) (expand vcols b.cols)
  | reorderRowsByVectors vToRows b vrows, f => assignAt f (b.toMat.get S) (expand vToRows rows)
    (List.range cols) (expand vrows b.rows) (List.range b.cols)
  | assignByVectors vToRows vToCols b vrows vcols, f => assignAt f (b.toMat.get S)
    (expand vToRows rows) (expand vToCols cols) (expand vrows b.rows) (expand vcols b.cols)
  | repmat a _ _, _ => fun i j => S (a.addr (i % a.rows) (j % a.cols))

end Semantics

/-! ## One call -/

variable [Add α] [Sub α] [Mul α] [Neg α] [One α] [Zero α]

/-- **A call reads only its target.**  On the cells of a `rows × cols` target, the effect
of a call depends on the matrix it starts from only through those cells (a transposed
target being square). -/
theorem effect_congr (S : Buf α) {rows cols : Nat} (c : Call α)
    (hsq : c = transpose → rows = cols) {f g : Nat → Nat → α}
    (hfg : ∀ i j, i < rows → j < cols → f i j = g i j) {i j : Nat} (hi : i < rows)
    (hj : j < cols) : c.effect S rows cols f i j = c.effect S rows cols g i j := by
  cases c
  case transpose => exact hfg j i (hsq rfl ▸ hj) (hsq rfl ▸ hi)
  case copyUpperToLower | copyLowerToUpper =>
    simp only [effect]
    split_ifs with h
    · exact hfg _ _ (by omega) (by omega)
    · exact hfg i j hi hj
  all_goals simp only [effect, assignAt, hfg i j hi hj]

/-- **A call writes only its target.**  A call on a block without `size_t` overflow that
passes its assertions changes no offset outside the block, whatever it reads. -/
theorem exec_onlyWrites (A : Buf α) (V : FitBlock) {c : Call α} (hw : c.NoWrap) {A' : Buf α}
    (h : c.exec A V.toMat = some A') : V.OnlyWrites A A' := by
  obtain ⟨hAll, hAsg, hAdd, hSub, hAddS, hSubS, hNeg, hId, hTr, hUL, hLU, hCS, hCC, hCCR, hRC⟩ :=
    writes_stay_in_block A V.toBlock
  cases c with
  | setAll val => cases h; exact hAll val
  | assign b => exact hAsg id b.toMat A' h
  | colCopy src cs cd => exact hCC A src.toMat cs cd A' h
  | colCopyRange src cs ros rn cd rod => exact hCCR A src.toMat cs ros rn cd rod A' hw.2 h
  | rowCopy src rs rd => exact hRC id src.toBlock rs rd A' h
  | colSet col ro rn val => exact hCS col ro rn val A' hw h
  | copyUpperToLower => cases h; exact hUL
  | copyLowerToUpper => cases h; exact hLU
  | setIdentity => cases h; exact hId
  | transpose => exact hTr A' h
  | transposeFrom m2 => exact Mat.transposeToWith_onlyWrites h
  | add b => exact hAdd b.toMat A' h
  | addScalar d => cases h; exact hAddS d
  | sub b => exact hSub b.toMat A' h
  | subScalar d => cases h; exact hSubS d
  | negate => cases h; exact hNeg
  | reorderColumnsByVectors vToCols b vcols =>
    obtain ⟨r, hr, rfl⟩ := Option.map_eq_some'.1 h
    exact reorderColumnsByVectorsWith_onlyWrites hr
  | reorderRowsByVectors vToRows b vrows =>
    obtain ⟨r, hr, rfl⟩ := Option.map_eq_some'.1 h
    exact reorderRowsByVectorsWith_onlyWrites (b := b.toBlock) hr
  | assignByVectors vToRows vToCols b vrows vcols =>
    obtain ⟨r, hr, rfl⟩ := Option.map_eq_some'.1 h
    exact assignByVectorsWith_onlyWrites (b := b.toBlock) hr
  | repmat a multv multh => exact repmat_onlyWrites hw h

/-- **One call.**  A call on a block without `size_t` overflow that reads no cell of the
block and passes its assertions leaves at each cell of the block the entry its effect gives
from the matrix the block held, its source read from any data space `S` that agrees with
`A` on it. -/
theorem exec_apply (A S : Buf α) (V : FitBlock) {c : Call α} (hw : c.NoWrap)
    (hS : ∀ x, c.Reads x → A x = S x) (hsep : ∀ x, c.Reads x → ¬ V.IsCell x) {A' : Buf α}
    (h : c.exec A V.toMat = some A') {i j : Nat} (hi : i < V.rows) (hj : j < V.cols) :
    A' (V.addr i j) = c.effect S V.rows V.cols (V.toMat.get A) i j := by
  have hld := V.rows_le_ld
  -- a cell outside the square corner is no cell the triangle copies write
  have hout (hd : ¬(i < min V.cols V.rows ∧ j < min V.cols V.rows)) (i' j' : Nat)
      (hi' : i' < min V.cols V.rows) (hj' : j' < min V.cols V.rows) :
      V.toMat.addr i' j' ≠ V.toMat.addr i j := fun he => hd <| by
    have := Mat.addr_inj (by omega) (by omega) he
    omega
  cases c with
  | setAll val =>
    cases h
    rw [MatrixView.setAll_eq, Block.store_cellWrites_cell A V.toBlock _ hi hj]
    rfl
  | assign b =>
    simp only [exec, Mat.assignWith_id A S V.toMat b.toMat hS hsep] at h
    obtain ⟨-, rfl⟩ := Mat.assign_eq_some_iff.1 h
    exact V.store_cellWrites_cell A _ hi hj
  | colCopy src cs cd =>
    simp only [exec, Mat.colCopy_congr_source hS] at h
    exact Mat.colCopy_apply h hi
  | colCopyRange src cs ros rn cd rod =>
    simp only [exec, Mat.colCopyRange_congr_source hw.1 hS] at h
    exact Mat.colCopyRange_apply h hw.2 hi
  | rowCopy src rs rd =>
    simp only [exec, Mat.rowCopy_eq_const_of_apart hsep,
      Mat.rowCopyWith_const_congr hS] at h
    exact Mat.rowCopyWith_const_apply h hi hj
  | colSet col ro rn val => exact Mat.colSet_apply h hw hi
  | copyUpperToLower =>
    cases h
    simp only [effect, Mat.get_def]
    split_ifs with hd
    · exact Mat.copyUpperToLower_apply A V.toBlock hd.1 hd.2
    · exact Mat.copyUpperToLower_of_not_block A V.toMat (hout hd)
  | copyLowerToUpper =>
    cases h
    simp only [effect, Mat.get_def]
    split_ifs with hd
    · exact Mat.copyLowerToUpper_apply A V.toBlock hd.1 hd.2
    · exact Mat.copyLowerToUpper_of_not_block A V.toMat (hout hd)
  | setIdentity =>
    cases h
    exact Mat.setIdentity_apply A V.toBlock hi hj
  | transpose =>
    unfold exec Mat.transpose at h
    split_ifs at h with hsq
    cases h
    exact (Mat.transpose_swaps A V.toBlock).1 i j hi (hsq ▸ hj)
  | transposeFrom m2 =>
    simp only [exec, Mat.transposeToWith_id A S V.toMat m2.toMat hS hsep] at h
    exact Mat.transposeTo_apply h hi hj
  | add b | sub b =>
    simp only [exec, Mat.add, Mat.sub] at h
    split_ifs at h with hd
    cases h
    rw [Mat.zipCols_apply_cell _ V.toBlock b.toMat (fun i j hi hj =>
      .inr (hsep _ (Mat.isCell_addr (hd.1 ▸ hi) (hd.2 ▸ hj)))) hi hj,
      hS _ (Mat.isCell_addr (hd.1 ▸ hi) (hd.2 ▸ hj))]
    rfl
  | addScalar d =>
    cases h
    exact Mat.mapCols_apply_cell _ V.toBlock hi hj
  | subScalar d =>
    cases h
    exact Mat.mapCols_apply_cell (· + -1 * d) V.toBlock hi hj
  | negate =>
    cases h
    exact Mat.mapCols_apply_cell _ V.toBlock hi hj
  | reorderColumnsByVectors vToCols b vcols =>
    obtain ⟨r, hr, rfl⟩ := Option.map_eq_some'.1 h
    rw [reorderColumnsByVectorsWith_id A S V.toBlock b.toMat _ _ hS hsep] at hr
    exact reorderColumnsByVectors_eq_assignAt A S V.toBlock b.toBlock hr hi
  | reorderRowsByVectors vToRows b vrows =>
    obtain ⟨r, hr, rfl⟩ := Option.map_eq_some'.1 h
    rw [reorderRowsByVectorsWith_id A S V.toBlock b.toBlock _ _ hS hsep] at hr
    exact reorderRowsByVectors_eq_assignAt A S V.toBlock b.toBlock hr hi
  | assignByVectors vToRows vToCols b vrows vcols =>
    obtain ⟨r, hr, rfl⟩ := Option.map_eq_some'.1 h
    rw [assignByVectorsWith_id A S V.toBlock b.toBlock _ _ _ _ hS hsep] at hr
    exact assignByVectors_eq_assignAt A S V.toBlock b.toBlock hr hi
  | repmat a multv multh =>
    have hs := repmat_shape hw h
    have hr : 0 < a.rows := Nat.pos_of_ne_zero fun h0 => by simp [hs.rows_eq, h0] at hi
    have hc : 0 < a.cols := Nat.pos_of_ne_zero fun h0 => by simp [hs.cols_eq, h0] at hj
    simp only [exec, repmat_eq_store hs hsep] at h
    cases h
    exact (repmat_store_apply A A a.toMat V.toBlock hs hi hj).trans
      (hS _ (Mat.isCell_addr (Nat.mod_lt _ hr) (Nat.mod_lt _ hc)))

/-- A transpose that passes its assertion is of a square block. -/
theorem exec_square {A A' : Buf α} {V : Mat} {c : Call α} (h : c.exec A V = some A') :
    c = transpose → V.rows = V.cols := by
  rintro rfl
  unfold exec Mat.transpose at h
  split_ifs at h with hsq
  exact hsq

/-- **One call, on matrices.**  When the block holds the matrix `f` at its cells, a call
that reads no cell of it and passes its assertions leaves there the matrix its effect makes
of `f`. -/
theorem exec_sim (A S : Buf α) (V : FitBlock) {c : Call α} (hw : c.NoWrap)
    (hS : ∀ x, c.Reads x → A x = S x) (hsep : ∀ x, c.Reads x → ¬ V.IsCell x) {A' : Buf α}
    (h : c.exec A V.toMat = some A') {f : Nat → Nat → α}
    (hf : ∀ i j, i < V.rows → j < V.cols → A (V.addr i j) = f i j) {i j : Nat}
    (hi : i < V.rows) (hj : j < V.cols) :
    A' (V.addr i j) = c.effect S V.rows V.cols f i j :=
  (exec_apply A S V hw hS hsep h hi hj).trans (effect_congr S c (exec_square h) hf hi hj)

/-- **The assertions never read the data.**  Whether a call passes its assertions depends
on the shapes, indices and index lists it is given, not on the contents of the data space. -/
theorem exec_isSome (A A' : Buf α) (V : Mat) (c : Call α) :
    (c.exec A V).isSome = (c.exec A' V).isSome := by
  cases c
  case assign => exact Mat.assignWith_isSome _ _ _ _ _ _
  case colCopy => exact Mat.colCopy_isSome _ _ _ _ _ _ _ _
  case colCopyRange => exact Mat.colCopyRange_isSome _ _ _ _ _ _ _ _ _ _ _
  case rowCopy => exact Mat.rowCopyWith_isSome _ _ _ _ _ _ _ _
  case transposeFrom => exact Mat.transposeToWith_isSome _ _ _ _ _ _
  case reorderColumnsByVectors =>
    simp only [exec, Option.isSome_map']
    exact reorderColumnsByVectorsWith_isSome _ _ _ _ _ _ _ _
  case reorderRowsByVectors =>
    simp only [exec, Option.isSome_map']
    exact reorderRowsByVectorsWith_isSome _ _ _ _ _ _ _ _
  case assignByVectors =>
    simp only [exec, Option.isSome_map']
    exact assignByVectorsWith_isSome _ _ _ _ _ _ _ _ _ _
  case repmat => exact repmat_isSome _ _ _ _ _ _
  all_goals
    simp only [exec, Mat.colSet, Mat.transpose, Mat.add, Mat.sub]
    first | rfl | (split_ifs <;> rfl)

end Call

/-! ## Programs -/

/-- A cell of a view of an owning matrix is a cell of the matrix. -/
theorem ViewOf.isCell {P : Matrix} {V : Mat} {R C : Nat} (h : ViewOf P.toMat V R C) {x : Nat}
    (hx : V.IsCell x) : P.toMat.IsCell x := by
  obtain ⟨i, j, hi, hj, rfl⟩ := hx
  obtain ⟨-, -, hr, hc⟩ := h.shape
  exact ⟨R + i, C + j, by omega, by omega, (h.addr_eq i j).symm⟩

/-- Two views of one matrix whose blocks lie apart, in rows or in columns, share no cell. -/
theorem ViewOf.not_isCell_of_apart {P : Matrix} {V W : Mat} {R C R' C' : Nat}
    (hV : ViewOf P.toMat V R C) (hW : ViewOf P.toMat W R' C')
    (hd : R + V.rows ≤ R' ∨ R' + W.rows ≤ R ∨ C + V.cols ≤ C' ∨ C' + W.cols ≤ C) {x : Nat}
    (hx : V.IsCell x) : ¬ W.IsCell x := by
  obtain ⟨i, j, hi, hj, rfl⟩ := hx
  rintro ⟨i', j', hi', hj', he⟩
  obtain ⟨-, -, hr, -⟩ := hV.shape
  obtain ⟨-, -, hr', -⟩ := hW.shape
  simp only [Matrix.toMat_rows] at hr hr'
  rw [hV.addr_eq, hW.addr_eq] at he
  obtain ⟨h₁, h₂⟩ := Mat.addr_inj (m := P.toMat) (by simp only [Matrix.toMat_ld]; omega)
    (by simp only [Matrix.toMat_ld]; omega) he
  omega

/-- The offsets a program targets: the cells of its calls' blocks. -/
def Targets (p : List (FitBlock × Call α)) (x : Nat) : Prop := ∃ e ∈ p, e.1.IsCell x

/-- The offsets a program reads besides its targets: the cells of its calls' sources. -/
def Reads (p : List (FitBlock × Call α)) (x : Nat) : Prop := ∃ e ∈ p, e.2.Reads x

/-- No call of the program reads a cell of its own target. -/
def ReadsApart (p : List (FitBlock × Call α)) : Prop :=
  ∀ e ∈ p, ∀ x, e.2.Reads x → ¬ e.1.IsCell x

/-- No call of the program reads a cell that a call of it writes. -/
def SourcesApart (p : List (FitBlock × Call α)) : Prop := ∀ x, Reads p x → ¬ Targets p x

@[simp] theorem targets_cons {e : FitBlock × Call α} {p : List (FitBlock × Call α)} {x : Nat} :
    Targets (e :: p) x ↔ e.1.IsCell x ∨ Targets p x := by
  simp [Targets]

@[simp] theorem reads_cons {e : FitBlock × Call α} {p : List (FitBlock × Call α)} {x : Nat} :
    Reads (e :: p) x ↔ e.2.Reads x ∨ Reads p x := by
  simp [Reads]

theorem targets_append {p q : List (FitBlock × Call α)} {x : Nat} :
    Targets (p ++ q) x ↔ Targets p x ∨ Targets q x := by
  simp only [Targets, List.mem_append, or_and_right, exists_or]

theorem reads_append {p q : List (FitBlock × Call α)} {x : Nat} :
    Reads (p ++ q) x ↔ Reads p x ∨ Reads q x := by
  simp only [Reads, List.mem_append, or_and_right, exists_or]

theorem SourcesApart.readsApart {p : List (FitBlock × Call α)} (h : SourcesApart p) :
    ReadsApart p :=
  fun e he x hx hc => h x ⟨e, he, hx⟩ ⟨e, he, hc⟩

theorem isCell_of_targets_map {V : FitBlock} {cs : List (Call α)} {x : Nat}
    (h : Targets (cs.map fun c => (V, c)) x) : V.IsCell x := by
  obtain ⟨e, he, hc⟩ := h
  obtain ⟨c, -, rfl⟩ := List.mem_map.1 he
  exact hc

section Programs

variable [Add α] [Sub α] [Mul α] [Neg α] [One α] [Zero α]

/-- A program: calls on their target blocks, run in order; a failed assertion ends it. -/
def runCalls : Buf α → List (FitBlock × Call α) → Option (Buf α)
  | A, [] => some A
  | A, e :: p => (e.2.exec A e.1.toMat).bind fun A' => runCalls A' p

theorem runCalls_cons_eq_some {A A' : Buf α} {e : FitBlock × Call α}
    {p : List (FitBlock × Call α)} :
    runCalls A (e :: p) = some A' ↔
      ∃ A₁, e.2.exec A e.1.toMat = some A₁ ∧ runCalls A₁ p = some A' :=
  Option.bind_eq_some

theorem runCalls_append (A : Buf α) (p q : List (FitBlock × Call α)) :
    runCalls A (p ++ q) = (runCalls A p).bind fun A' => runCalls A' q := by
  induction p generalizing A with
  | nil => rfl
  | cons e p ih =>
    rw [List.cons_append]
    simp only [runCalls, ih, Option.bind_assoc]

/-- Whether a run passes its assertions does not depend on the data. -/
theorem runCalls_isSome (p : List (FitBlock × Call α)) (A B : Buf α) :
    (runCalls A p).isSome = (runCalls B p).isSome := by
  induction p generalizing A B with
  | nil => rfl
  | cons e p ih =>
    have h := Call.exec_isSome A B e.1.toMat e.2
    simp only [runCalls]
    cases hA : e.2.exec A e.1.toMat <;> cases hB : e.2.exec B e.1.toMat <;>
      simp only [hA, hB, Option.isSome_none, Option.isSome_some, Option.none_bind,
        Option.some_bind, Bool.false_eq_true, Bool.true_eq_false] at h ⊢
    exact ih _ _

section Runs

variable {p : List (FitBlock × Call α)} (hw : ∀ e ∈ p, e.2.NoWrap)
include hw

/-- A run changes no offset outside its targets. -/
theorem runCalls_eq_of_not_targets {A A' : Buf α} (h : runCalls A p = some A') {x : Nat}
    (hx : ¬ Targets p x) : A' x = A x := by
  induction p generalizing A with
  | nil => cases h; rfl
  | cons e p ih =>
    obtain ⟨A₁, h₁, h₂⟩ := runCalls_cons_eq_some.1 h
    rw [targets_cons, not_or] at hx
    rw [ih (fun e' he' => hw e' (.tail _ he')) h₂ hx.2,
      Call.exec_onlyWrites A e.1 (hw e (.head _)) h₁ x hx.1]

/-- **A run writes only its targets.**  A program of calls without `size_t` overflow that
passes all its assertions changes no offset outside the blocks it targets.  When every
target is a view of one owning matrix `P`, it changes nothing outside `P`. -/
theorem runCalls_frame {A A' : Buf α} (h : runCalls A p = some A') :
    (∀ x, ¬ Targets p x → A' x = A x) ∧
    ∀ P : Matrix, (∀ e ∈ p, ∃ R C, ViewOf P.toMat e.1.toMat R C) →
      ∀ x, ¬ P.toMat.IsCell x → A' x = A x := by
  refine ⟨fun x => runCalls_eq_of_not_targets hw h,
    fun P hv x hx => runCalls_eq_of_not_targets hw h fun ⟨e, he, hc⟩ => hx ?_⟩
  obtain ⟨R, C, hRC⟩ := hv e he
  exact hRC.isCell hc

/-- Two runs of one program whose calls read no cell of their own targets, from data spaces
that agree on its targets and its sources, agree on its targets at the end. -/
theorem runCalls_local (hra : ReadsApart p) {A B A' B' : Buf α}
    (hAB : ∀ x, Targets p x ∨ Reads p x → A x = B x)
    (hA : runCalls A p = some A') (hB : runCalls B p = some B') :
    ∀ x, Targets p x → A' x = B' x := by
  induction p generalizing A B with
  | nil => exact fun _ ⟨_, he, _⟩ => absurd he (List.not_mem_nil _)
  | cons e p ih =>
    obtain ⟨A₁, hA₁, hA₂⟩ := runCalls_cons_eq_some.1 hA
    obtain ⟨B₁, hB₁, hB₂⟩ := runCalls_cons_eq_some.1 hB
    have hw₁ := hw e (.head _)
    have hsep := hra e (.head _)
    have hwp : ∀ e' ∈ p, e'.2.NoWrap := fun e' he' => hw e' (.tail _ he')
    -- after the first call the two data spaces still agree on the targets and the sources
    have step : ∀ x, Targets (e :: p) x ∨ Reads (e :: p) x → A₁ x = B₁ x := by
      intro x hx
      by_cases hc : e.1.IsCell x
      · obtain ⟨i, j, hi, hj, rfl⟩ := hc
        rw [Call.exec_sim A A e.1 hw₁ (fun _ _ => rfl) hsep hA₁ (f := e.1.toMat.get A)
          (fun _ _ _ _ => rfl) hi hj, Call.exec_sim B A e.1 hw₁
          (fun x hx => (hAB x (.inr (reads_cons.2 (.inl hx)))).symm) hsep hB₁
          (f := e.1.toMat.get A)
          (fun i j hi hj => (hAB _ (.inl (targets_cons.2 (.inl ⟨i, j, hi, hj, rfl⟩)))).symm) hi hj]
      · rw [Call.exec_onlyWrites A e.1 hw₁ hA₁ x hc, Call.exec_onlyWrites B e.1 hw₁ hB₁ x hc]
        exact hAB x hx
    intro x hx
    by_cases hp : Targets p x
    · exact ih hwp (fun e' he' => hra e' (.tail _ he'))
        (fun y hy => step y (hy.imp (targets_cons.2 ∘ .inr) (reads_cons.2 ∘ .inr))) hA₂ hB₂ x hp
    · rw [runCalls_eq_of_not_targets hwp hA₂ hp, runCalls_eq_of_not_targets hwp hB₂ hp]
      exact step x (.inl hx)

end Runs

/-- `set_identity` on an owning `2 × 2` matrix: a program that passes its assertions. -/
theorem setIdentity_run_frame :
    ∃ A', runCalls (fun _ => (0 : Int))
        [(Matrix.toFitBlock ⟨2, 2⟩ (by decide), .setIdentity)] = some A' ∧
      (∀ x, ¬ Targets [(Matrix.toFitBlock ⟨2, 2⟩ (by decide), (.setIdentity : Call Int))] x →
        A' x = 0) ∧
      ∀ P : Matrix, (∀ e ∈ [(Matrix.toFitBlock ⟨2, 2⟩ (by decide), (.setIdentity : Call Int))],
        ∃ R C, ViewOf P.toMat e.1.toMat R C) → ∀ x, ¬ P.toMat.IsCell x → A' x = 0 := by
  obtain ⟨A', h⟩ : ∃ A', runCalls (fun _ => (0 : Int))
      [(Matrix.toFitBlock ⟨2, 2⟩ (by decide), .setIdentity)] = some A' := by exact ⟨_, rfl⟩
  exact ⟨A', h, runCalls_frame (by exact List.forall_mem_singleton.2 trivial) h⟩

/-- Two programs whose targets share no cell, neither reading a cell the other writes,
commute: run one after the other in either order, both fail or both leave the same data
space. -/
theorem runCalls_append_comm {p q : List (FitBlock × Call α)}
    (hwp : ∀ e ∈ p, e.2.NoWrap) (hwq : ∀ e ∈ q, e.2.NoWrap) (hd : ∀ x, Targets p x → ¬ Targets q x)
    (hs : SourcesApart (p ++ q)) (A : Buf α) : runCalls A (p ++ q) = runCalls A (q ++ p) := by
  have hrp : ReadsApart p := fun e he => hs.readsApart e (List.mem_append_left q he)
  have hrq : ReadsApart q := fun e he => hs.readsApart e (List.mem_append_right p he)
  have hpq : ∀ x, Reads p x → ¬ Targets q x := fun x hx hq =>
    hs x (reads_append.2 (.inl hx)) (targets_append.2 (.inr hq))
  have hqp : ∀ x, Reads q x → ¬ Targets p x := fun x hx hp =>
    hs x (reads_append.2 (.inr hx)) (targets_append.2 (.inl hp))
  have fails {r : List (FitBlock × Call α)} (h : runCalls A r = none) (B : Buf α) :
      runCalls B r = none := by
    rw [← Option.not_isSome_iff_eq_none, runCalls_isSome r B A, h]
    exact Bool.false_ne_true
  have succeeds {r : List (FitBlock × Call α)} {A₁ : Buf α} (h : runCalls A r = some A₁)
      (B : Buf α) : ∃ B₁, runCalls B r = some B₁ :=
    Option.isSome_iff_exists.1 (by rw [runCalls_isSome r B A, h]; rfl)
  rw [runCalls_append, runCalls_append]
  cases hp : runCalls A p with
  | none => cases runCalls A q <;> simp only [Option.none_bind, Option.some_bind, fails hp]
  | some Ap =>
    cases hq : runCalls A q with
    | none => simp only [Option.none_bind, Option.some_bind, fails hq]
    | some Aq =>
      obtain ⟨Apq, hApq⟩ := succeeds hq Ap
      obtain ⟨Aqp, hAqp⟩ := succeeds hp Aq
      simp only [Option.some_bind, hApq, hAqp, Option.some.injEq]
      funext x
      by_cases hxp : Targets p x
      · -- only the first program writes here
        rw [runCalls_eq_of_not_targets hwq hApq (hd x hxp)]
        exact runCalls_local hwp hrp (fun y hy => (runCalls_eq_of_not_targets hwq hq
          (hy.elim (hd y) (hpq y))).symm) hp hAqp x hxp
      by_cases hxq : Targets q x
      · -- only the second program writes here
        rw [runCalls_eq_of_not_targets hwp hAqp fun h => hd x h hxq]
        exact runCalls_local hwq hrq (fun y hy => runCalls_eq_of_not_targets hwp hp
          (hy.elim (fun h h' => hd y h' h) (hqp y))) hApq hq x hxq
      · rw [runCalls_eq_of_not_targets hwq hApq hxq, runCalls_eq_of_not_targets hwp hp hxp,
          runCalls_eq_of_not_targets hwp hAqp hxp, runCalls_eq_of_not_targets hwq hq hxq]

/-- **Separation.**  Programs of calls without `size_t` overflow on two views of one owning
matrix whose blocks lie apart, in rows or in columns, and whose calls read no cell either
program writes, commute: run one after the other in either order, both fail or both leave
the same data space. -/
theorem views_commute {P : Matrix} {V W : FitBlock} {R C R' C' : Nat}
    (hV : ViewOf P.toMat V.toMat R C) (hW : ViewOf P.toMat W.toMat R' C')
    (hd : R + V.rows ≤ R' ∨ R' + W.rows ≤ R ∨ C + V.cols ≤ C' ∨ C' + W.cols ≤ C)
    {cs ds : List (Call α)} (hwc : ∀ c ∈ cs, c.NoWrap) (hwd : ∀ d ∈ ds, d.NoWrap)
    (hs : SourcesApart ((cs.map fun c => (V, c)) ++ ds.map fun d => (W, d))) (A : Buf α) :
    runCalls A ((cs.map fun c => (V, c)) ++ ds.map fun d => (W, d)) =
      runCalls A ((ds.map fun d => (W, d)) ++ cs.map fun c => (V, c)) :=
  runCalls_append_comm (List.forall_mem_map.2 hwc) (List.forall_mem_map.2 hwd)
    (fun _ hx hx' => hV.not_isCell_of_apart hW hd (isCell_of_targets_map hx)
      (isCell_of_targets_map hx')) hs A

/-- Columns 0 and 1 of an owning `2 × 2` matrix, as views: copying the `1 × 1` matrix stored
after it into the first and negating the second commute. -/
theorem columns_commute :
    runCalls (fun x => (x : Int))
        (([Call.colCopy ⟨⟨⟨4, 2, 1, 2⟩, le_rfl⟩, by decide⟩ 0 0].map fun c =>
          ((⟨⟨⟨0, 2, 1, 2⟩, by decide⟩, by decide⟩ : FitBlock), c)) ++
          [Call.negate].map fun d => ((⟨⟨⟨2, 2, 1, 2⟩, by decide⟩, by decide⟩ : FitBlock), d)) =
      runCalls (fun x => (x : Int))
        (([Call.negate].map fun d => ((⟨⟨⟨2, 2, 1, 2⟩, by decide⟩, by decide⟩ : FitBlock), d)) ++
          [Call.colCopy ⟨⟨⟨4, 2, 1, 2⟩, le_rfl⟩, by decide⟩ 0 0].map fun c =>
            ((⟨⟨⟨0, 2, 1, 2⟩, by decide⟩, by decide⟩ : FitBlock), c)) := by
  have hV : ViewOf (Matrix.toMat ⟨2, 2⟩) ⟨0, 2, 1, 2⟩ 0 0 :=
    .view .refl (rfl : matrixView (Matrix.toMat ⟨2, 2⟩) 0 0 2 1 = some ⟨0, 2, 1, 2⟩)
      (by decide) (by decide)
  have hW : ViewOf (Matrix.toMat ⟨2, 2⟩) ⟨2, 2, 1, 2⟩ 0 1 :=
    .view .refl (rfl : matrixView (Matrix.toMat ⟨2, 2⟩) 0 1 2 1 = some ⟨2, 2, 1, 2⟩)
      (by decide) (by decide)
  refine views_commute hV hW (by decide) (by exact List.forall_mem_singleton.2 trivial)
    (by exact List.forall_mem_singleton.2 trivial) ?_ _
  -- the copied matrix lies at offsets `4, 5`, past both columns
  rintro x ⟨e, he, hx⟩ ⟨e', he', i', j', hi', hj', hx'⟩
  simp only [List.map_cons, List.map_nil, List.singleton_append, List.mem_cons,
    List.not_mem_nil, or_false] at he he'
  rcases he with rfl | rfl
  · obtain ⟨i, j, hi, hj, rfl⟩ := hx
    rcases he' with rfl | rfl <;> simp only [Mat.addr] at hi hj hi' hj' hx' <;> omega
  · simp [Call.Reads, Call.source] at hx

/-! ## Refinement -/

/-- The abstract program: the effects of the calls, in order, on a `rows × cols` matrix,
their sources read from `S`. -/
def effects (S : Buf α) (rows cols : Nat) (cs : List (Call α)) (f : Nat → Nat → α) :
    Nat → Nat → α :=
  cs.foldl (fun f c => c.effect S rows cols f) f

/-- A run of calls on one block whose sources lie outside it, from any matrix the block
holds and any data space `S` that holds the sources. -/
theorem runCalls_sim (S : Buf α) (V : FitBlock) {cs : List (Call α)} (hw : ∀ c ∈ cs, c.NoWrap)
    (hsep : ∀ c ∈ cs, ∀ x, c.Reads x → ¬ V.IsCell x) {A A' : Buf α}
    (hS : ∀ c ∈ cs, ∀ x, c.Reads x → A x = S x)
    (h : runCalls A (cs.map fun c => (V, c)) = some A') {f : Nat → Nat → α}
    (hf : ∀ i j, i < V.rows → j < V.cols → A (V.addr i j) = f i j) :
    (∀ i j, i < V.rows → j < V.cols → A' (V.addr i j) = effects S V.rows V.cols cs f i j) ∧
      V.OnlyWrites A A' := by
  induction cs generalizing A f with
  | nil =>
    cases h
    exact ⟨hf, fun _ _ => rfl⟩
  | cons c cs ih =>
    obtain ⟨A₁, h₁, h₂⟩ := runCalls_cons_eq_some.1 h
    have hw₁ := hw c (.head _)
    have hframe := Call.exec_onlyWrites A V hw₁ h₁
    obtain ⟨hcell, hframe'⟩ := ih (fun c' hc' => hw c' (.tail _ hc'))
      (fun c' hc' => hsep c' (.tail _ hc'))
      (fun c' hc' x hx => (hframe x (hsep c' (.tail _ hc') x hx)).trans (hS c' (.tail _ hc') x hx))
      h₂ fun i j hi hj => Call.exec_sim A S V hw₁ (hS c (.head _)) (hsep c (.head _)) h₁ hf hi hj
    exact ⟨hcell, hframe.trans hframe'⟩

/-- **Refinement.**  For every block and every program of calls on it without `size_t`
overflow whose sources lie outside the block, a run that passes all its assertions leaves
in the block the matrix the abstract program of the calls' effects computes from the data
space it started from, and changes nothing outside the block. -/
theorem runCalls_refines (A : Buf α) (V : FitBlock) {cs : List (Call α)}
    (hw : ∀ c ∈ cs, c.NoWrap) (hsep : ∀ c ∈ cs, ∀ x, c.Reads x → ¬ V.IsCell x) {A' : Buf α}
    (h : runCalls A (cs.map fun c => (V, c)) = some A') :
    (∀ i j, i < V.rows → j < V.cols →
      A' (V.addr i j) = effects A V.rows V.cols cs (V.toMat.get A) i j) ∧ V.OnlyWrites A A' :=
  runCalls_sim A V hw hsep (fun _ _ _ _ => rfl) h fun _ _ _ _ => rfl

/-- The assignment of the `2 × 2` matrix stored after an owning `2 × 2` matrix into it,
then `transpose`. -/
theorem assign_transpose_refines :
    ∃ A', runCalls (fun x => (x : Int))
        ([Call.assign ⟨⟨⟨4, 2, 2, 2⟩, le_rfl⟩, by decide⟩, Call.transpose].map fun c =>
          (Matrix.toFitBlock ⟨2, 2⟩ (by decide), c)) = some A' ∧
      (∀ i j, i < 2 → j < 2 → A' ((Matrix.toFitBlock ⟨2, 2⟩ (by decide)).addr i j) =
        effects (fun x => (x : Int)) 2 2
          [Call.assign ⟨⟨⟨4, 2, 2, 2⟩, le_rfl⟩, by decide⟩, Call.transpose]
          ((Matrix.toMat ⟨2, 2⟩).get fun x => (x : Int)) i j) ∧
      (Matrix.toMat ⟨2, 2⟩).OnlyWrites (fun x => (x : Int)) A' := by
  obtain ⟨A', h⟩ : ∃ A', runCalls (fun x => (x : Int))
      ([Call.assign ⟨⟨⟨4, 2, 2, 2⟩, le_rfl⟩, by decide⟩, Call.transpose].map fun c =>
        (Matrix.toFitBlock ⟨2, 2⟩ (by decide), c)) = some A' := by exact ⟨_, rfl⟩
  refine ⟨A', h, runCalls_refines _ _
    (by exact List.forall_mem_cons.2 ⟨trivial, List.forall_mem_singleton.2 trivial⟩)
    (List.forall_mem_cons.2 ⟨?_, by simp [Call.Reads, Call.source]⟩) h⟩
  -- the source lies at offsets `4` to `7`, past the target
  rintro x ⟨i, j, hi, hj, hx⟩ ⟨i', j', hi', hj', hx'⟩
  simp only [Mat.addr, Matrix.toFitBlock, Matrix.toBlock, Matrix.toMat] at hi hj hi' hj' hx hx'
  omega

/-- **Calls on a view update a submatrix.**  Seen from an owning matrix `P`, a run of calls
without `size_t` overflow on a view of `P` at offsets `(R, C)`, whose sources lie outside
the view, that passes its assertions replaces the block of `P` at `(R, C)` by what the
abstract program makes of it, keeps every other cell of `P`, and changes nothing outside
`P`. -/
theorem runCalls_on_view (A : Buf α) {P : Matrix} {V : FitBlock} {R C : Nat}
    (hV : ViewOf P.toMat V.toMat R C) {cs : List (Call α)} (hw : ∀ c ∈ cs, c.NoWrap)
    (hsep : ∀ c ∈ cs, ∀ x, c.Reads x → ¬ V.IsCell x)
    {A' : Buf α} (h : runCalls A (cs.map fun c => (V, c)) = some A') :
    (∀ I J, I < P.rows → J < P.cols → P.toMat.get A' I J =
      if R ≤ I ∧ I < R + V.rows ∧ C ≤ J ∧ J < C + V.cols then
        effects A V.rows V.cols cs (V.toMat.get A) (I - R) (J - C)
      else P.toMat.get A I J) ∧
    ∀ x, ¬ P.toMat.IsCell x → A' x = A x := by
  obtain ⟨hcell, hframe⟩ := runCalls_refines A V hw hsep h
  refine ⟨fun I J hI hJ => ?_, fun x hx => hframe x fun hc => hx (hV.isCell hc)⟩
  simp only [Mat.get_def]
  split_ifs with hin
  · have e : P.toMat.addr I J = V.addr (I - R) (J - C) := by
      rw [hV.addr_eq]
      congr 1 <;> omega
    rw [e, hcell _ _ (by omega) (by omega)]
  · exact hV.frame hframe hI hin

/-- `setAll 5` on column 1 of an owning `2 × 2` matrix, as a view. -/
theorem setAll_column_on_view :
    ∃ A', runCalls (fun _ => (0 : Int))
        ([Call.setAll 5].map fun c => ((⟨⟨⟨2, 2, 1, 2⟩, by decide⟩, by decide⟩ : FitBlock), c)) =
        some A' ∧
      (∀ I J, I < 2 → J < 2 → (Matrix.toMat ⟨2, 2⟩).get A' I J =
        if 0 ≤ I ∧ I < 0 + 2 ∧ 1 ≤ J ∧ J < 1 + 1 then
          effects (fun _ => 0) 2 1 [Call.setAll 5]
            (Mat.get (fun _ => 0) ⟨2, 2, 1, 2⟩) (I - 0) (J - 1)
        else (Matrix.toMat ⟨2, 2⟩).get (fun _ => 0) I J) ∧
      ∀ x, ¬ (Matrix.toMat ⟨2, 2⟩).IsCell x → A' x = 0 := by
  have hV : ViewOf (Matrix.toMat ⟨2, 2⟩) ⟨2, 2, 1, 2⟩ 0 1 :=
    .view .refl (rfl : matrixView (Matrix.toMat ⟨2, 2⟩) 0 1 2 1 = some ⟨2, 2, 1, 2⟩)
      (by decide) (by decide)
  obtain ⟨A', h⟩ : ∃ A', runCalls (fun _ => (0 : Int))
      ([Call.setAll 5].map fun c => ((⟨⟨⟨2, 2, 1, 2⟩, by decide⟩, by decide⟩ : FitBlock), c)) =
        some A' :=
    ⟨MatrixView.setAll (fun _ => 0) ⟨2, 2, 1, 2⟩ 5, rfl⟩
  exact ⟨A', h, runCalls_on_view _ (V := ⟨⟨_, by decide⟩, by decide⟩) hV
    (by exact List.forall_mem_singleton.2 trivial)
    (by simp [Call.Reads, Call.source]) h⟩

/-! ## Calls run twice -/

namespace Call

/-- The calls whose effect computes the cells it writes from the sources alone, or from
cells it does not write: every call but the in-place `transpose` and the arithmetic. -/
def Overwrites : Call α → Prop
  | transpose | add _ | addScalar _ | sub _ | subScalar _ | negate => False
  | _ => True

/-- The effect of an overwriting call, applied twice, is applied once. -/
theorem effect_effect (S : Buf α) (rows cols : Nat) {c : Call α} (hc : c.Overwrites)
    (f : Nat → Nat → α) (i j : Nat) :
    c.effect S rows cols (c.effect S rows cols f) i j = c.effect S rows cols f i j := by
  cases c
  case transpose | add | addScalar | sub | subScalar | negate => exact hc.elim
  case copyUpperToLower =>
    simp only [effect]
    split_ifs <;> first | rfl | omega |
      rw [min_eq_left min_le_max, max_eq_right min_le_max]
  case copyLowerToUpper =>
    simp only [effect]
    split_ifs <;> first | rfl | omega |
      rw [max_eq_left min_le_max, min_eq_right min_le_max]
  case reorderColumnsByVectors | reorderRowsByVectors | assignByVectors =>
    exact assignAt_assignAt ..
  case colCopy | colCopyRange | rowCopy | colSet =>
    simp only [effect]
    split_ifs <;> rfl
  all_goals rfl

end Call

/-- **Running an overwriting call twice is running it once.**  For every block and every
call without `size_t` overflow other than the in-place `transpose` and the arithmetic,
whose source lies outside the block, the program that makes the call twice in a row fails
when the call alone fails and otherwise leaves the same data space. -/
theorem runCalls_rerun (A : Buf α) (V : FitBlock) {c : Call α} (hc : c.Overwrites)
    (hw : c.NoWrap) (hsep : ∀ x, c.Reads x → ¬ V.IsCell x) :
    runCalls A [(V, c), (V, c)] = runCalls A [(V, c)] := by
  simp only [runCalls, Option.bind_some]
  cases h₁ : c.exec A V.toMat with
  | none => rfl
  | some A₁ =>
    obtain ⟨A₂, h₂⟩ := Option.isSome_iff_exists.1
      (by rw [Call.exec_isSome A₁ A V.toMat c, h₁]; rfl)
    have hframe := Call.exec_onlyWrites A V hw h₁
    have hA₁ := fun i j (hi : i < V.rows) (hj : j < V.cols) =>
      Call.exec_apply A A V hw (fun _ _ => rfl) hsep h₁ hi hj
    simp only [Option.some_bind, h₂, Option.some.injEq]
    funext x
    by_cases hx : V.IsCell x
    · obtain ⟨i, j, hi, hj, rfl⟩ := hx
      rw [Call.exec_sim A₁ A V hw (fun x hx => hframe x (hsep x hx)) hsep h₂ hA₁ hi hj,
        Call.effect_effect A _ _ hc, hA₁ i j hi hj]
    · exact Call.exec_onlyWrites A₁ V hw h₂ x hx

/-- `col_set` of a whole column of an owning `2 × 2` matrix, twice. -/
theorem colSet_rerun :
    runCalls (fun _ => (0 : Int)) [(Matrix.toFitBlock ⟨2, 2⟩ (by decide), .colSet 0 0 2 7),
        (Matrix.toFitBlock ⟨2, 2⟩ (by decide), .colSet 0 0 2 7)] =
      runCalls (fun _ => (0 : Int)) [(Matrix.toFitBlock ⟨2, 2⟩ (by decide), .colSet 0 0 2 7)] :=
  runCalls_rerun _ _ trivial (by decide : 0 + 2 < 2 ^ 64) (by simp [Call.Reads, Call.source])

end Programs

/-! ## Calls that undo each other -/

namespace Call

/-- `UndoneBy c c'`: the call `c'` undoes `c`.  `transpose` undoes itself, and so does
`negate` over scalars whose negation is an involution, as that of IEEE doubles is. -/
inductive UndoneBy : Call α → Call α → Prop
  | transpose_transpose : UndoneBy transpose transpose
  | negate_negate : UndoneBy negate negate

theorem UndoneBy.noWrap {c c' : Call α} (h : c.UndoneBy c') : c.NoWrap ∧ c'.NoWrap := by
  cases h <;> exact ⟨trivial, trivial⟩

theorem UndoneBy.not_reads {c c' : Call α} (h : c.UndoneBy c') (x : Nat) :
    ¬ c.Reads x ∧ ¬ c'.Reads x := by
  cases h <;> simp [Reads, source]

variable [Add α] [Sub α] [Mul α] [One α] [Zero α] [InvolutiveNeg α]

/-- The undoing call passes its assertions after the call it undoes. -/
theorem UndoneBy.exec_isSome {A A₁ : Buf α} {V : Mat} {c c' : Call α} (hu : c.UndoneBy c')
    (h : c.exec A V = some A₁) : ∃ A₂, c'.exec A₁ V = some A₂ := by
  cases hu with
  | transpose_transpose => exact ⟨_, if_pos (exec_square h rfl)⟩
  | negate_negate => exact ⟨_, rfl⟩

theorem UndoneBy.effect_effect (S : Buf α) (rows cols : Nat) {c c' : Call α}
    (hu : c.UndoneBy c') (f : Nat → Nat → α) (i j : Nat) :
    c'.effect S rows cols (c.effect S rows cols f) i j = f i j := by
  cases hu with
  | transpose_transpose => rfl
  | negate_negate => exact neg_neg _

end Call

/-- **Calls that undo each other.**  On every block: `transpose` twice, and `negate` twice
over scalars whose negation is an involution, fail exactly when the first call fails, and
otherwise give back the data space they started from. -/
theorem runCalls_undo [Add α] [Sub α] [Mul α] [One α] [Zero α] [InvolutiveNeg α] (A : Buf α)
    (V : FitBlock) {c c' : Call α} (hu : c.UndoneBy c') :
    runCalls A [(V, c), (V, c')] = (c.exec A V.toMat).map fun _ => A := by
  simp only [runCalls, Option.bind_some]
  cases h₁ : c.exec A V.toMat with
  | none => rfl
  | some A₁ =>
    obtain ⟨A₂, h₂⟩ := hu.exec_isSome h₁
    have hA₁ := fun i j (hi : i < V.rows) (hj : j < V.cols) => Call.exec_apply A A V hu.noWrap.1
      (fun x h => ((hu.not_reads x).1 h).elim) (fun x h => ((hu.not_reads x).1 h).elim) h₁ hi hj
    simp only [Option.some_bind, Option.map_some', h₂, Option.some.injEq]
    funext x
    by_cases hx : V.IsCell x
    · obtain ⟨i, j, hi, hj, rfl⟩ := hx
      rw [Call.exec_sim A₁ A V hu.noWrap.2 (fun x h => ((hu.not_reads x).2 h).elim)
        (fun x h => ((hu.not_reads x).2 h).elim) h₂ hA₁ hi hj, hu.effect_effect]
      rfl
    · rw [Call.exec_onlyWrites A₁ V hu.noWrap.2 h₂ x hx,
        Call.exec_onlyWrites A V hu.noWrap.1 h₁ x hx]

/-- `transpose` twice on an owning `2 × 2` matrix. -/
theorem transpose_twice_undo :
    runCalls (fun x => (x : Int))
        [(Matrix.toFitBlock ⟨2, 2⟩ (by decide), .transpose),
          (Matrix.toFitBlock ⟨2, 2⟩ (by decide), .transpose)] =
      (Call.transpose.exec (fun x => (x : Int)) (Matrix.toMat ⟨2, 2⟩)).map
        fun _ (x : Nat) => (x : Int) :=
  runCalls_undo _ _ .transpose_transpose

end Dynare
