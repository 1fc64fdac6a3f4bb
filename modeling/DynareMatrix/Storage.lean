/-
# Storage: data spaces, write logs and `size_t` arithmetic

The matrix classes of `DynareBison.hh` reach their elements through raw `double *`
pointers into a column-major data space.  A data space is modelled as a function from
element offsets to scalars, and a pointer as an offset into it.

The bulk primitives the classes call (`memcpy`, `std::fill_n`) and every loop that stores
values read from another data space are a write log replayed in order (`store`).  The
lemmas of this module read such a log back without unfolding it: a stored offset that is
stored once holds its value, an offset the log never names keeps its old value, and two
logs that touch disjoint offsets commute, so two nested loops of stores may be interchanged
when different outer iterations store to different offsets (`store_flatMap_comm`).  Loops
that rewrite a cell from its own value (`*pp += d`) are `updateEach`, read back the same way
when they visit each offset once.

Sizes are `size_t`.  Where a bounds check adds or multiplies sizes a caller supplies, the
model wraps the result modulo `2^64` as the machine does (`sizeAdd`, `sizeMul`); offsets
into an allocated data space stay below its size and are taken in ℕ.
-/
import Mathlib.Data.List.Nodup
import Mathlib.Data.List.Range
import Mathlib.Order.MinMax
import Mathlib.Algebra.Group.Nat.Basic

namespace Dynare

/-! ## Scalars -/

/-- `fabs` from `<cmath>`, the one library function on `double` the matrix layer calls;
the model leaves it, like the arithmetic, uninterpreted. -/
class FAbs (α : Type) where
  fabs : α → α

export FAbs (fabs)

instance : FAbs Int := ⟨fun x => (x.natAbs : Int)⟩

/-! ## `size_t` arithmetic -/

/-- `a + b` in `size_t`. -/
def sizeAdd (a b : Nat) : Nat := (a + b) % 2 ^ 64

/-- `a * b` in `size_t`. -/
def sizeMul (a b : Nat) : Nat := (a * b) % 2 ^ 64

theorem sizeAdd_of_lt {a b : Nat} (h : a + b < 2 ^ 64) : sizeAdd a b = a + b :=
  Nat.mod_eq_of_lt h

theorem sizeMul_of_lt {a b : Nat} (h : a * b < 2 ^ 64) : sizeMul a b = a * b :=
  Nat.mod_eq_of_lt h

theorem pos_of_sizeMul_pos {x y : Nat} (h : 0 < sizeMul x y) : 0 < x ∧ 0 < y := by
  unfold sizeMul at h
  refine ⟨Nat.pos_of_ne_zero fun hx => ?_, Nat.pos_of_ne_zero fun hy => ?_⟩ <;> simp_all

/-! ## Write logs -/

/-- A data space: the scalar stored at every element offset. -/
abbrev Buf (α : Type) := Nat → α

variable {α ι : Type}

/-- Replays the stores `*p = v` of a write log, in order. -/
def store (A : Buf α) (ws : List (Nat × α)) : Buf α :=
  ws.foldl (fun A w => Function.update A w.1 w.2) A

@[simp] theorem store_nil (A : Buf α) : store A [] = A := rfl

@[simp] theorem store_cons (A : Buf α) (w : Nat × α) (ws : List (Nat × α)) :
    store A (w :: ws) = store (Function.update A w.1 w.2) ws := rfl

@[simp] theorem store_append (A : Buf α) (ws₁ ws₂ : List (Nat × α)) :
    store A (ws₁ ++ ws₂) = store (store A ws₁) ws₂ :=
  List.foldl_append _ _ _ _

/-- An offset the log never names keeps its value. -/
theorem store_apply_of_not_mem {A : Buf α} {ws : List (Nat × α)} {x : Nat}
    (h : ∀ w ∈ ws, w.1 ≠ x) : store A ws x = A x := by
  induction ws generalizing A with
  | nil => rfl
  | cons w ws ih =>
    rw [store_cons, ih fun w' hw' => h w' (List.mem_cons_of_mem _ hw'),
      Function.update_noteq (h w (List.mem_cons_self _ _)).symm]

/-- What a log leaves at `x` depends on the old contents only at `x`, and only when the
log never stores to `x`. -/
theorem store_apply_congr {A B : Buf α} {ws : List (Nat × α)} {x : Nat}
    (h : (∀ w ∈ ws, w.1 ≠ x) → A x = B x) : store A ws x = store B ws x := by
  induction ws generalizing A B with
  | nil => exact h fun _ hw => absurd hw (List.not_mem_nil _)
  | cons w ws ih =>
    refine ih fun hx => ?_
    simp only [Function.update_apply]
    split_ifs with hw
    · rfl
    · exact h fun w' hw' => by
        rcases List.mem_cons.1 hw' with rfl | hw'
        · exact Ne.symm hw
        · exact hx w' hw'

/-- Logs that store to disjoint offsets commute. -/
theorem store_append_comm (A : Buf α) {ws₁ ws₂ : List (Nat × α)}
    (h : ∀ w₁ ∈ ws₁, ∀ w₂ ∈ ws₂, w₁.1 ≠ w₂.1) :
    store A (ws₁ ++ ws₂) = store A (ws₂ ++ ws₁) := by
  funext x
  simp only [store_append]
  by_cases hx : ∀ w ∈ ws₂, w.1 ≠ x
  · rw [store_apply_of_not_mem hx]
    exact store_apply_congr fun _ => (store_apply_of_not_mem hx).symm
  · push_neg at hx
    obtain ⟨w₂, hw₂, rfl⟩ := hx
    rw [store_apply_of_not_mem fun w₁ hw₁ => h w₁ hw₁ w₂ hw₂]
    exact store_apply_congr fun hx => absurd rfl (hx w₂ hw₂)

/-- Pulling the first store of each iteration of an outer loop to the front, past the later
stores of the earlier iterations, which go elsewhere. -/
theorem store_flatMap_cons {β γ : Type} (A : Buf α) {l₁ : List β} (c : γ) (l₂ : List γ)
    (w : β → γ → Nat × α) (hnd : l₁.Nodup)
    (hw : ∀ b ∈ l₁, ∀ b' ∈ l₁, b ≠ b' → ∀ c' ∈ l₂, (w b c').1 ≠ (w b' c).1) :
    store A (l₁.flatMap fun b => w b c :: l₂.map (w b)) =
      store (store A (l₁.map fun b => w b c)) (l₁.flatMap fun b => l₂.map (w b)) := by
  induction l₁ generalizing A with
  | nil => rfl
  | cons b l₁ ih =>
    obtain ⟨hb, hnd⟩ := List.nodup_cons.1 hnd
    have hdisj : ∀ x ∈ l₂.map (w b), ∀ y ∈ l₁.map fun b' => w b' c, x.1 ≠ y.1 := by
      simp only [List.mem_map]
      rintro _ ⟨c', hc', rfl⟩ _ ⟨b', hb', rfl⟩
      exact hw b (List.mem_cons_self _ _) b' (List.mem_cons_of_mem _ hb')
        (fun h => hb (h ▸ hb')) c' hc'
    have key : store (store A (w b c :: l₂.map (w b))) (l₁.map fun b => w b c) =
        store (store A (w b c :: l₁.map fun b => w b c)) (l₂.map (w b)) := by
      simp only [store_cons, ← store_append]
      exact store_append_comm _ hdisj
    rw [List.flatMap_cons, store_append, ih _ hnd fun b hb b' hb' =>
      hw b (List.mem_cons_of_mem _ hb) b' (List.mem_cons_of_mem _ hb'), key, List.map_cons,
      List.flatMap_cons, store_append]

/-- **Loop interchange.**  Two nested loops of stores may be swapped when the stores of
different outer iterations go to different offsets. -/
theorem store_flatMap_comm {β γ : Type} (A : Buf α) {l₁ : List β} (l₂ : List γ)
    (w : β → γ → Nat × α) (hnd : l₁.Nodup)
    (hw : ∀ b ∈ l₁, ∀ b' ∈ l₁, b ≠ b' →
      ∀ c ∈ l₂, ∀ c' ∈ l₂, (w b c).1 ≠ (w b' c').1) :
    store A (l₁.flatMap fun b => l₂.map (w b)) =
      store A (l₂.flatMap fun c => l₁.map fun b => w b c) := by
  induction l₂ generalizing A with
  | nil => rw [List.flatMap_eq_nil_iff.2 fun _ _ => List.map_nil]; rfl
  | cons c l₂ ih =>
    simp only [List.map_cons]
    rw [store_flatMap_cons A c l₂ w hnd fun b hb b' hb' hne c' hc' =>
        hw b hb b' hb' hne c' (List.mem_cons_of_mem _ hc') c (List.mem_cons_self _ _),
      ih _ fun b hb b' hb' hne c₁ hc₁ c₂ hc₂ =>
        hw b hb b' hb' hne c₁ (List.mem_cons_of_mem _ hc₁) c₂ (List.mem_cons_of_mem _ hc₂),
      List.flatMap_cons, store_append]

/-- A store whose offset the log names only once is read back. -/
theorem store_apply_of_mem {A : Buf α} {ws : List (Nat × α)} {w : Nat × α}
    (hnd : (ws.map Prod.fst).Nodup) (hw : w ∈ ws) : store A ws w.1 = w.2 := by
  obtain ⟨s, t, rfl⟩ := List.mem_iff_append.1 hw
  have hlast : ∀ w' ∈ t, w'.1 ≠ w.1 := by
    simp only [List.map_append, List.map_cons, List.nodup_append, List.nodup_cons] at hnd
    exact fun w' hw' he => hnd.2.1.1 (he ▸ List.mem_map_of_mem _ hw')
  rw [store_append, store_cons, store_apply_of_not_mem hlast, Function.update_same]

/-- A log that stores `f k` at `d + k` for each `k < n`, read at any offset. -/
theorem store_range_apply (A : Buf α) (d n : Nat) (f : Nat → α) (x : Nat) :
    store A ((List.range n).map fun k => (d + k, f k)) x =
      if d ≤ x ∧ x < d + n then f (x - d) else A x := by
  split_ifs with hx
  · have hnd : (((List.range n).map fun k => (d + k, f k)).map Prod.fst).Nodup := by
      rw [List.map_map]
      exact (List.nodup_range n).map fun a b h => by simpa using h
    have hmem : (d + (x - d), f (x - d)) ∈ (List.range n).map fun k => (d + k, f k) :=
      List.mem_map.2 ⟨x - d, List.mem_range.2 (by omega), rfl⟩
    have := store_apply_of_mem (A := A) hnd hmem
    rwa [Nat.add_sub_cancel' hx.1] at this
  · refine store_apply_of_not_mem fun w hw => ?_
    obtain ⟨k, hk, rfl⟩ := List.mem_map.1 hw
    have := List.mem_range.1 hk
    dsimp only
    omega

/-! ## The last write wins -/

/-- The last `k < n` with `p k`: the iteration of a loop over `k < n` that acts last on
what `p` selects. -/
def lastWhere (p : Nat → Prop) [DecidablePred p] : Nat → Option Nat
  | 0 => none
  | n + 1 => if p n then some n else lastWhere p n

theorem lastWhere_congr {p q : Nat → Prop} [DecidablePred p] [DecidablePred q] {n : Nat}
    (h : ∀ k < n, (p k ↔ q k)) : lastWhere p n = lastWhere q n := by
  induction n with
  | zero => rfl
  | succ n ih =>
    rw [lastWhere, lastWhere, if_congr (h n (by omega)) rfl rfl,
      ih fun k hk => h k (by omega)]

theorem lastWhere_eq_none {p : Nat → Prop} [DecidablePred p] {n : Nat}
    (h : ∀ k < n, ¬ p k) : lastWhere p n = none := by
  induction n with
  | zero => rfl
  | succ n ih => rw [lastWhere, if_neg (h n (by omega)), ih fun k hk => h k (by omega)]

/-- **The last write wins.**  A log with one entry per `k < n`, in order, leaves at `x`
the value of the last entry that names `x`, and the old value when none does. -/
theorem store_range_map_apply (A : Buf α) (n : Nat) (w : Nat → Nat × α) (x : Nat) :
    store A ((List.range n).map w) x =
      ((lastWhere (fun k => (w k).1 = x) n).map fun k => (w k).2).getD (A x) := by
  induction n with
  | zero => rfl
  | succ n ih =>
    rw [List.range_succ, List.map_append, store_append, List.map_singleton, store_cons,
      store_nil, lastWhere]
    by_cases h : (w n).1 = x
    · rw [if_pos h, ← h, Function.update_same]
      rfl
    · rw [if_neg h, Function.update_noteq (Ne.symm h), ih]

/-! ## The bulk primitives -/

/-- `std::fill_n(p, n, v)`. -/
def fillN (A : Buf α) (p n : Nat) (v : α) : Buf α :=
  store A ((List.range n).map fun k => (p + k, v))

/-- `memcpy(d, s, n * sizeof(double))`, from a data space `S` apart from the destination. -/
def memcpy (D : Buf α) (d : Nat) (S : Buf α) (s n : Nat) : Buf α :=
  store D ((List.range n).map fun k => (d + k, S (s + k)))

theorem fillN_apply (A : Buf α) (p n : Nat) (v : α) (x : Nat) :
    fillN A p n v x = if p ≤ x ∧ x < p + n then v else A x :=
  store_range_apply A p n (fun _ => v) x

theorem memcpy_apply (D : Buf α) (d : Nat) (S : Buf α) (s n x : Nat) :
    memcpy D d S s n x = if d ≤ x ∧ x < d + n then S (s + (x - d)) else D x :=
  store_range_apply D d n (fun k => S (s + k)) x

/-! ## Loops that rewrite each cell from its own value -/

/-- `for c in cs: A[addr c] = f c (A[addr c])`. -/
def updateEach (A : Buf α) (cs : List ι) (addr : ι → Nat) (f : ι → α → α) : Buf α :=
  cs.foldl (fun A c => Function.update A (addr c) (f c (A (addr c)))) A

theorem updateEach_apply_of_not_mem {A : Buf α} {cs : List ι} {addr : ι → Nat}
    {f : ι → α → α} {x : Nat} (h : ∀ c ∈ cs, addr c ≠ x) : updateEach A cs addr f x = A x := by
  induction cs generalizing A with
  | nil => rfl
  | cons c cs ih =>
    rw [updateEach, List.foldl_cons, ← updateEach,
      ih fun c' hc' => h c' (List.mem_cons_of_mem _ hc'),
      Function.update_noteq (h c (List.mem_cons_self _ _)).symm]

/-- A loop visiting each offset once leaves `f c` of the old value at the offset of `c`. -/
theorem updateEach_apply_of_mem {A : Buf α} {cs : List ι} {addr : ι → Nat}
    {f : ι → α → α} {c : ι} (hnd : (cs.map addr).Nodup) (hc : c ∈ cs) :
    updateEach A cs addr f (addr c) = f c (A (addr c)) := by
  induction cs generalizing A with
  | nil => exact absurd hc (List.not_mem_nil _)
  | cons c' cs ih =>
    rw [List.map_cons, List.nodup_cons] at hnd
    rw [updateEach, List.foldl_cons, ← updateEach]
    rcases List.mem_cons.1 hc with rfl | hc
    · rw [updateEach_apply_of_not_mem fun c'' hc'' (he : addr c'' = addr c) =>
        hnd.1 (he ▸ List.mem_map_of_mem addr hc''),
        Function.update_same]
    · have hne : addr c ≠ addr c' := fun he => hnd.1 (he ▸ List.mem_map_of_mem addr hc)
      rw [ih hnd.2 hc, Function.update_noteq hne]

/-- A loop whose every store misses `x` leaves `x` alone, whatever values it stores. -/
theorem foldl_update_apply_of_forall_ne {A : Buf α} {cs : List ι} (addr : ι → Nat)
    (val : ι → Buf α → α) {x : Nat} (h : ∀ c ∈ cs, addr c ≠ x) :
    cs.foldl (fun A c => Function.update A (addr c) (val c A)) A x = A x := by
  induction cs generalizing A with
  | nil => rfl
  | cons c cs ih =>
    rw [List.foldl_cons, ih fun c' hc' => h c' (List.mem_cons_of_mem _ hc'),
      Function.update_noteq (h c (List.mem_cons_self _ _)).symm]

/-- A loop copying offset `r c` to offset `w c` for each `c` in turn, when no offset it
writes is one it reads, stores the values of the state it started from. -/
theorem foldl_copy_eq_store {cs : List ι} (w r : ι → Nat)
    (h : ∀ c ∈ cs, ∀ c' ∈ cs, w c ≠ r c') (A : Buf α) :
    cs.foldl (fun A c => Function.update A (w c) (A (r c))) A =
      store A (cs.map fun c => (w c, A (r c))) := by
  induction cs generalizing A with
  | nil => rfl
  | cons c cs ih =>
    rw [List.foldl_cons, ih (fun a ha b hb => h a (.tail _ ha) b (.tail _ hb)), List.map_cons,
      store_cons]
    exact congrArg _ (List.map_congr_left fun c' hc' => by
      rw [Function.update_noteq (h c (.head _) c' (.tail _ hc')).symm])

/-- A loop storing at `w c` a value computed from the state, for each `c` in turn, stores
the values computed from the state it started from, when the value for `c` reads
(`R c`) no offset that another iteration writes. -/
theorem foldl_update_eq_store {cs : List ι} (hnd : cs.Nodup) (w : ι → Nat) (g : ι → Buf α → α)
    (R : ι → Nat → Prop) (hg : ∀ c ∈ cs, ∀ A B : Buf α, (∀ x, R c x → A x = B x) → g c A = g c B)
    (hR : ∀ c ∈ cs, ∀ c' ∈ cs, R c (w c') → c = c') (A : Buf α) :
    cs.foldl (fun A c => Function.update A (w c) (g c A)) A =
      store A (cs.map fun c => (w c, g c A)) := by
  induction cs generalizing A with
  | nil => rfl
  | cons c cs ih =>
    obtain ⟨hc, hnd⟩ := List.nodup_cons.1 hnd
    rw [List.foldl_cons, ih hnd (fun c' hc' => hg c' (.tail _ hc'))
      (fun a ha b hb => hR a (.tail _ ha) b (.tail _ hb)), List.map_cons, store_cons]
    refine congrArg _ (List.map_congr_left fun c' hc' => congrArg _ ?_)
    -- the earlier store at `w c` is not read by a later iteration
    refine hg c' (.tail _ hc') _ _ fun x hx => Function.update_noteq (fun he => ?_) _ _
    exact hc (hR c' (.tail _ hc') c (.head _) (he ▸ hx) ▸ hc')

/-- Two loops whose steps agree on the states an invariant describes, the second keeping
the invariant, compute the same from a state that satisfies it. -/
theorem foldl_congr_of_inv {σ β : Type} (Inv : σ → Prop) {f g : σ → β → σ} :
    ∀ (l : List β) (s : σ), Inv s → (∀ s, Inv s → ∀ x ∈ l, f s x = g s x ∧ Inv (g s x)) →
      l.foldl f s = l.foldl g s
  | [], _, _, _ => rfl
  | x :: l, s, hs, h => by
    rw [List.foldl_cons, List.foldl_cons, (h s hs x (.head _)).1]
    exact foldl_congr_of_inv Inv l _ (h s hs x (.head _)).2 fun s hs y hy => h s hs y (.tail _ hy)

/-! ## Swaps -/

/-- `std::swap(A[x], A[y])`. -/
def swap (A : Buf α) (x y : Nat) : Buf α :=
  Function.update (Function.update A x (A y)) y (A x)

theorem swap_apply_of_ne {A : Buf α} {x y z : Nat} (hx : z ≠ x) (hy : z ≠ y) :
    swap A x y z = A z := by
  rw [swap, Function.update_noteq hy, Function.update_noteq hx]

/-- A loop of swaps over pairs of offsets that are all distinct exchanges each pair and
leaves every other offset alone. -/
theorem foldl_swap_apply {A : Buf α} {ps : List ι} {f g : ι → Nat} (hnd : ps.Nodup)
    (hf : ∀ p ∈ ps, ∀ q ∈ ps, f p = f q → p = q)
    (hg : ∀ p ∈ ps, ∀ q ∈ ps, g p = g q → p = q)
    (hfg : ∀ p ∈ ps, ∀ q ∈ ps, f p ≠ g q) :
    (∀ p ∈ ps, ps.foldl (fun A p => swap A (f p) (g p)) A (f p) = A (g p) ∧
      ps.foldl (fun A p => swap A (f p) (g p)) A (g p) = A (f p)) ∧
    ∀ z, (∀ p ∈ ps, f p ≠ z ∧ g p ≠ z) →
      ps.foldl (fun A p => swap A (f p) (g p)) A z = A z := by
  induction ps generalizing A with
  | nil => exact ⟨fun p hp => absurd hp (List.not_mem_nil _), fun _ _ => rfl⟩
  | cons p ps ih =>
    have hp := List.mem_cons_self p ps
    have sub : ∀ q ∈ ps, q ∈ p :: ps := fun q hq => List.mem_cons_of_mem p hq
    obtain ⟨ih₁, ih₂⟩ := ih (A := swap A (f p) (g p)) (List.nodup_cons.1 hnd).2
      (fun a ha b hb => hf a (sub a ha) b (sub b hb))
      (fun a ha b hb => hg a (sub a ha) b (sub b hb))
      (fun a ha b hb => hfg a (sub a ha) b (sub b hb))
    have hq : ∀ q ∈ ps, f q ≠ f p ∧ f q ≠ g p ∧ g q ≠ f p ∧ g q ≠ g p := fun q hq => by
      have hne : q ≠ p := fun h => (List.nodup_cons.1 hnd).1 (h ▸ hq)
      exact ⟨fun h => hne (hf q (sub q hq) p hp h), hfg q (sub q hq) p hp,
        fun h => hfg p hp q (sub q hq) h.symm, fun h => hne (hg q (sub q hq) p hp h)⟩
    refine ⟨fun q hq' => ?_, fun z hz => ?_⟩
    · rw [List.foldl_cons]
      rcases List.mem_cons.1 hq' with rfl | hq'
      · rw [ih₂ _ fun r hr => ⟨(hq r hr).1, (hq r hr).2.2.1⟩,
          ih₂ _ fun r hr => ⟨(hq r hr).2.1, (hq r hr).2.2.2⟩]
        have hne := hfg q hp q hp
        exact ⟨by rw [swap, Function.update_noteq hne, Function.update_same],
          by rw [swap, Function.update_same]⟩
      · rw [(ih₁ q hq').1, (ih₁ q hq').2, swap_apply_of_ne (hq q hq').2.2.1 (hq q hq').2.2.2,
          swap_apply_of_ne (hq q hq').1 (hq q hq').2.1]
        exact ⟨rfl, rfl⟩
    · rw [List.foldl_cons, ih₂ z fun q hq => hz q (sub q hq),
        swap_apply_of_ne (hz p hp).1.symm (hz p hp).2.symm]

/-! ## Loops whose steps can fail an assertion -/

/-- A loop of checked steps (`foldlM` in `Option`) whose every step passes its assertion
runs as the plain loop. -/
theorem foldlM_eq_some {σ β : Type} {f : σ → β → Option σ} (g : σ → β → σ) :
    ∀ (l : List β) (s : σ), (∀ s, ∀ x ∈ l, f s x = some (g s x)) →
      l.foldlM f s = some (l.foldl g s)
  | [], _, _ => rfl
  | x :: l, s, h => by
    rw [List.foldlM_cons, h s x (List.mem_cons_self x l), List.foldl_cons]
    exact foldlM_eq_some g l _ fun s y hy => h s y (List.mem_cons_of_mem x hy)

/-- A loop of checked steps that, from every state an invariant describes, pass their
assertion and keep the invariant, runs as the plain loop and ends in such a state. -/
theorem foldlM_eq_some_of_inv {σ β : Type} (Inv : σ → Prop) {f : σ → β → Option σ}
    (g : σ → β → σ) : ∀ (l : List β) (s : σ), Inv s →
      (∀ s, Inv s → ∀ x ∈ l, f s x = some (g s x) ∧ Inv (g s x)) →
      l.foldlM f s = some (l.foldl g s) ∧ Inv (l.foldl g s)
  | [], _, hs, _ => ⟨rfl, hs⟩
  | x :: l, s, hs, h => by
    rw [List.foldlM_cons, (h s hs x (.head _)).1, List.foldl_cons]
    exact foldlM_eq_some_of_inv Inv g l _ (h s hs x (.head _)).2
      fun s hs y hy => h s hs y (.tail _ hy)

/-- A loop of checked steps aborts at its first step when that step's assertion fails. -/
theorem foldlM_cons_eq_none {σ β : Type} {f : σ → β → Option σ} {x : β} {l : List β}
    {s : σ} (h : f s x = none) : (x :: l).foldlM f s = none := by
  rw [List.foldlM_cons, h]
  rfl

/-- Two loops of checked steps whose steps agree on the states an invariant describes, the
second keeping the invariant, compute the same from a state that satisfies it. -/
theorem foldlM_congr_of_inv {σ β : Type} (Inv : σ → Prop) {f g : σ → β → Option σ} :
    ∀ (l : List β) (s : σ), Inv s →
      (∀ s, Inv s → ∀ x ∈ l, f s x = g s x ∧ ∀ s', g s x = some s' → Inv s') →
      l.foldlM f s = l.foldlM g s
  | [], _, _, _ => rfl
  | x :: l, s, hs, h => by
    rw [List.foldlM_cons, List.foldlM_cons, (h s hs x (.head _)).1]
    cases hg : g s x with
    | none => rfl
    | some s' =>
      exact foldlM_congr_of_inv Inv l s' ((h s hs x (.head _)).2 s' hg)
        fun s hs y hy => h s hs y (.tail _ hy)

/-- A loop of checked steps that each keep an invariant keeps it. -/
theorem foldlM_inv {σ β : Type} (Inv : σ → Prop) {g : σ → β → Option σ} :
    ∀ (l : List β) (s : σ), Inv s → (∀ s, Inv s → ∀ x ∈ l, ∀ s', g s x = some s' → Inv s') →
      ∀ s', l.foldlM g s = some s' → Inv s'
  | [], _, hs, _, _, h => Option.some.inj h ▸ hs
  | x :: l, s, hs, h, s', h' => by
    rw [List.foldlM_cons] at h'
    obtain ⟨s₁, h₁, h₂⟩ := Option.bind_eq_some.1 h'
    exact foldlM_inv Inv l s₁ (h s hs x (.head _) s₁ h₁) (fun s hs y hy => h s hs y (.tail _ hy))
      s' h₂

/-- Two loops of checked steps, each step of one passing its assertion on any state
exactly when the matching step of the other does on any state, pass or fail together. -/
theorem foldlM_isSome_eq {σ β : Type} {f g : σ → β → Option σ} :
    ∀ (l : List β) (s t : σ), (∀ s t, ∀ x ∈ l, (f s x).isSome = (g t x).isSome) →
      (l.foldlM f s).isSome = (l.foldlM g t).isSome
  | [], _, _, _ => rfl
  | x :: l, s, t, h => by
    rw [List.foldlM_cons, List.foldlM_cons]
    have hx := h s t x (.head _)
    cases hf : f s x <;> cases hg : g t x <;> rw [hf, hg] at hx
    · rfl
    · exact absurd hx Bool.false_ne_true
    · exact absurd hx.symm Bool.false_ne_true
    · exact foldlM_isSome_eq l _ _ fun s t y hy => h s t y (.tail _ hy)

end Dynare
