import Mathlib.Data.Finset.Card
import Mathlib.Tactic.Choose
import VllmHcu.EpMoe.Sort
import VllmHcu.Lib.Ranges
import VllmHcu.Lib.RowMajor
import VllmHcu.Moe.PermuteSound

/-!
# The layout of the small-batch sort

The slices of the local experts follow each other without gaps, so the stores of
all programs go to different addresses and their order does not matter.
-/

namespace VllmHcu

/-- Slices that start where the one before ends cover a range from zero. -/
theorem flatMap_slices {first width : Nat → Nat} (hzero : first 0 = 0) (n : Nat)
    (hnext : ∀ x < n, first (x + 1) = first x + width x) :
    (List.range n).flatMap (fun x => List.range' (first x) (width x)) = List.range (first n) := by
  induction n with
  | zero => simp [hzero]
  | succ n ih =>
    rw [List.range_succ, List.flatMap_append, ih fun x hx => hnext x (by omega), List.flatMap_singleton,
      List.range_eq_range', List.range_eq_range', hnext n (Nat.lt_succ_self n)]
    have := List.range'_append_1 (s := 0) (m := first n) (n := width n)
    rwa [Nat.zero_add] at this

/-- The sum over the lanes before `x` of all lanes. -/
theorem sum_lanes_before (f : Nat → Nat) {x n : Nat} (hx : x ≤ n) :
    ((List.range n).map fun i => if i < x then f i else 0).sum = ((List.range x).map f).sum := by
  induction n, hx using Nat.le_induction with
  | base =>
    congr 1
    exact List.map_congr_left fun i hi => if_pos (List.mem_range.mp hi)
  | succ n hn ih =>
    rw [List.range_succ, List.map_append, List.sum_append, ih, List.map_singleton, List.sum_singleton, if_neg (by omega),
      Nat.add_zero]

namespace EpMoe

open VllmHcu.Moe (nextPowerOf2 sliceStart sliceStart_succ dvd_sliceStart sliceStart_le countP_active_le sliceStart_congr)

namespace SortArgs

variable {β : Type} (a : SortArgs β)

/-- The routes of the local expert `x`, in route order. -/
def localRoutes (x : Nat) : List Nat := (List.range a.routes).filter fun r => a.expertMap (a.topkIds r) = x

def count (x : Nat) : Nat := (a.localRoutes x).length

/-- The first row of the slice of `x`. -/
def first (x : Nat) : Nat := sliceStart a.count a.bm x

/-- What `ep_sorting` is called with: ids in range, and a map that numbers the local experts from zero. -/
structure Valid : Prop where
  tokens : a.m < 2 ^ 24
  topk_le : a.topk ≤ a.globalE
  bm_pow : ∃ e, a.bm = 2 ^ e
  ids_lt : ∀ r < a.routes, a.topkIds r < a.globalE
  local_pos : 0 < a.localE
  map_lt : ∀ e < a.globalE, a.expertMap e < a.localE
  map_inj : ∀ e < a.globalE, ∀ e' < a.globalE, 0 ≤ a.expertMap e → a.expertMap e = a.expertMap e' → e = e'
  map_onto : ∀ x < a.localE, ∃ e < a.globalE, a.expertMap e = x

/-- The padded layout of the sorted buffers, and which addresses were stored to. -/
structure ExactLayout (writeLayout : Bool) (zero : β) (s : SortStores β) (b : SortBuffers β) : Prop where
  owner : ∀ e < a.globalE, 0 ≤ a.expertMap e →
    a.localRoutes (a.expertMap e).toNat = (List.range a.routes).filter fun r => a.topkIds r = e
  gapless : a.first 0 = 0 ∧ ∀ x < a.localE, a.first (x + 1) = a.first x + roundUp (a.count x) a.bm
  aligned : ∀ x ≤ a.localE, a.bm ∣ a.first x
  route : ∀ x < a.localE, ∀ i r, (a.localRoutes x)[i]? = some r →
    b.sortedIds (a.first x + i) = routeWord (r / a.topk) (r % a.topk) ∧ b.sortedWeights (a.first x + i) = a.topkWeights r
  padding : ∀ x < a.localE, ∀ i, a.count x ≤ i → i < roundUp (a.count x) a.bm →
    b.sortedIds (a.first x + i) = routeWord a.m a.topk ∧ b.sortedWeights (a.first x + i) = zero
  expert : ∀ x < a.localE, ∀ blk, a.first x ≤ blk * a.bm → blk * a.bm < a.first (x + 1) → b.expertIds blk = x
  total : b.nvalid () = a.first a.localE
  layout : writeLayout = true → ∀ x < a.localE,
    b.layout (x * 2) = a.first x / a.bm ∧ b.layout (x * 2 + 1) = roundUp (a.count x) a.bm / a.bm
  onceIds : (s.sortedIds.map Prod.fst).Perm (List.range (a.first a.localE))
  onceWeights : (s.sortedWeights.map Prod.fst).Perm (List.range (a.first a.localE))
  onceExperts : (s.expertIds.map Prod.fst).Perm (List.range (a.first a.localE / a.bm))
  inBound : a.first a.localE ≤ a.bound ∧ a.first a.localE / a.bm ≤ a.bound / a.bm

/-! ## What a program counts -/

variable {a}

theorem Valid.bm_pos (h : a.Valid) : 0 < a.bm := by
  obtain ⟨e, he⟩ := h.bm_pow
  rw [he]
  exact Nat.two_pow_pos e

theorem localE_le_leP : a.localE ≤ a.leP := Nat.le_pow_clog Nat.one_lt_two _

theorem bin_eq {x r : Nat} (hx : x < a.localE) : a.bin r = x ↔ r < a.routes ∧ a.expertMap (a.topkIds r) = x := by
  have := localE_le_leP (a := a)
  unfold bin
  by_cases hr : r < a.routes
  · simp only [hr, if_true, true_and]
    split <;> omega
  · simp only [hr, if_false, false_and, iff_false]
    rw [if_pos (by decide)]
    omega

theorem bin_ne (h : a.Valid) {xs : Nat} (hlo : a.localE ≤ xs) (hhi : xs < a.leP) (r : Nat) : a.bin r ≠ xs := by
  unfold bin
  by_cases hr : r < a.routes
  · have := h.map_lt _ (h.ids_lt r hr)
    simp only [hr, if_true]
    split <;> omega
  · simp only [hr, if_false]
    rw [if_pos (by decide)]
    omega

theorem mine_eq {x : Nat} (hx : x < a.localE) : a.mine x = a.localRoutes x := by
  obtain ⟨k, hk⟩ := Nat.exists_eq_add_of_le (show a.routes ≤ nextPowerOf2 a.routes from Nat.le_pow_clog Nat.one_lt_two _)
  unfold mine localRoutes
  rw [hk, filter_range_add]
  · refine List.filter_congr fun r hr => ?_
    rw [decide_eq_decide, bin_eq hx]
    exact and_iff_right (List.mem_range.mp hr)
  · intro i _
    rw [decide_eq_false_iff_not, bin_eq hx]
    omega

theorem cnt_eq {x : Nat} (hx : x < a.localE) : a.cnt x = a.count x := by
  unfold cnt count
  rw [← mine_eq hx, mine, List.countP_eq_length_filter]

theorem padded_eq {x : Nat} (hx : x < a.localE) : a.padded x = roundUp (a.count x) a.bm := by
  have := localE_le_leP (a := a)
  rw [padded, if_pos (by omega), cnt_eq hx]

theorem padded_eq_zero (h : a.Valid) {xs : Nat} (hlo : a.localE ≤ xs) : a.padded xs = 0 := by
  unfold padded
  split
  · have hzero : a.cnt xs = 0 := by
      unfold cnt
      rw [List.countP_eq_zero]
      intro r _
      simpa using bin_ne h hlo ‹_› r
    rw [hzero, roundUp_zero h.bm_pos]
  · rfl

theorem sum_padded (x : Nat) (hx : x ≤ a.localE) : ((List.range x).map a.padded).sum = a.first x := by
  unfold first sliceStart
  congr 1
  exact List.map_congr_left fun i hi => padded_eq (by have := List.mem_range.mp hi; omega)

theorem start_eq {x : Nat} (hx : x ≤ a.localE) : a.start x = a.first x := by
  have := localE_le_leP (a := a)
  rw [start, sum_lanes_before _ (show x ≤ 2 * a.leP by omega), sum_padded x hx]

theorem n_eq {x : Nat} (hx : x < a.localE) : a.n x = a.count x := by
  have := localE_le_leP (a := a)
  rw [n, Moe.sum_pick, if_pos (by omega), cnt_eq hx]

theorem npad_eq {x : Nat} (hx : x < a.localE) : a.npad x = roundUp (a.count x) a.bm := by
  rw [npad, n_eq hx]

theorem nvalid_eq (h : a.Valid) : ((List.range (2 * a.leP)).map a.padded).sum = a.first a.localE := by
  have hle := localE_le_leP (a := a)
  rw [← sum_padded a.localE (Nat.le_refl _), ← sum_lanes_before a.padded (show a.localE ≤ 2 * a.leP by omega)]
  congr 1
  refine List.map_congr_left fun i _ => ?_
  split
  · rfl
  · exact padded_eq_zero h (by omega)

theorem first_succ (x : Nat) : a.first (x + 1) = a.first x + roundUp (a.count x) a.bm := sliceStart_succ ..

theorem dvd_first (x : Nat) : a.bm ∣ a.first x := dvd_sliceStart ..

/-! ## Where a program stores -/

theorem map_pos {x : Nat} (hx : x < a.localE) : (a.mine x).map (a.pos x) = List.range' (a.first x) (a.count x) := by
  have hrank := map_rank (fun r => decide (a.bin r = x)) (nextPowerOf2 a.routes)
  have hcnt : (List.range (nextPowerOf2 a.routes)).countP (fun r => decide (a.bin r = x)) = a.count x := cnt_eq hx
  rw [hcnt] at hrank
  have hpos : (a.mine x).map (a.pos x) =
      ((a.mine x).map fun r => (List.range r).countP fun r => decide (a.bin r = x)).map (a.first x + ·) := by
    rw [List.map_map]
    refine List.map_congr_left fun r hr => ?_
    have hbin := (List.mem_filter.mp hr).2
    simp only [pos, Function.comp_apply, List.range_succ, List.countP_append, List.countP_singleton, hbin, if_true,
      start_eq hx.le]
    omega
  rw [hpos, mine, hrank, List.range'_eq_map_range]

theorem padLanes_eq {x : Nat} (h : a.Valid) (hx : x < a.localE) :
    a.padLanes x = List.range (roundUp (a.count x) a.bm - a.count x) := by
  have hle := le_roundUp (a.count x) h.bm_pos
  have hlt := roundUp_le (a.count x) h.bm_pos
  have hpos := h.bm_pos
  unfold padLanes
  rw [n_eq hx, npad_eq hx]
  generalize roundUp (a.count x) a.bm = p at *
  obtain ⟨k, hk⟩ := Nat.exists_eq_add_of_le (show p - a.count x ≤ a.bm by omega)
  rw [hk]
  rw [filter_range_add]
  · refine List.filter_eq_self.mpr fun j hj => ?_
    have := List.mem_range.mp hj
    simp only [decide_eq_true_eq]
    omega
  · intro i _
    simp only [decide_eq_false_iff_not]
    omega

/-- A program fills its slice: the routes and then the padding. -/
theorem slice_addresses {x : Nat} (h : a.Valid) (hx : x < a.localE) :
    (a.mine x).map (a.pos x) ++ (a.padLanes x).map (fun j => a.start x + a.n x + j) =
      List.range' (a.first x) (roundUp (a.count x) a.bm) := by
  have hle := le_roundUp (a.count x) h.bm_pos
  rw [map_pos hx, padLanes_eq h hx, start_eq hx.le, n_eq hx, ← List.range'_eq_map_range, List.range'_append_1,
    Nat.add_sub_cancel' hle]

/-! ## All programs -/

variable {zero : β} {writeLayout : Bool} {order : List Nat}

theorem sortedIds_addresses (h : a.Valid) {x : Nat} (hx : x < a.localE) :
    (a.epSortKernel zero writeLayout x).sortedIds.map Prod.fst = List.range' (a.first x) (roundUp (a.count x) a.bm) := by
  rw [← slice_addresses h hx]
  simp [epSortKernel, Function.comp_def]

theorem sortedWeights_addresses (h : a.Valid) {x : Nat} (hx : x < a.localE) :
    (a.epSortKernel zero writeLayout x).sortedWeights.map Prod.fst = List.range' (a.first x) (roundUp (a.count x) a.bm) := by
  rw [← slice_addresses h hx]
  simp [epSortKernel, Function.comp_def]

/-- The blocks of a slice. -/
theorem block_succ (h : a.Valid) (x : Nat) : a.first (x + 1) / a.bm = a.first x / a.bm + roundUp (a.count x) a.bm / a.bm := by
  obtain ⟨q, hq⟩ := dvd_first (a := a) x
  rw [first_succ, hq, Nat.mul_add_div h.bm_pos, Nat.mul_div_cancel_left _ h.bm_pos]

theorem expertIds_addresses {x : Nat} (h : a.Valid) (hx : x < a.localE) :
    (a.epSortKernel zero writeLayout x).expertIds.map Prod.fst =
      List.range' (a.first x / a.bm) (roundUp (a.count x) a.bm / a.bm) := by
  have := block_succ h x
  simp only [epSortKernel, start_eq hx.le, npad_eq hx, List.map_map, ← first_succ]
  rw [this, Nat.add_sub_cancel_left]
  exact List.map_id _

/-- Programs with consecutive slices store each address of the whole range once, in whatever order they run. -/
theorem once_of_slices {γ : Type} {store : Nat → List (Nat × γ)} {n : Nat} (start width : Nat → Nat)
    (horder : order.Perm (List.range n)) (haddr : ∀ x < n, (store x).map Prod.fst = List.range' (start x) (width x))
    (hzero : start 0 = 0) (hnext : ∀ x < n, start (x + 1) = start x + width x) :
    ((order.flatMap store).map Prod.fst).Perm (List.range (start n)) := by
  rw [List.map_flatMap]
  refine (horder.flatMap_right _).trans ?_
  rw [List.flatMap_congr fun x hx => haddr x (List.mem_range.mp hx), flatMap_slices hzero n hnext]

theorem first_zero : a.first 0 = 0 := rfl

variable (zero writeLayout) in
theorem onceIds (h : a.Valid) (horder : order.Perm (List.range a.localE)) :
    ((a.stores zero writeLayout order).sortedIds.map Prod.fst).Perm (List.range (a.first a.localE)) :=
  once_of_slices _ _ horder (fun _ hx => sortedIds_addresses h hx) first_zero fun x _ => first_succ x

variable (zero writeLayout) in
theorem onceWeights (h : a.Valid) (horder : order.Perm (List.range a.localE)) :
    ((a.stores zero writeLayout order).sortedWeights.map Prod.fst).Perm (List.range (a.first a.localE)) :=
  once_of_slices _ _ horder (fun _ hx => sortedWeights_addresses h hx) first_zero fun x _ => first_succ x

variable (zero writeLayout) in
theorem onceExperts (h : a.Valid) (horder : order.Perm (List.range a.localE)) :
    ((a.stores zero writeLayout order).expertIds.map Prod.fst).Perm (List.range (a.first a.localE / a.bm)) :=
  once_of_slices (fun x => a.first x / a.bm) _ horder (fun _ hx => expertIds_addresses h hx)
    (by rw [first_zero, Nat.zero_div]) fun x _ => block_succ h x

/-- A store of one program is read back when no address is stored to twice. -/
theorem read_back {γ : Type} {store : Nat → List (Nat × γ)} {x k n : Nat} {v : γ} {before : Nat → γ}
    (horder : order.Perm (List.range n)) (hx : x < n) (hn : ((order.flatMap store).map Prod.fst).Nodup)
    (hmem : (k, v) ∈ store x) : scatter before (order.flatMap store) k = v :=
  scatter_of_mem before hn (List.mem_flatMap.mpr ⟨x, horder.mem_iff.mpr (List.mem_range.mpr hx), hmem⟩)

/-- The place of a route in its slice. -/
theorem pos_of_getElem? {x i r : Nat} (hx : x < a.localE) (hr : (a.localRoutes x)[i]? = some r) :
    r ∈ a.mine x ∧ a.pos x r = a.first x + i := by
  have hmem : r ∈ a.mine x := by
    rw [mine_eq hx]
    exact List.mem_of_getElem? hr
  refine ⟨hmem, ?_⟩
  have hpos := congrArg (·[i]?) (map_pos hx)
  obtain ⟨hlt, -⟩ := List.getElem?_eq_some_iff.mp hr
  simp only [mine_eq hx, List.getElem?_map, hr, Option.map_some, List.getElem?_range' (show i < a.count x from hlt), Nat.one_mul] at hpos
  exact Option.some.inj hpos

variable (zero writeLayout) in
theorem route_stored {x i r : Nat} (hx : x < a.localE) (hr : (a.localRoutes x)[i]? = some r) :
    (a.first x + i, routeWord (r / a.topk) (r % a.topk)) ∈ (a.epSortKernel zero writeLayout x).sortedIds ∧
    (a.first x + i, a.topkWeights r) ∈ (a.epSortKernel zero writeLayout x).sortedWeights := by
  obtain ⟨hmem, hpos⟩ := pos_of_getElem? hx hr
  have hmod : r - r / a.topk * a.topk = r % a.topk := by
    rw [Nat.mul_comm]
    exact (Nat.mod_eq_sub_mul_div).symm
  rw [← hpos, ← hmod]
  exact ⟨List.mem_append_left _ (List.mem_map.mpr ⟨r, hmem, rfl⟩), List.mem_append_left _ (List.mem_map.mpr ⟨r, hmem, rfl⟩)⟩

variable (zero writeLayout) in
theorem padding_stored {x i : Nat} (h : a.Valid) (hx : x < a.localE) (hlo : a.count x ≤ i) (hhi : i < roundUp (a.count x) a.bm) :
    (a.first x + i, routeWord a.m a.topk) ∈ (a.epSortKernel zero writeLayout x).sortedIds ∧
    (a.first x + i, zero) ∈ (a.epSortKernel zero writeLayout x).sortedWeights := by
  have hmem : i - a.count x ∈ a.padLanes x := by
    rw [padLanes_eq h hx]
    exact List.mem_range.mpr (by omega)
  have haddr : a.start x + a.n x + (i - a.count x) = a.first x + i := by
    rw [start_eq hx.le, n_eq hx]
    omega
  rw [← haddr]
  exact ⟨List.mem_append_right _ (List.mem_map.mpr ⟨_, hmem, rfl⟩), List.mem_append_right _ (List.mem_map.mpr ⟨_, hmem, rfl⟩)⟩

theorem expert_stored {x blk : Nat} (h : a.Valid) (hx : x < a.localE) (hlo : a.first x ≤ blk * a.bm)
    (hhi : blk * a.bm < a.first (x + 1)) : (blk, x) ∈ (a.epSortKernel zero writeLayout x).expertIds := by
  have hpos := h.bm_pos
  have h₁ : a.first x / a.bm ≤ blk := Nat.div_le_of_le_mul (by rwa [Nat.mul_comm])
  have h₂ : blk < a.first (x + 1) / a.bm := by
    obtain ⟨q, hq⟩ := dvd_first (a := a) (x + 1)
    rw [hq, Nat.mul_div_cancel_left _ hpos]
    rw [hq, Nat.mul_comm] at hhi
    exact Nat.lt_of_mul_lt_mul_left hhi
  simp only [epSortKernel, start_eq hx.le, npad_eq hx, ← first_succ]
  exact List.mem_map.mpr ⟨blk, List.mem_range'_1.mpr (by omega), rfl⟩

/-! ## The bound -/

theorem localE_le_globalE (h : a.Valid) : a.localE ≤ a.globalE := by
  choose! f hf using h.map_onto
  have hinj : Set.InjOn f (Finset.range a.localE) := by
    intro x hx y hy he
    have h₁ := (hf x (Finset.mem_range.mp hx)).2
    have h₂ := (hf y (Finset.mem_range.mp hy)).2
    rw [he, h₂] at h₁
    exact_mod_cast h₁.symm
  have := Finset.card_le_card_of_injOn (s := Finset.range a.localE) (t := Finset.range a.globalE) f
    (fun x hx => Finset.mem_coe.mpr (Finset.mem_range.mpr (hf x (Finset.mem_range.mp hx)).1)) hinj
  simpa using this

theorem sum_count_le : ((List.range a.localE).map a.count).sum ≤ a.routes := by
  have hperm := (flatMap_classes_perm a.bin (List.range a.routes) a.localE).length_eq
  have hle := List.length_filter_le (fun r => decide (a.bin r < a.localE)) (List.range a.routes)
  rw [← hperm, List.length_flatMap, List.length_range] at hle
  refine Nat.le_trans (Nat.le_of_eq ?_) hle
  congr 1
  refine List.map_congr_left fun x hx => congrArg List.length (List.filter_congr fun r hr => ?_)
  rw [decide_eq_decide, bin_eq (List.mem_range.mp hx)]
  exact (and_iff_right (List.mem_range.mp hr)).symm

theorem first_le_bound (h : a.Valid) : a.first a.localE ≤ a.bound := by
  have hpos := h.bm_pos
  have hle := sliceStart_le a.count hpos a.localE
  have hsum := sum_count_le (a := a)
  have hactive := countP_active_le a.count a.localE
  have hlocal := (List.range a.localE).countP_le_length (p := fun e => 0 < a.count e)
  rw [List.length_range] at hlocal
  have hglobal := localE_le_globalE h
  unfold bound
  refine Nat.le_min.mpr ⟨?_, ?_⟩
  · -- an expert costs `bm - 1` rows at most, and there are `topk` experts or more
    have h₁ := Nat.mul_le_mul_right (a.bm - 1) (Nat.le_trans hlocal hglobal)
    have h₂ : a.globalE * (a.bm - 1) + a.globalE = a.globalE * a.bm := by
      rw [← Nat.mul_succ]
      congr 1
      omega
    have := h.topk_le
    unfold full first
    omega
  · have h₁ := Nat.mul_le_mul_right (a.bm - 1) (Nat.le_min.mpr ⟨Nat.le_trans hactive hsum, hlocal⟩)
    obtain ⟨q, hq⟩ := dvd_first (a := a) a.localE
    have hbound : a.first a.localE ≤ a.routes + min a.routes a.localE * (a.bm - 1) := by
      unfold first
      omega
    exact Nat.le_trans hbound (le_cdiv_mul _ hpos)

/-! ## The sorted layout -/

theorem owner_eq (h : a.Valid) {e : Nat} (he : e < a.globalE) (hlocal : 0 ≤ a.expertMap e) :
    a.localRoutes (a.expertMap e).toNat = (List.range a.routes).filter fun r => a.topkIds r = e := by
  refine List.filter_congr fun r hr => ?_
  rw [decide_eq_decide, Int.toNat_of_nonneg hlocal]
  refine ⟨fun heq => ?_, fun heq => by rw [heq]⟩
  exact (h.map_inj e he _ (h.ids_lt r (List.mem_range.mp hr)) hlocal heq.symm).symm

theorem layout_stored (horder : order.Perm (List.range a.localE)) (before : Nat → Nat) {x : Nat} (hx : x < a.localE) :
    scatter before (a.stores zero true order).layout (x * 2) = a.first x / a.bm ∧
    scatter before (a.stores zero true order).layout (x * 2 + 1) = roundUp (a.count x) a.bm / a.bm := by
  have hlayout : ∀ y < a.localE, (a.epSortKernel zero true y).layout =
      [(y * 2, a.first y / a.bm), (y * 2 + 1, roundUp (a.count y) a.bm / a.bm)] := by
    intro y hy
    simp [epSortKernel, start_eq hy.le, npad_eq hy]
  have hn : ((order.flatMap fun x => (a.epSortKernel zero true x).layout).map Prod.fst).Nodup := by
    refine (once_of_slices (fun x => x * 2) (fun _ => 2) horder ?_ rfl ?_).nodup_iff.mpr List.nodup_range
    · intro y hy
      rw [hlayout y hy]
      rfl
    · intro y _
      exact Nat.succ_mul y 2
  exact ⟨read_back horder hx hn (by simp [hlayout x hx]), read_back horder hx hn (by simp [hlayout x hx])⟩

theorem nvalid_stored (h : a.Valid) (horder : order.Perm (List.range a.localE)) (before : Unit → Nat) :
    scatter before (a.stores zero writeLayout order).nvalid () = a.first a.localE := by
  rw [← nvalid_eq h]
  refine scatter_eq_of_agree ?_ (.inr ?_)
  · intro w hw _
    obtain ⟨x, -, hx⟩ := List.mem_flatMap.mp hw
    simp only [epSortKernel] at hx
    split at hx
    · rw [List.mem_singleton] at hx
      rw [hx]
    · cases hx
  · refine ⟨((), ((List.range (2 * a.leP)).map a.padded).sum), ?_, rfl⟩
    refine List.mem_flatMap.mpr ⟨0, horder.mem_iff.mpr (List.mem_range.mpr h.local_pos), ?_⟩
    simp [epSortKernel]

variable (zero writeLayout) in
theorem exactLayout (h : a.Valid) (horder : order.Perm (List.range a.localE)) {maxRoutes : Nat}
    (hroutes : 0 < a.routes ∧ a.routes ≤ maxRoutes) (before : SortBuffers β) :
    ∃ b, a.epSorting maxRoutes zero writeLayout order before = some b ∧
      a.ExactLayout writeLayout zero (a.stores zero writeLayout order) b := by
  have hids := (onceIds zero writeLayout h horder).nodup_iff.mpr List.nodup_range
  have hweights := (onceWeights zero writeLayout h horder).nodup_iff.mpr List.nodup_range
  have hexperts := (onceExperts zero writeLayout h horder).nodup_iff.mpr List.nodup_range
  refine ⟨_, if_pos hroutes, ?_⟩
  constructor
  · exact fun e he => owner_eq h he
  · exact ⟨first_zero, fun x _ => first_succ x⟩
  · exact fun x _ => dvd_first x
  · intro x hx i r hr
    obtain ⟨hi, hw⟩ := route_stored zero writeLayout hx hr
    exact ⟨read_back horder hx hids hi, read_back horder hx hweights hw⟩
  · intro x hx i hlo hhi
    obtain ⟨hi, hw⟩ := padding_stored zero writeLayout h hx hlo hhi
    exact ⟨read_back horder hx hids hi, read_back horder hx hweights hw⟩
  · exact fun x hx blk hlo hhi => read_back horder hx hexperts (expert_stored h hx hlo hhi)
  · exact nvalid_stored h horder _
  · intro hw x hx
    subst hw
    exact layout_stored horder _ hx
  · exact onceIds zero writeLayout h horder
  · exact onceWeights zero writeLayout h horder
  · exact onceExperts zero writeLayout h horder
  · exact ⟨first_le_bound h, Nat.div_le_div_right (first_le_bound h)⟩

end SortArgs

/-! ## The gather -/

theorem toNat_routeWord {tok k : Nat} (ht : tok < 2 ^ 24) : (routeWord tok k &&& 0xFFFFFF#32).toNat = tok := by
  unfold routeWord
  rw [BitVec.toNat_and, show (0xFFFFFF#32).toNat = 2 ^ 24 - 1 by decide, Nat.and_two_pow_sub_one_eq_mod, BitVec.toNat_or,
    Nat.or_mod_two_pow, BitVec.toNat_shiftLeft, BitVec.toNat_ofNat, BitVec.toNat_ofNat, Nat.shiftLeft_eq]
  have hhigh : (k % 2 ^ 32 * 2 ^ 24 % 2 ^ 32) % 2 ^ 24 = 0 := by omega
  rw [hhigh, Nat.or_zero]
  omega

section
variable {aQ : Nat → BitVec 8} {aS : Nat → Nat → BitVec 8} {sortedIds : Nat → BitVec 32} {m k nvalid rows program : Nat}
  {order : List Nat} {mem g : Nat → BitVec 8}

theorem mem_gatherCols {col : Nat} :
    (∃ base ∈ strided 0 k (min 2048 (nextPowerOf2 k)), col ∈ (List.range' base (min 2048 (nextPowerOf2 k))).filter (· < k)) ↔
      col < k := by
  have hpos : 0 < min 2048 (nextPowerOf2 k) := Nat.lt_min.mpr ⟨by decide, Nat.two_pow_pos _⟩
  have hle := le_cdiv_mul k hpos
  rw [← List.mem_flatMap, ← List.filter_flatMap, flatMap_strided, List.mem_filter, List.mem_range'_1, decide_eq_true_eq, Nat.sub_zero]
  omega

theorem mem_epGatherSortedKernel {w : Nat × BitVec 8} :
    w ∈ epGatherSortedKernel aQ aS sortedIds m k nvalid rows program ↔
      program * 32 < nvalid ∧ ∃ row, program * 32 ≤ row ∧ row < program * 32 + 32 ∧
        ((∃ byte < 4, w = (rows * k + 4 * row + byte, gatheredScale aS sortedIds m row byte)) ∨
          ∃ col < k, w = (row * k + col, gatheredValue aQ sortedIds m k row col)) := by
  unfold epGatherSortedKernel
  simp only
  split
  · rename_i hle
    exact iff_of_false List.not_mem_nil fun h => absurd h.1 (by omega)
  · rename_i hlt
    rw [List.mem_append]
    constructor
    · rintro (h | h)
      · obtain ⟨row, hrow, h⟩ := List.mem_flatMap.mp h
        obtain ⟨byte, hbyte, rfl⟩ := List.mem_map.mp h
        rw [List.mem_range'_1] at hrow
        exact ⟨by omega, row, hrow.1, hrow.2, .inl ⟨byte, List.mem_range.mp hbyte, rfl⟩⟩
      · obtain ⟨base, hbase, h⟩ := List.mem_flatMap.mp h
        obtain ⟨row, hrow, h⟩ := List.mem_flatMap.mp h
        obtain ⟨col, hcol, rfl⟩ := List.mem_map.mp h
        rw [List.mem_range'_1] at hrow
        exact ⟨by omega, row, hrow.1, hrow.2, .inr ⟨col, mem_gatherCols.mp ⟨base, hbase, hcol⟩, rfl⟩⟩
    · rintro ⟨-, row, hlo, hhi, h⟩
      have hrow : row ∈ List.range' (program * 32) 32 := List.mem_range'_1.mpr ⟨hlo, hhi⟩
      obtain ⟨byte, hbyte, rfl⟩ | ⟨col, hcol, rfl⟩ := h
      · exact .inl (List.mem_flatMap.mpr ⟨row, hrow, List.mem_map_of_mem (List.mem_range.mpr hbyte)⟩)
      · obtain ⟨base, hbase, hmem⟩ := mem_gatherCols.mpr hcol
        exact .inr (List.mem_flatMap.mpr ⟨base, hbase, List.mem_flatMap.mpr ⟨row, hrow, List.mem_map_of_mem hmem⟩⟩)

/-- All programs together store the scale and the values of every row up to the end of the last tile. -/
theorem mem_gatherPrograms (horder : order.Perm (List.range (cdiv rows 32))) (hle : nvalid ≤ rows) {w : Nat × BitVec 8} :
    w ∈ order.flatMap (epGatherSortedKernel aQ aS sortedIds m k nvalid rows) ↔ ∃ row < roundUp nvalid 32,
      (∃ byte < 4, w = (rows * k + 4 * row + byte, gatheredScale aS sortedIds m row byte)) ∨
        ∃ col < k, w = (row * k + col, gatheredValue aQ sortedIds m k row col) := by
  have hround : roundUp nvalid 32 = (nvalid + 32 - 1) / 32 * 32 := rfl
  rw [List.mem_flatMap]
  constructor
  · rintro ⟨program, -, h⟩
    obtain ⟨hlt, row, hlo, hhi, h⟩ := mem_epGatherSortedKernel.mp h
    exact ⟨row, by omega, h⟩
  · rintro ⟨row, hrow, h⟩
    have hprogram : row / 32 < cdiv rows 32 := (lt_cdiv (by decide)).mpr (by omega)
    exact ⟨row / 32, horder.mem_iff.mpr (List.mem_range.mpr hprogram), mem_epGatherSortedKernel.mpr
      ⟨by omega, row, by omega, by omega, h⟩⟩

theorem epGatherSorted_eq_ok : epGatherSorted aQ aS sortedIds m k nvalid rows order mem = .ok g ↔
    rows * k % 4 = 0 ∧ scatter mem (order.flatMap (epGatherSortedKernel aQ aS sortedIds m k nvalid rows)) = g := by
  unfold epGatherSorted
  rw [bind_eq_ok]
  constructor
  · rintro ⟨_, hview, hok⟩
    exact ⟨ensure_eq_ok.mp hview, pure_eq_ok.mp hok⟩
  · rintro ⟨hview, hg⟩
    exact ⟨(), ensure_eq_ok.mpr hview, pure_eq_ok.mpr hg⟩

/-- Where the tiles end within the rows, every row below `nvalid` has the scale and the values of its token, or zeros. -/
theorem epGatherSorted_spec (horder : order.Perm (List.range (cdiv rows 32))) (hle : nvalid ≤ rows)
    (htiles : roundUp nvalid 32 ≤ rows) (hok : epGatherSorted aQ aS sortedIds m k nvalid rows order mem = .ok g)
    {row : Nat} (hrow : row < nvalid) :
    (∀ byte < 4, g (rows * k + 4 * row + byte) = gatheredScale aS sortedIds m row byte) ∧
      ∀ col < k, g (row * k + col) = gatheredValue aQ sortedIds m k row col := by
  obtain ⟨-, rfl⟩ := epGatherSorted_eq_ok.mp hok
  have hround := le_roundUp nvalid (y := 32) (by decide)
  -- the values of all tiles lie before the scales
  have hbefore : ∀ row' < roundUp nvalid 32, ∀ col < k, row' * k + col < rows * k := fun row' hrow' col hcol =>
    (Nat.add_lt_add_left hcol _).trans_le (Nat.succ_mul row' k ▸ Nat.mul_le_mul_right k (by omega))
  constructor
  · intro byte hbyte
    refine scatter_eq_of_agree (fun w hw hat => ?_)
      (.inr ⟨_, (mem_gatherPrograms horder hle).mpr ⟨row, by omega, .inl ⟨byte, hbyte, rfl⟩⟩, rfl⟩)
    obtain ⟨row', hrow', ⟨byte', hbyte', rfl⟩ | ⟨col, hcol, rfl⟩⟩ := (mem_gatherPrograms horder hle).mp hw
    · have hat : rows * k + 4 * row' + byte' = rows * k + 4 * row + byte := hat
      obtain ⟨rfl, rfl⟩ : row' = row ∧ byte' = byte := by omega
      rfl
    · have hat : row' * k + col = rows * k + 4 * row + byte := hat
      have := hbefore row' hrow' col hcol
      omega
  · intro col hcol
    refine scatter_eq_of_agree (fun w hw hat => ?_)
      (.inr ⟨_, (mem_gatherPrograms horder hle).mpr ⟨row, by omega, .inr ⟨col, hcol, rfl⟩⟩, rfl⟩)
    obtain ⟨row', hrow', ⟨byte, hbyte, rfl⟩ | ⟨col', hcol', rfl⟩⟩ := (mem_gatherPrograms horder hle).mp hw
    · have hat : rows * k + 4 * row' + byte = row * k + col := hat
      have := hbefore row (by omega) col hcol
      omega
    · have hdiv := congrArg (· / k) hat
      have hmod := congrArg (· % k) hat
      simp only [block_div hcol, block_div hcol'] at hdiv
      simp only [block_mod hcol, block_mod hcol'] at hmod
      rw [hdiv, hmod]

/-- Where the last tile goes on past the rows, its first such row of values lies over the first scale. -/
theorem scale_overwritten (hk : 0 < k) (hle : nvalid ≤ rows) (htiles : rows < roundUp nvalid 32)
    (hok : epGatherSorted (fun _ => 0#8) aS sortedIds m k nvalid rows (List.range (cdiv rows 32)) mem = .ok g) :
    g (rows * k) = 0#8 := by
  obtain ⟨-, rfl⟩ := epGatherSorted_eq_ok.mp hok
  have hround : roundUp nvalid 32 = (nvalid + 32 - 1) / 32 * 32 := rfl
  obtain ⟨last, hlast⟩ : ∃ last, cdiv rows 32 = last + 1 := ⟨rows / 32, by unfold cdiv; omega⟩
  have hcdiv : (rows + 32 - 1) / 32 = last + 1 := hlast
  have hzero : ∀ row col, gatheredValue (fun _ => 0#8) sortedIds m k row col = 0#8 := by
    intro row col
    unfold gatheredValue
    exact ite_self _
  rw [hlast, List.range_succ, List.flatMap_append, List.flatMap_singleton]
  unfold epGatherSortedKernel
  simp only
  rw [if_neg (c := nvalid ≤ last * 32) (by omega), ← List.append_assoc, scatter_append]
  refine scatter_eq_of_agree (fun w hw _ => ?_) (.inr ?_)
  · obtain ⟨base, -, hw⟩ := List.mem_flatMap.mp hw
    obtain ⟨row, -, hw⟩ := List.mem_flatMap.mp hw
    obtain ⟨col, -, rfl⟩ := List.mem_map.mp hw
    exact hzero row col
  · obtain ⟨base, hbase, hcol⟩ := mem_gatherCols.mpr hk
    exact ⟨_, List.mem_flatMap.mpr ⟨base, hbase, List.mem_flatMap.mpr ⟨rows, List.mem_range'_1.mpr (by omega),
      List.mem_map_of_mem hcol⟩⟩, rfl⟩

end

/-- What the gather leaves in the rows of the slices: their values, and behind the values of all rows their scales. -/
structure Gathered {β : Type} (a : SortArgs β) (k : Nat) (aQ : Nat → BitVec 8) (aS : Nat → Nat → BitVec 8)
    (g : Nat → BitVec 8) : Prop where
  route : ∀ x < a.localE, ∀ i r, (a.localRoutes x)[i]? = some r →
    (∀ byte < 4, g (a.bound * k + 4 * (a.first x + i) + byte) = aS (r / a.topk) byte) ∧
      ∀ col < k, g ((a.first x + i) * k + col) = aQ (r / a.topk * k + col)
  padding : ∀ x < a.localE, ∀ i, a.count x ≤ i → i < roundUp (a.count x) a.bm →
    (∀ byte < 4, g (a.bound * k + 4 * (a.first x + i) + byte) = 0#8) ∧ ∀ col < k, g ((a.first x + i) * k + col) = 0#8

/-- The gather leaves the rows of the tokens, whatever it copies and in whatever order its programs run. -/
def GathersAll {β : Type} (a : SortArgs β) (k : Nat) (sortedIds : Nat → BitVec 32) (nvalid : Nat) : Prop :=
  ∀ aQ aS mem order, order.Perm (List.range (cdiv a.bound 32)) →
    ∃ g, epGatherSorted aQ aS sortedIds a.m k nvalid a.bound order mem = .ok g ∧ Gathered a k aQ aS g

namespace SortArgs

variable {β : Type} {a : SortArgs β}

theorem slice_le_total {x : Nat} (hx : x < a.localE) : a.first x + roundUp (a.count x) a.bm ≤ a.first a.localE :=
  Moe.slice_end_le _ _ hx

theorem token_lt {x i r : Nat} (hr : (a.localRoutes x)[i]? = some r) : r / a.topk < a.m := by
  have := List.mem_range.mp (List.mem_filter.mp (List.mem_of_getElem? hr)).1
  exact Nat.div_lt_of_lt_mul (by rwa [Nat.mul_comm])

/-- Some slice with a route starts at row 0. -/
theorem exists_first_zero (h : 0 < a.first a.localE) : ∃ x < a.localE, 0 < a.count x ∧ a.first x = 0 := by
  have hn : ∀ n, 0 < a.first n → ∃ x < n, 0 < a.count x ∧ a.first x = 0 := by
    intro n
    induction n with
    | zero => exact fun h => absurd h (Nat.lt_irrefl 0)
    | succ n ih =>
      intro hsucc
      by_cases hfirst : 0 < a.first n
      · obtain ⟨x, hx, hcount⟩ := ih hfirst
        exact ⟨x, Nat.lt_succ_of_lt hx, hcount⟩
      · refine ⟨n, Nat.lt_succ_self n, Nat.pos_of_ne_zero fun hcount => ?_, by omega⟩
        have hround : roundUp 0 a.bm = 0 := by
          unfold roundUp cdiv
          rw [Nat.zero_add, Nat.div_eq_zero_iff.mpr (by omega), Nat.zero_mul]
        rw [first_succ, hcount, hround] at hsucc
        omega
  exact hn _ h

section
variable {zero : β} {writeLayout : Bool} {s : SortStores β} {b : SortBuffers β} {k : Nat}

theorem rowToken_route (h : a.Valid) (hl : a.ExactLayout writeLayout zero s b) {x i r : Nat} (hx : x < a.localE)
    (hr : (a.localRoutes x)[i]? = some r) : rowToken b.sortedIds (a.first x + i) = r / a.topk := by
  rw [rowToken, (hl.route x hx i r hr).1]
  exact toNat_routeWord (Nat.lt_trans (token_lt hr) h.tokens)

theorem rowToken_padding (h : a.Valid) (hl : a.ExactLayout writeLayout zero s b) {x i : Nat} (hx : x < a.localE)
    (hlo : a.count x ≤ i) (hhi : i < roundUp (a.count x) a.bm) : rowToken b.sortedIds (a.first x + i) = a.m := by
  rw [rowToken, (hl.padding x hx i hlo hhi).1]
  exact toNat_routeWord h.tokens

/-- The tiles that end within the rows leave the rows of the tokens. -/
theorem gathered_of_tiles (h : a.Valid) (hl : a.ExactLayout writeLayout zero s b)
    (htiles : roundUp (a.first a.localE) 32 ≤ a.bound) {aQ : Nat → BitVec 8} {aS : Nat → Nat → BitVec 8} {order : List Nat}
    (horder : order.Perm (List.range (cdiv a.bound 32))) {mem g : Nat → BitVec 8}
    (hok : epGatherSorted aQ aS b.sortedIds a.m k (b.nvalid ()) a.bound order mem = .ok g) : Gathered a k aQ aS g := by
  rw [hl.total] at hok
  constructor
  · intro x hx i r hr
    obtain ⟨hi, -⟩ := List.getElem?_eq_some_iff.mp hr
    have hend := slice_le_total hx
    have hround := le_roundUp (a.count x) h.bm_pos
    have hrow : a.first x + i < a.first a.localE := by
      unfold count at *
      omega
    have htok := rowToken_route h hl hx hr
    obtain ⟨hs, hq⟩ := epGatherSorted_spec horder hl.inBound.1 htiles hok hrow
    constructor
    · intro byte hbyte
      rw [hs byte hbyte, gatheredScale, htok, if_pos (token_lt hr)]
    · intro col hcol
      rw [hq col hcol, gatheredValue, htok, if_pos (token_lt hr)]
  · intro x hx i hlo hhi
    have hend := slice_le_total hx
    have hrow : a.first x + i < a.first a.localE := by omega
    have htok := rowToken_padding h hl hx hlo hhi
    obtain ⟨hs, hq⟩ := epGatherSorted_spec horder hl.inBound.1 htiles hok hrow
    constructor
    · intro byte hbyte
      rw [hs byte hbyte, gatheredScale, htok, if_neg (Nat.lt_irrefl _)]
    · intro col hcol
      rw [hq col hcol, gatheredValue, htok, if_neg (Nat.lt_irrefl _)]

/-- With tiles past the rows the scale of row 0 is lost when it is not the value that lies over it. -/
theorem not_gathered_of_tiles (hl : a.ExactLayout writeLayout zero s b) (hk : 0 < k)
    (htiles : a.bound < roundUp (a.first a.localE) 32) {mem g : Nat → BitVec 8}
    (hok : epGatherSorted (fun _ => 0#8) (fun _ _ => 1#8) b.sortedIds a.m k (b.nvalid ()) a.bound
      (List.range (cdiv a.bound 32)) mem = .ok g) : ¬Gathered a k (fun _ => 0#8) (fun _ _ => 1#8) g := by
  intro hg
  rw [hl.total] at hok
  have hpos : 0 < a.first a.localE := by
    by_contra hzero
    rw [Nat.eq_zero_of_not_pos hzero, roundUp_zero (by decide)] at htiles
    exact Nat.not_lt_zero _ htiles
  obtain ⟨x, hx, hcount, hfirst⟩ := exists_first_zero hpos
  obtain ⟨hscale, -⟩ := hg.route x hx 0 _ (List.getElem?_eq_getElem hcount)
  have hone := hscale 0 (by decide)
  rw [hfirst, Nat.add_zero, scale_overwritten hk hl.inBound.1 htiles hok] at hone
  exact absurd hone (by decide)

theorem gathersAll_iff (h : a.Valid) (hl : a.ExactLayout writeLayout zero s b) (hk : 0 < k) :
    GathersAll a k b.sortedIds (b.nvalid ()) ↔ a.bound * k % 4 = 0 ∧ roundUp (a.first a.localE) 32 ≤ a.bound := by
  constructor
  · intro hall
    obtain ⟨g, hok, hg⟩ := hall (fun _ => 0#8) (fun _ _ => 1#8) (fun _ => 0#8) _ (.refl _)
    refine ⟨(epGatherSorted_eq_ok.mp hok).1, ?_⟩
    by_contra htiles
    exact not_gathered_of_tiles hl hk (Nat.lt_of_not_le htiles) hok hg
  · rintro ⟨hview, htiles⟩ aQ aS mem order horder
    obtain ⟨g, hok⟩ : ∃ g, epGatherSorted aQ aS b.sortedIds a.m k (b.nvalid ()) a.bound order mem = .ok g :=
      ⟨_, epGatherSorted_eq_ok.mpr ⟨hview, rfl⟩⟩
    exact ⟨g, hok, gathered_of_tiles h hl htiles horder hok⟩

end

/-- The small-batch sort leaves the padded layout, and the gather the rows of its tokens exactly where the scales can be
viewed and no tile goes on past the bound. -/
theorem small_sort_layout_iff (a : SortArgs β) (h : a.Valid) (maxRoutes : Nat)
    (hroutes : 0 < a.routes ∧ a.routes ≤ maxRoutes) (zero : β) (writeLayout : Bool) (order : List Nat)
    (horder : order.Perm (List.range a.localE)) (before : SortBuffers β) (k : Nat) (hk : 0 < k) :
    ∃ b, a.epSorting maxRoutes zero writeLayout order before = some b ∧
      a.ExactLayout writeLayout zero (a.stores zero writeLayout order) b ∧
      (GathersAll a k b.sortedIds (b.nvalid ()) ↔ a.bound * k % 4 = 0 ∧ roundUp (a.first a.localE) 32 ≤ a.bound) := by
  obtain ⟨b, hb, hl⟩ := exactLayout zero writeLayout h horder hroutes before
  exact ⟨b, hb, hl, gathersAll_iff h hl hk⟩

/-- Two tokens of two choices among three experts, of which the first and the last are local. -/
def smallSort : SortArgs Nat where
  m := 2
  topk := 2
  topkIds r := [0, 1, 2, 0].getD r 0
  topkWeights r := r + 10
  expertMap e := [0, -1, 1].getD e (-1)
  globalE := 3
  localE := 2
  bm := 32

theorem smallSort_valid : smallSort.Valid where
  tokens := by decide
  topk_le := by decide
  bm_pow := ⟨5, rfl⟩
  ids_lt := by decide
  local_pos := by decide
  map_lt := by decide
  map_inj := by decide
  map_onto := by decide

/-- The second row of the first slice is the last route, and gets the scale and the row of token 1. -/
theorem small_sort_layout_iff_small : ∃ b g, smallSort.epSorting 2048 0 false [1, 0] ⟨fun _ => 0#32, fun _ => 0, fun _ => 0,
    fun _ => 0, fun _ => 0⟩ = some b ∧ b.sortedIds 1 = routeWord 1 1 ∧ b.nvalid () = 64 ∧
    epGatherSorted (fun i => BitVec.ofNat 8 (i + 1)) (fun token byte => BitVec.ofNat 8 (10 * token + byte)) b.sortedIds 2 4
      (b.nvalid ()) 96 [2, 0, 1] (fun _ => 0#8) = .ok g ∧ g 388 = 10#8 ∧ g 4 = 5#8 := by
  obtain ⟨b, hb, hl, hiff⟩ := small_sort_layout_iff smallSort smallSort_valid 2048 (by decide) 0 false [1, 0] (by decide)
    ⟨fun _ => 0#32, fun _ => 0, fun _ => 0, fun _ => 0, fun _ => 0⟩ 4 (by decide)
  obtain ⟨g, hok, hg⟩ := hiff.mpr (by decide) (fun i => BitVec.ofNat 8 (i + 1))
    (fun token byte => BitVec.ofNat 8 (10 * token + byte)) (fun _ => 0#8) [2, 0, 1] (by decide)
  obtain ⟨hscale, hvalue⟩ := hg.route 0 (by decide) 1 3 (by decide)
  refine ⟨b, g, hb, (hl.route 0 (by decide) 1 3 (by decide)).1, ?_, hok, hscale 0 (by decide), hvalue 0 (by decide)⟩
  rw [hl.total]
  decide

/-- One token of one choice, with the first of two experts local and blocks of sixteen rows. -/
def singleSort : SortArgs Nat where
  m := 1
  topk := 1
  topkIds _ := 0
  topkWeights _ := 10
  expertMap e := if e = 0 then 0 else -1
  globalE := 2
  localE := 1
  bm := 16

/-- The tile of 32 rows goes on past the 16 rows of the buffer: the values of row 16 lie over the scale of row 0. -/
theorem singleSort_scale_lost : ∃ b g, singleSort.epSorting 2048 0 false [0] ⟨fun _ => 0#32, fun _ => 0, fun _ => 0,
    fun _ => 0, fun _ => 0⟩ = some b ∧
    epGatherSorted (fun _ => 0#8) (fun _ _ => 1#8) b.sortedIds 1 128 (b.nvalid ()) singleSort.bound [0] (fun _ => 0#8) =
      .ok g ∧ ¬Gathered singleSort 128 (fun _ => 0#8) (fun _ _ => 1#8) g := by
  have hvalid : singleSort.Valid :=
    ⟨by decide, by decide, ⟨4, rfl⟩, by decide, by decide, by decide, by decide, by decide⟩
  have horder : [0].Perm (List.range singleSort.localE) := by decide
  have hroutes : 0 < singleSort.routes ∧ singleSort.routes ≤ 2048 := by decide
  obtain ⟨b, hb, hl⟩ := exactLayout 0 false hvalid horder hroutes
    ⟨fun _ => 0#32, fun _ => 0, fun _ => 0, fun _ => 0, fun _ => 0⟩
  obtain ⟨g, hok⟩ : ∃ g, epGatherSorted (fun _ => 0#8) (fun _ _ => 1#8) b.sortedIds 1 128 (b.nvalid ()) singleSort.bound [0]
      (fun _ => 0#8) = .ok g := ⟨_, epGatherSorted_eq_ok.mpr ⟨by decide, rfl⟩⟩
  exact ⟨b, g, hb, hok, not_gathered_of_tiles hl (by decide) (by decide) hok⟩

end SortArgs

end EpMoe

end VllmHcu
