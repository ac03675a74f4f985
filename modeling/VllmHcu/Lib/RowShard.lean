import VllmHcu.Lib.Bounds
import VllmHcu.Lib.Ragged
import VllmHcu.Lib.RowMajor
import Mathlib.Algebra.BigOperators.Group.Finset.Basic
import Mathlib.Algebra.BigOperators.Group.Finset.Sigma

/-!
# Rows split over a group of ranks

Every rank holds a contiguous tensor as a function of its flat position. A
reduction adds the tensors of all ranks, exactly.

A tensor is the list of its rows. The shards of a group and the full tensor agree
on every real row; a padding row of a shard holds anything.
-/

namespace VllmHcu

section
variable {M : Type*} [AddCommMonoid M]

/-- `all_reduce`: the sum over the ranks. -/
def allReduce (ranks : Nat) (x : Nat → Nat → M) : Nat → M := fun n => ∑ q ∈ Finset.range ranks, x q n

/-- `reduce_scatter(dim=0)`: rank `rank` gets `size` entries of the sum. -/
def reduceScatter (ranks size : Nat) (x : Nat → Nat → M) (rank : Nat) : Nat → M :=
  fun n => allReduce ranks x (rank * size + n)

/-- A sum over the positions of `a` blocks of `w` entries, block by block. -/
theorem sum_blocks (a w : Nat) (f : Nat → M) :
    ∑ k ∈ Finset.range (a * w), f k = ∑ i ∈ Finset.range a, ∑ o ∈ Finset.range w, f (i * w + o) := by
  induction a with
  | zero => simp
  | succ a ih => rw [Nat.succ_mul, Finset.sum_range_add, ih, Finset.sum_range_succ]

end

section
variable {α β γ : Type*}

/-- `pad(x, (0, n), value=value)` along the rows. -/
def padRows (x : List α) (n : Nat) (value : α) : List α := x ++ List.replicate n value

/-- `all_gather(dim=0)`: the shards in rank order. -/
def allGatherRows (ranks : Nat) (x : Nat → List α) : List α := ((List.range ranks).map x).flatten

/-- `x.index_select(0, idx)`, for `idx` within the rows of `x`. -/
def indexSelect [Zero α] (x : List α) (idx : List Nat) : List α := idx.map fun i => x.getD i 0

/-- The shards `x` of `size` rows hold the `n` rows of `full`, shard after shard. -/
structure Sharded (ranks size n : Nat) (x : Nat → List α) (full : List α) : Prop where
  covers : n ≤ ranks * size
  rows : full.length = n
  length : ∀ r < ranks, (x r).length = size
  row : ∀ r < ranks, ∀ i < size, r * size + i < n → (x r)[i]? = full[r * size + i]?

variable {ranks size n : Nat} {x : Nat → List α} {full : List α}

/-- Shards of the same size with the same real rows, whatever their padding rows. -/
def SameRows (ranks size n : Nat) (x' x : Nat → List α) : Prop :=
  ∀ r < ranks, (x' r).length = size ∧ ∀ i < size, r * size + i < n → (x' r)[i]? = (x r)[i]?

theorem Sharded.of_sameRows {x' : Nat → List α} (h : Sharded ranks size n x full) (hs : SameRows ranks size n x' x) :
    Sharded ranks size n x' full where
  covers := h.covers
  rows := h.rows
  length r hr := (hs r hr).1
  row r hr i hi hlt := ((hs r hr).2 i hi hlt).trans (h.row r hr i hi hlt)

theorem Sharded.congr (h : Sharded ranks size n x full) {x' : Nat → List α} (heq : ∀ r < ranks, x' r = x r) :
    Sharded ranks size n x' full :=
  h.of_sameRows fun r hr => by simpa [heq r hr] using h.length r hr

theorem Sharded.map (h : Sharded ranks size n x full) (f : α → β) :
    Sharded ranks size n (fun r => (x r).map f) (full.map f) where
  covers := h.covers
  rows := by simpa using h.rows
  length r hr := by simpa using h.length r hr
  row r hr i hi hlt := by simp only [List.getElem?_map, h.row r hr i hi hlt]

theorem Sharded.zipWith {y : Nat → List β} {full' : List β} (hx : Sharded ranks size n x full)
    (hy : Sharded ranks size n y full') (f : α → β → γ) :
    Sharded ranks size n (fun r => List.zipWith f (x r) (y r)) (List.zipWith f full full') where
  covers := hx.covers
  rows := by simp [hx.rows, hy.rows]
  length r hr := by simp [hx.length r hr, hy.length r hr]
  row r hr i hi hlt := by simp only [List.getElem?_zipWith, hx.row r hr i hi hlt, hy.row r hr i hi hlt]

theorem Sharded.replicate (h : n ≤ ranks * size) (value : α) :
    Sharded ranks size n (fun _ => List.replicate size value) (List.replicate n value) where
  covers := h
  rows := List.length_replicate
  length _ _ := List.length_replicate
  row r _ i hi hlt := by rw [List.getElem?_replicate, List.getElem?_replicate, if_pos hi, if_pos hlt]

/-- The contiguous row windows of a padded tensor. -/
theorem Sharded.window {pad : Nat} (value : α) (hfull : full.length = n) (hpad : n + pad = ranks * size) :
    Sharded ranks size n (fun r => sliceAt (padRows full pad value) (r * size) size) full where
  covers := by omega
  rows := hfull
  length r hr := by
    have hend : r * size + size ≤ ranks * size := by
      rw [← Nat.succ_mul]
      exact Nat.mul_le_mul_right _ hr
    simp only [sliceAt, padRows, List.length_take, List.length_drop, List.length_append, List.length_replicate]
    omega
  row r hr i hi hlt := by
    simp only [sliceAt, padRows, List.getElem?_take, if_pos hi, List.getElem?_drop]
    exact List.getElem?_append_left (by rwa [hfull])

theorem allGatherRows_length (h : ∀ r < ranks, (x r).length = size) : (allGatherRows ranks x).length = ranks * size := by
  have hmap : (List.range ranks).map (List.length ∘ x) = (List.range ranks).map fun _ => size :=
    List.map_congr_left fun r hr => h r (List.mem_range.mp hr)
  rw [allGatherRows, List.length_flatten, List.map_map, hmap]
  simp

theorem allGatherRows_getElem? (h : ∀ r < ranks, (x r).length = size) {r i : Nat} (hr : r < ranks) (hi : i < size) :
    (allGatherRows ranks x)[r * size + i]? = (x r)[i]? := by
  have hlen : ∀ p ∈ (List.range ranks).map x, p.length = size := by
    intro p hp
    obtain ⟨q, hq, rfl⟩ := List.mem_map.mp hp
    exact h q (List.mem_range.mp hq)
  rw [allGatherRows, flatten_getElem?_of_length hlen r hi]
  simp [hr]

/-- Gathering the shards and cutting the padding off gives the full tensor. -/
theorem Sharded.gather (h : Sharded ranks size n x full) : (allGatherRows ranks x).take n = full := by
  refine List.ext_getElem? fun g => ?_
  rw [List.getElem?_take]
  by_cases hg : g < n
  · have hpos : 0 < size := by
      refine Nat.pos_of_ne_zero fun hzero => ?_
      have hcov := h.covers
      rw [hzero, Nat.mul_zero] at hcov
      omega
    have hr : g / size < ranks := by
      refine Nat.div_lt_of_lt_mul ?_
      rw [Nat.mul_comm]
      exact lt_of_lt_of_le hg h.covers
    have hmod := Nat.mod_lt g hpos
    have hsplit : g / size * size + g % size = g := by
      rw [Nat.mul_comm]
      exact Nat.div_add_mod g size
    rw [if_pos hg, ← hsplit, allGatherRows_getElem? h.length hr hmod]
    exact h.row _ hr _ hmod (by rwa [hsplit])
  · have hrows := h.rows
    rw [if_neg hg, List.getElem?_eq_none (by omega)]

section
variable {M : Type*} [AddCommMonoid M] {parts full' : Nat → List M}

/-- `all_reduce` of tensors of one length. -/
def allReduceRows (ranks : Nat) (x : Nat → List M) : List M :=
  (List.range (x 0).length).map (allReduce ranks fun q i => (x q).getD i 0)

/-- `reduce_scatter(dim=0)`: rank `rank` gets its share of the rows of the sum. -/
def reduceScatterRows (ranks : Nat) (x : Nat → List M) (rank : Nat) : List M :=
  (List.range ((x rank).length / ranks)).map
    (reduceScatter ranks ((x rank).length / ranks) (fun q i => (x q).getD i 0) rank)

/-- Scattering the sum of longer tensors shards the sum of their first `n` rows. -/
theorem Sharded.reduceScatter (hranks : 0 < ranks) (hlen : ∀ q < ranks, (parts q).length = ranks * size)
    (htake : ∀ q < ranks, (parts q).take n = full' q) (hn : n ≤ ranks * size) :
    Sharded ranks size n (reduceScatterRows ranks parts) (allReduceRows ranks full') := by
  have hfull : (allReduceRows ranks full').length = n := by
    rw [allReduceRows, List.length_map, List.length_range, ← htake 0 hranks, List.length_take, hlen 0 hranks]
    exact Nat.min_eq_left hn
  have hshare : ∀ r < ranks, (parts r).length / ranks = size := by
    intro r hr
    rw [hlen r hr]
    exact Nat.mul_div_cancel_left _ hranks
  refine ⟨hn, hfull, fun r hr => ?_, fun r hr i hi hlt => ?_⟩
  · rw [reduceScatterRows, List.length_map, List.length_range, hshare r hr]
  · have hlen' : (full' 0).length = n := by
      rw [← htake 0 hranks, List.length_take, hlen 0 hranks]
      exact Nat.min_eq_left hn
    simp only [reduceScatterRows, allReduceRows, List.getElem?_map, hshare r hr, List.getElem?_range hi, hlen',
      List.getElem?_range hlt, Option.map_some, VllmHcu.reduceScatter, allReduce]
    refine congrArg some (Finset.sum_congr rfl fun q hq => ?_)
    rw [← htake q (Finset.mem_range.mp hq)]
    simp only [List.getD_eq_getElem?_getD, List.getElem?_take, if_pos hlt]

end

end

end VllmHcu
