import Mathlib.Data.List.Flatten
import Mathlib.Data.List.Nodup
import Mathlib.Data.List.Perm.Basic
import Mathlib.Tactic.Common
import Mathlib.Tactic.Ring

/-!
# Strided loops

The values that a loop with a step runs through, and the elements that the
threads of one block of a grid visit.
-/

namespace VllmHcu

def cdiv (a b : Nat) : Nat := (a + b - 1) / b

theorem le_cdiv_mul (a : Nat) {b : Nat} (hb : 0 < b) : a ≤ cdiv a b * b := by
  unfold cdiv
  have hdm := Nat.div_add_mod (a + b - 1) b
  have hlt := Nat.mod_lt (a + b - 1) hb
  have : (a + b - 1) / b * b = b * ((a + b - 1) / b) := Nat.mul_comm _ _
  omega

theorem lt_cdiv {a b i : Nat} (hb : 0 < b) : i < cdiv a b ↔ i * b < a := by
  unfold cdiv
  rw [Nat.lt_iff_add_one_le, Nat.le_div_iff_mul_le hb, Nat.add_mul]
  omega

/-- The least multiple of `y` that is not below `x`. -/
def roundUp (x y : Nat) : Nat := cdiv x y * y

theorem le_roundUp (x : Nat) {y : Nat} (hy : 0 < y) : x ≤ roundUp x y := le_cdiv_mul x hy

theorem roundUp_le (x : Nat) {y : Nat} (hy : 0 < y) : roundUp x y ≤ x + (y - 1) := by
  have := Nat.div_mul_le_self (x + y - 1) y
  unfold roundUp cdiv
  omega

theorem dvd_roundUp (x y : Nat) : y ∣ roundUp x y := Nat.dvd_mul_left ..

theorem roundUp_zero {y : Nat} (hy : 0 < y) : roundUp 0 y = 0 := by
  unfold roundUp cdiv
  rw [Nat.div_eq_of_lt (by omega), Nat.zero_mul]

/-- `for (i = lo; i < hi; i += step)`, or Python's `range(lo, hi, step)` -/
def strided (lo hi step : Nat) : List Nat := (List.range (cdiv (hi - lo) step)).map fun i => lo + i * step

theorem mem_strided {lo hi step x : Nat} (hs : 0 < step) :
    x ∈ strided lo hi step ↔ ∃ i, x = lo + i * step ∧ x < hi := by
  unfold strided
  simp only [List.mem_map, List.mem_range, lt_cdiv hs]
  constructor
  · rintro ⟨i, hi, rfl⟩
    exact ⟨i, rfl, by omega⟩
  · rintro ⟨i, rfl, hx⟩
    exact ⟨i, by omega, rfl⟩

theorem strided_nodup (lo hi : Nat) {step : Nat} (hs : 0 < step) : (strided lo hi step).Nodup := by
  apply List.nodup_range.map
  intro i j h
  exact Nat.eq_of_mul_eq_mul_right hs (Nat.add_left_cancel h)

/-- Workers that start one apart share out a range. -/
theorem exists_worker {lo hi workers x : Nat} (hw : 0 < workers) :
    (∃ worker < workers, x ∈ strided (lo + worker) hi workers) ↔ lo ≤ x ∧ x < hi := by
  simp only [mem_strided hw]
  constructor
  · rintro ⟨worker, -, i, rfl, hx⟩
    exact ⟨by omega, hx⟩
  · rintro ⟨hlo, hhi⟩
    refine ⟨(x - lo) % workers, Nat.mod_lt _ hw, (x - lo) / workers, ?_, hhi⟩
    have := Nat.mod_add_div (x - lo) workers
    rw [Nat.mul_comm workers] at this
    omega

theorem strided_perm_filter (n : Nat) {g p : Nat} (hp : p < g) :
    (strided p n g).Perm ((List.range n).filter fun x => x % g = p) := by
  refine (List.perm_ext_iff_of_nodup (strided_nodup p n (by omega)) (List.nodup_range.filter _)).mpr fun x => ?_
  rw [mem_strided (by omega), List.mem_filter, List.mem_range, decide_eq_true_eq]
  constructor
  · intro ⟨i, hx, hlt⟩
    refine ⟨hlt, ?_⟩
    rw [hx, Nat.add_mul_mod_self_right, Nat.mod_eq_of_lt hp]
  · intro ⟨hlt, hmod⟩
    refine ⟨x / g, ?_, hlt⟩
    rw [← hmod, Nat.mul_comm]
    exact (Nat.mod_add_div x g).symm

theorem flatMap_range' (lo b n : Nat) : (List.range n).flatMap (fun i => List.range' (lo + i * b) b) = List.range' lo (n * b) := by
  induction n with
  | zero => simp
  | succ n ih =>
    have hmul : n * b + b = (n + 1) * b := (Nat.succ_mul n b).symm
    rw [List.range_succ, List.flatMap_append, ih, List.flatMap_singleton, List.range'_append_1, hmul]

/-- A loop over tiles of `b` lanes runs through all lanes in order, the last tile past the end. -/
theorem flatMap_strided (lo hi b : Nat) :
    (strided lo hi b).flatMap (fun base => List.range' base b) = List.range' lo (cdiv (hi - lo) b * b) := by
  unfold strided
  rw [List.flatMap_map, flatMap_range']

/-- The elements from `lo` to `hi` that block `b` of a grid of `blocks` blocks visits, thread by thread. -/
def gridElems (threads blocks b lo hi : Nat) : List Nat :=
  (List.range threads).flatMap fun t => strided (lo + b * threads + t) hi (blocks * threads)

theorem mem_gridElems {threads blocks b lo hi x : Nat} (ht : 0 < threads) (hb : b < blocks) :
    x ∈ gridElems threads blocks b lo hi ↔ lo ≤ x ∧ x < hi ∧ (x - lo) / threads % blocks = b := by
  have hs : 0 < blocks * threads := Nat.mul_pos (by omega) ht
  unfold gridElems
  simp only [List.mem_flatMap, List.mem_range, mem_strided hs]
  constructor
  · rintro ⟨t, htt, i, rfl, hx⟩
    refine ⟨by omega, hx, ?_⟩
    have hform : lo + b * threads + t + i * (blocks * threads) - lo = (b + i * blocks) * threads + t := by
      rw [Nat.add_mul, Nat.mul_assoc i blocks threads]
      omega
    rw [hform, Nat.add_comm, Nat.add_mul_div_right _ _ ht, Nat.div_eq_of_lt htt, Nat.zero_add, Nat.add_mul_mod_self_right,
      Nat.mod_eq_of_lt hb]
  · rintro ⟨hlo, hx, hmod⟩
    refine ⟨(x - lo) % threads, Nat.mod_lt _ ht, (x - lo) / threads / blocks, ?_, hx⟩
    have h₁ := Nat.div_add_mod (x - lo) threads
    have h₂ := Nat.div_add_mod ((x - lo) / threads) blocks
    rw [hmod] at h₂
    have h₃ : (x - lo) / threads / blocks * (blocks * threads) + b * threads = threads * ((x - lo) / threads) := by
      calc (x - lo) / threads / blocks * (blocks * threads) + b * threads
          = threads * (blocks * ((x - lo) / threads / blocks) + b) := by ring
        _ = threads * ((x - lo) / threads) := by rw [h₂]
    omega

/-! ## Tiles from both ends -/

/-- The part of tile `k` that is below `q`. -/
def tile (lo q c k : Nat) : List Nat := List.range' (lo + min q (k * c)) (min q ((k + 1) * c) - min q (k * c))

theorem flatMap_tile (lo q c n : Nat) : (List.range n).flatMap (tile lo q c) = List.range' lo (min q (n * c)) := by
  induction n with
  | zero => simp
  | succ n ih =>
    rw [List.range_succ, List.flatMap_append, ih, List.flatMap_singleton]
    unfold tile
    rw [List.range'_append_1]
    have : n * c ≤ (n + 1) * c := Nat.mul_le_mul_right c (Nat.le_succ n)
    congr 1
    omega

/-- A loop over tiles of `b` elements, the last tile cut at `n`. -/
theorem flatMap_strided_min (n : Nat) {b : Nat} (hb : 0 < b) :
    (strided 0 n b).flatMap (fun base => List.range' base (min (base + b) n - base)) = List.range n := by
  have htile : ∀ k ∈ List.range (cdiv (n - 0) b), List.range' (0 + k * b) (min (0 + k * b + b) n - (0 + k * b)) = tile 0 n b k := by
    intro k hk
    have hlt : k * b < n := (lt_cdiv hb).mp (List.mem_range.mp hk)
    rw [tile, Nat.min_eq_right hlt.le, Nat.succ_mul, Nat.zero_add, Nat.min_comm]
  have hall : min n (cdiv (n - 0) b * b) = n := Nat.min_eq_left (le_cdiv_mul n hb)
  unfold strided
  rw [List.flatMap_map, List.flatMap_congr htile, flatMap_tile, hall, List.range_eq_range']

/-- One tile from each end, for each of `n` owners. -/
theorem flatMap_ends_perm {α : Type*} (n : Nat) (f : Nat → List α) :
    ((List.range n).flatMap fun r => f r ++ f (2 * n - 1 - r)).Perm ((List.range (2 * n)).flatMap f) := by
  have hrev : ((List.range n).map fun r => 2 * n - 1 - r) = (List.range' n n).reverse := by
    rw [List.reverse_range']
    apply List.map_congr_left
    intro r _
    omega
  have hsplit : List.range (2 * n) = List.range n ++ List.range' n n := by
    rw [List.range_eq_range', List.range_eq_range', two_mul, ← List.range'_append_1, Nat.zero_add]
  refine (List.flatMap_append_perm _ _ _).symm.trans ?_
  rw [hsplit, List.flatMap_append]
  apply List.Perm.append_left
  rw [← List.flatMap_map (fun r => 2 * n - 1 - r) f, hrev]
  exact (List.reverse_perm _).flatMap_right f

end VllmHcu
