import Mathlib.Algebra.BigOperators.Group.Finset.Basic
import Mathlib.Algebra.Group.Action.Defs
import VllmHcu.Dsa.PlannerSound
import VllmHcu.Dsa.PackedLayout
import VllmHcu.Lib.Assoc

/-!
# Block counts

The planner charges every block with its packed bytes and with its share of the
broadcast scratch, whether it shrinks the packed layout or leaves the original
one. The scratch itself grows when a broadcast asks for more than it holds.

A planned pool has as many blocks as the memory holds of packed and scratch
bytes together, and `hcu_pool_bytes_per_block` is what one block takes, so a
plan for the bytes of `n` blocks has `n` blocks again.
-/

namespace VllmHcu.Dsa

section
variable {Name : Type}

def accountedBytes (layout : ShrunkLayout) : Nat := layout.totalNumBytesPerBlock + layout.bounceBytesPerBlock

variable (parseLayerIndex : Name → Option Int) (mayOverride : Nat → Nat) (totalLayers pcp : Nat)
  (groups : List (KVCacheGroup Name))

/-- What the original planner may use. -/
def bounceReservedMemory (availableMemory : Nat) : Except String Nat :=
  match shrunkLayout parseLayerIndex totalLayers pcp groups with
  | none => .ok availableMemory
  | some layout => do
    let _ ← budgetBlocks mayOverride layout availableMemory
    return availableMemory * layout.totalNumBytesPerBlock / accountedBytes layout

/-- The block count and the tensors of `hcu_get_kv_cache_config_from_groups`; `originalGroups` is vLLM's planner. -/
def hcuGetKvCacheConfigFromGroups (active : Bool)
    (originalGroups : Nat → Except String (Nat × List (KVCacheTensor Name))) (availableMemory : Nat) :
    Except String (Nat × List (KVCacheTensor Name)) :=
  if !active || groups.isEmpty then originalGroups availableMemory
  else do
    match ← shrunkPackedPlan parseLayerIndex mayOverride totalLayers pcp groups availableMemory with
    | none => originalGroups (← bounceReservedMemory parseLayerIndex mayOverride totalLayers pcp groups availableMemory)
    | some plan => return plan

/-- `_shrink_bytes`, with the floor division of Python. -/
def shrinkBytes (active : Bool) (fullValue : Nat) : Int :=
  if !active || groups.isEmpty then fullValue
  else
    match shrunkLayout parseLayerIndex totalLayers pcp groups with
    | none => fullValue
    | some layout => -((-(fullValue : Int) * accountedBytes layout).fdiv layout.fullBytes)

def hcuPoolBytesPerBlock (active : Bool) (originalPoolBytes : Nat) : Int :=
  shrinkBytes parseLayerIndex totalLayers pcp groups active originalPoolBytes

end

/-! ## Broadcast scratch -/

inductive Pool
  | sync
  | prefetch
deriving DecidableEq

/-- What the scratch depends on of a bound cache: `shape[0]`, the entries of `cache[0]` and the dtype. -/
structure CacheTensor where
  rows : Nat
  rowNumel : Nat
  dtype : String
  device : String

def CacheTensor.numel (c : CacheTensor) : Nat := c.rows * c.rowNumel

/-- The entries of each buffer, by pool, device and dtype. -/
abbrev BroadcastScratch : Type := List ((Pool × String × String) × Nat)

/-- `_scratch_for`, as the buffers that it leaves. -/
def scratchFor (scratch : BroadcastScratch) (cache : CacheTensor) (pool : Pool) (numel : Option Nat) : BroadcastScratch :=
  let n := numel.getD cache.numel
  let key := (pool, cache.device, cache.dtype)
  match scratch.lookup key with
  | some held => if held < n then insertKey key (max n cache.numel) scratch else scratch
  | none => insertKey key (max n cache.numel) scratch

/-- A broadcast through the scratch: of the whole cache, or of some of its blocks. -/
inductive ScratchRequest
  | full (pool : Pool) (cache : CacheTensor)
  | blocks (pool : Pool) (cache : CacheTensor) (blockIds : List Nat)

def ScratchRequest.cache : ScratchRequest → CacheTensor
  | .full _ cache => cache
  | .blocks _ cache _ => cache

def broadcastScratch (scratch : BroadcastScratch) : ScratchRequest → BroadcastScratch
  | .full pool cache => scratchFor scratch cache pool none
  | .blocks pool cache blockIds => scratchFor scratch cache pool (some (blockIds.length * cache.rowNumel))

/-- The bytes held, for the size of an entry of a dtype. -/
def scratchBytes (elementSize : String → Nat) (scratch : BroadcastScratch) : Nat :=
  (scratch.map fun b => b.2 * elementSize b.1.2.2).sum

section
variable {Name : Type} {parse : Name → Option Int} {mayOverride : Nat → Nat} {totalLayers pcp : Nat}
  {groups : List (KVCacheGroup Name)} {layout : ShrunkLayout}

/-- The bytes of a page of every layer. -/
def fullPageBytes (groups : List (KVCacheGroup Name)) : Nat := ((plannedLayers groups).map (·.2)).sum

theorem plannedBucket_length (ps : Nat) : (plannedBucket groups ps).length = ((plannedLayers groups).map (·.2)).count ps := by
  unfold plannedBucket
  rw [List.length_map, List.count, List.countP_map, List.countP_eq_length_filter]
  rfl

theorem plannedFullBytes_eq : plannedFullBytes groups = fullPageBytes groups := by
  have hnodup : (plannedPageSizes groups).Nodup := (List.perm_insertionSort _ _).nodup_iff.mpr (List.nodup_dedup _)
  unfold plannedFullBytes fullPageBytes
  rw [← List.sum_toFinset _ hnodup, Finset.sum_list_count]
  apply Finset.sum_congr
  · ext ps
    simp [plannedPageSizes]
  · intro ps _
    rw [plannedBucket_length, smul_eq_mul, Nat.mul_comm]

theorem shrunkLayout_some (h : shrunkLayout parse totalLayers pcp groups = some layout) :
    groups ≠ [] ∧ 0 < plannedBytes parse totalLayers pcp groups ∧ layout.fullBytes = plannedFullBytes groups ∧
      layout.bounceBytesPerBlock = bounceBytesPerBlock groups (plannedPageSizes groups) ∧
      layout.totalNumBytesPerBlock = if layout.shrunk then
        alignPackedBlockStride (plannedBytes parse totalLayers pcp groups) groups else plannedFullBytes groups := by
  unfold shrunkLayout at h
  split at h
  · cases h
  · dsimp only at h
    split at h
    · cases h
    · rename_i hb
      cases h
      refine ⟨?_, Nat.pos_of_ne_zero hb, rfl, rfl, rfl⟩
      rintro rfl
      exact hb rfl

theorem plannedFullBytes_pos (h : 0 < plannedBytes parse totalLayers pcp groups) : 0 < plannedFullBytes groups := by
  by_contra h0
  have hfull := Nat.eq_zero_of_not_pos h0
  rw [plannedFullBytes, List.sum_eq_zero_iff_forall_eq_nat] at hfull
  apply h.ne'
  rw [plannedBytes, List.sum_eq_zero_iff_forall_eq_nat]
  intro x hx
  obtain ⟨ps, hps, rfl⟩ := List.mem_map.mp hx
  obtain ⟨n, hn⟩ := mem_plannedPageSizes.mp hps
  have hlen : (plannedBucket groups ps).length ≠ 0 :=
    (List.length_pos_of_mem (mem_plannedBucket.mpr hn)).ne'
  have hps0 := (Nat.mul_eq_zero.mp (hfull _ (List.mem_map.mpr ⟨ps, hps, rfl⟩))).resolve_right hlen
  rw [hps0, Nat.zero_mul]

theorem totalNumBytesPerBlock_pos (h : shrunkLayout parse totalLayers pcp groups = some layout) :
    0 < layout.totalNumBytesPerBlock := by
  obtain ⟨-, hb, -, -, htotal⟩ := shrunkLayout_some h
  rw [htotal]
  split
  · exact lt_of_lt_of_le hb (le_align _ _)
  · exact plannedFullBytes_pos hb

/-! ## The two divisions of the original layout -/

theorem budget_of_reserved (m : Nat) {p : Nat} (b : Nat) (hp : 0 < p) : m * p / (p + b) / p = m / (p + b) := by
  rw [Nat.div_div_eq_div_mul, Nat.mul_div_mul_right _ _ hp]

theorem budgetBlocks_eq (hov : ∀ n, mayOverride n = n) (m : Nat) :
    budgetBlocks mayOverride layout m = .ok (m / accountedBytes layout) := by
  unfold budgetBlocks accountedBytes
  simp [hov]

variable {original : Nat → Except String (Nat × List (KVCacheTensor Name))}

theorem config_blocks (hl : shrunkLayout parse totalLayers pcp groups = some layout) (hov : ∀ n, mayOverride n = n)
    (horiginal : ∀ m, ∃ tensors, original m = .ok (m / fullPageBytes groups, tensors)) (m : Nat) :
    ∃ tensors, hcuGetKvCacheConfigFromGroups parse mayOverride totalLayers pcp groups true original m =
      .ok (m / accountedBytes layout, tensors) := by
  obtain ⟨hne, hb, -, -, htotal⟩ := shrunkLayout_some hl
  have hgroups : groups.isEmpty = false := by
    rw [List.isEmpty_eq_false_iff]
    exact hne
  unfold hcuGetKvCacheConfigFromGroups
  rw [hgroups]
  unfold shrunkPackedPlan bounceReservedMemory
  rw [hl]
  cases hs : layout.shrunk with
  | true =>
    simp only [hs, budgetBlocks_eq hov]
    exact ⟨_, rfl⟩
  | false =>
    simp only [hs, budgetBlocks_eq hov]
    obtain ⟨tensors, ht⟩ := horiginal (m * layout.totalNumBytesPerBlock / accountedBytes layout)
    refine ⟨tensors, ht.trans ?_⟩
    rw [hs, if_neg Bool.false_ne_true] at htotal
    rw [← plannedFullBytes_eq, ← htotal, accountedBytes, budget_of_reserved _ _ (totalNumBytesPerBlock_pos hl)]

theorem poolBytes_eq (hl : shrunkLayout parse totalLayers pcp groups = some layout) :
    hcuPoolBytesPerBlock parse totalLayers pcp groups true (fullPageBytes groups) = accountedBytes layout := by
  obtain ⟨hne, hb, hfull, -, -⟩ := shrunkLayout_some hl
  have hgroups : groups.isEmpty = false := by
    rw [List.isEmpty_eq_false_iff]
    exact hne
  have hpos : (layout.fullBytes : Int) ≠ 0 := by
    have := plannedFullBytes_pos hb
    omega
  unfold hcuPoolBytesPerBlock shrinkBytes
  rw [hgroups, hl, ← plannedFullBytes_eq, ← hfull]
  change -((-(layout.fullBytes : Int) * accountedBytes layout).fdiv layout.fullBytes) = _
  rw [Int.neg_mul, Int.mul_comm, ← Int.neg_mul, Int.mul_fdiv_cancel _ hpos, Int.neg_neg]

/-- The block count is the memory over the bytes of a block, and the bytes of `n` blocks plan `n` blocks. -/
theorem planned_blocks_stable (hl : shrunkLayout parse totalLayers pcp groups = some layout)
    (hov : ∀ n, mayOverride n = n) (horiginal : ∀ m, ∃ tensors, original m = .ok (m / fullPageBytes groups, tensors)) :
    (∀ m, ∃ tensors, hcuGetKvCacheConfigFromGroups parse mayOverride totalLayers pcp groups true original m =
        .ok (m / (layout.totalNumBytesPerBlock + layout.bounceBytesPerBlock), tensors) ∧
      m / (layout.totalNumBytesPerBlock + layout.bounceBytesPerBlock) *
        (layout.totalNumBytesPerBlock + layout.bounceBytesPerBlock) ≤ m) ∧
    ∃ bytes : Nat, hcuPoolBytesPerBlock parse totalLayers pcp groups true (fullPageBytes groups) = bytes ∧
      ∀ n, ∃ tensors, hcuGetKvCacheConfigFromGroups parse mayOverride totalLayers pcp groups true original (n * bytes) =
        .ok (n, tensors) := by
  constructor
  · intro m
    obtain ⟨tensors, ht⟩ := config_blocks hl hov horiginal m
    exact ⟨tensors, ht, Nat.div_mul_le_self _ _⟩
  · refine ⟨accountedBytes layout, poolBytes_eq hl, fun n => ?_⟩
    obtain ⟨tensors, ht⟩ := config_blocks hl hov horiginal (n * accountedBytes layout)
    have hpos : 0 < accountedBytes layout := Nat.add_pos_left (totalNumBytesPerBlock_pos hl) _
    exact ⟨tensors, by rw [ht, Nat.mul_div_cancel _ hpos]⟩

end

/-- Layers 0 to 3 and a draft layer 4 on two ranks: the layout shrinks. -/
theorem planned_blocks_stable_draft_layer : ∃ layout, shrunkLayout lastDigit 4 2 draftConfig.kvCacheGroups = some layout ∧
    layout.shrunk = true ∧ ∃ bytes : Nat,
      hcuPoolBytesPerBlock lastDigit 4 2 draftConfig.kvCacheGroups true (fullPageBytes draftConfig.kvCacheGroups) = bytes ∧
      ∀ n, ∃ tensors, hcuGetKvCacheConfigFromGroups lastDigit id 4 2 draftConfig.kvCacheGroups true
        (fun m => .ok (m / fullPageBytes draftConfig.kvCacheGroups, [])) (n * bytes) = .ok (n, tensors) := by
  have hsome : ((shrunkLayout lastDigit 4 2 draftConfig.kvCacheGroups).map (·.shrunk)) = some true := by decide +kernel
  obtain ⟨layout, hl, hs⟩ := Option.map_eq_some_iff.mp hsome
  exact ⟨layout, hl, hs, (planned_blocks_stable hl (fun _ => rfl) fun m => ⟨[], rfl⟩).2⟩

end VllmHcu.Dsa
