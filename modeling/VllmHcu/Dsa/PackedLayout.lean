import Mathlib.Data.List.Sort
import Mathlib.Data.List.Dedup
import Mathlib.Algebra.GCDMonoid.Nat
import Mathlib.Data.Nat.Basic
import Mathlib.Tactic.Ring

/-!
# Packed KV layouts

Backbone layers are split over the PCP ranks in contiguous ranges; the first
`total_layers % shard_size` ranks own one layer more. Layers outside the
backbone are replicated on every rank.

One block of a packed pool holds every page-size family: its owned layers, one
scratch slot and its replicated layers. The worker derives the slots of its rank
from the shared configuration (`remap_packed_kv_tensor_offsets`).
-/

namespace VllmHcu.Dsa

/-- `get_layer_shard_range`, on the ranks it accepts. -/
def getLayerShardRange (rank shardSize totalLayers : Nat) : Nat × Nat :=
  let base := totalLayers / shardSize
  let rem := totalLayers % shardSize
  let start := rank * base + min rank rem
  (start, start + base + if rank < rem then 1 else 0)

/-- `LayerSplitState` of a worker; `get_runtime_layer_split_state` builds it only for more than one
rank, always with `start_layer = 0`. -/
structure LayerSplitState where
  shardRank : Nat
  shardSize : Nat
  totalLayers : Nat
  one_lt_shardSize : 1 < shardSize
  shardRank_lt : shardRank < shardSize

namespace LayerSplitState
variable (state : LayerSplitState)

def covers (layerIdx : Int) : Bool := decide (0 ≤ layerIdx ∧ layerIdx < state.totalLayers)

def ownedRange : Nat × Nat := getLayerShardRange state.shardRank state.shardSize state.totalLayers

def isOwned (layerIdx : Int) : Bool :=
  if state.covers layerIdx then decide (state.ownedRange.1 ≤ layerIdx ∧ layerIdx < state.ownedRange.2)
  else true

end LayerSplitState

/-! ## Slots of a family -/

/-- `sorted` of a set built from a list. -/
def sortedSet (l : List Int) : List Int := l.dedup.insertionSort (· ≤ ·)

def backboneOf (totalLayers : Nat) (indices : List Int) : List Int :=
  sortedSet (indices.filter fun i => 0 ≤ i ∧ i < totalLayers)

def extrasOf (totalLayers : Nat) (indices : List Int) : List Int :=
  sortedSet (indices.filter fun i => (totalLayers : Int) ≤ i)

def ownedOf (range : Nat × Nat) (indices : List Int) : List Int :=
  indices.filter fun i => range.1 ≤ i ∧ i < range.2

/-- `max_owned_count_for_layers` of a set, given without repetitions. -/
def maxOwnedCountForLayers (layerIndices : List Int) (totalLayers shardSize : Nat) : Nat :=
  if layerIndices = [] ∨ shardSize ≤ 1 then layerIndices.length
  else
    (List.range shardSize).foldl (fun maxOwned rank =>
      max maxOwned (ownedOf (getLayerShardRange rank shardSize totalLayers) layerIndices).length) 0

def physSlotsForLayerFamily (layerIndices : List Int) (totalLayers shardSize : Nat) : Nat :=
  let backbone := backboneOf totalLayers layerIndices
  -- a layer listed twice counts twice here
  let nExtra := (layerIndices.filter fun i => (totalLayers : Int) ≤ i).length
  if backbone = [] ∨ shardSize ≤ 1 then layerIndices.length
  else maxOwnedCountForLayers backbone totalLayers shardSize + 1 + nExtra

/-- `list.index`, with the error text of the failing lookup. -/
def indexOf (l : List Int) (i : Int) (msg : String) : Except String Nat :=
  if i ∈ l then .ok (l.idxOf i) else .error msg

def localPackedSlotForFamilyLayer (state : LayerSplitState) (layerIdx : Int)
    (familyLayerIndices : List Int) : Except String Nat :=
  let backbone := backboneOf state.totalLayers familyLayerIndices
  let extras := extrasOf state.totalLayers familyLayerIndices
  if backbone = [] ∨ state.shardSize ≤ 1 then
    indexOf familyLayerIndices layerIdx "layer_idx not in family"
  else
    let scratch := maxOwnedCountForLayers backbone state.totalLayers state.shardSize
    if (state.totalLayers : Int) ≤ layerIdx then do
      let i ← indexOf extras layerIdx "extra layer_idx not in family extras"
      return scratch + 1 + i
    else if layerIdx ∉ backbone then .error "layer_idx not in family backbone"
    else if state.isOwned layerIdx = false then .ok scratch
    else indexOf (ownedOf state.ownedRange backbone) layerIdx "owned layer_idx not in family"

/-! ## Shared configuration -/

/-- The fields of a layer's cache spec that the layout reads. -/
structure KVCacheSpec where
  pageSizeBytes : Nat
  blockSize : Nat := 0
  dtype : Option String := none
  pageSize_pos : 0 < pageSizeBytes

/-- A cache group; `kvCacheSpecs` is the per-layer map of a uniform-type spec, empty when absent. -/
structure KVCacheGroup (Name : Type) where
  layerNames : List Name
  kvCacheSpec : KVCacheSpec
  kvCacheSpecs : List (Name × KVCacheSpec) := []

/-- The identity of a packed allocation. -/
inductive BackingId
  | layerSplit (pageSizes : List Nat) (blockStride numBlocks : Nat)
  | other (tag : Nat)

/-- A cache tensor; `blockStride` is 0 when it is not packed. -/
structure KVCacheTensor (Name : Type) where
  size : Nat
  layerNames : List Name
  layerStride : Nat := 0
  offset : Nat := 0
  blockStride : Nat := 0
  backingId : Option BackingId := none

structure KVCacheConfig (Name : Type) where
  kvCacheTensors : List (KVCacheTensor Name)
  kvCacheGroups : List (KVCacheGroup Name)
  remapApplied : Bool := false

section
variable {Name : Type} [DecidableEq Name]

/-- `_layer_page_sizes`, a map from names. -/
def layerPageSizes (groups : List (KVCacheGroup Name)) : Name → Option Nat :=
  groups.foldl (fun (layerPs : Name → Option Nat) group =>
    let layerPs := group.kvCacheSpecs.foldl
      (fun (layerPs : Name → Option Nat) e => Function.update layerPs e.1 (some e.2.pageSizeBytes)) layerPs
    group.layerNames.foldl (fun (layerPs : Name → Option Nat) name =>
      if (layerPs name).isSome then layerPs
      else Function.update layerPs name (some group.kvCacheSpec.pageSizeBytes)) layerPs)
    fun _ => none

/-- `_infer_page_size_from_packed`: the gcd of the gaps between the offsets of one stride. -/
def inferPageSizeFromPacked (packed : List (KVCacheTensor Name)) (layerName : Name) : Option Nat :=
  match packed.find? fun t => decide (layerName ∈ t.layerNames) with
  | none => none
  | some t₀ =>
    let offsets := ((packed.filter fun t => t.blockStride == t₀.blockStride).map (·.offset)).dedup.insertionSort
      (· ≤ ·)
    let gaps := (offsets.zip offsets.tail).map fun ab => ab.2 - ab.1
    match gaps with
    | [] => none
    | g :: gs =>
      let g := gs.foldl Nat.gcd g
      if 0 < g then some g else none

/-- The names in order of their first occurrence (the loop over `seen`). -/
def firstSeen : List Name → List Name
  | [] => []
  | name :: names => name :: (firstSeen names).filter (· ≠ name)

def packedTensors (tensors : List (KVCacheTensor Name)) : List (KVCacheTensor Name) :=
  tensors.filter fun t => decide (0 < t.blockStride)

def packedNames (tensors : List (KVCacheTensor Name)) : List Name :=
  firstSeen ((packedTensors tensors).flatMap (·.layerNames))

/-- The page size the remap resolves for a packed layer. -/
def KVCacheConfig.pageSize (cfg : KVCacheConfig Name) (name : Name) : Option Nat :=
  match layerPageSizes cfg.kvCacheGroups name with
  | some ps => some ps
  | none => inferPageSizeFromPacked (packedTensors cfg.kvCacheTensors) name

/-- `buckets[page_size]`. -/
def bucket (names : List Name) (page : Name → Nat) (ps : Nat) : List Name := names.filter fun n => page n == ps

/-- `sorted(buckets)`. -/
def pageSizesOf (names : List Name) (page : Name → Nat) : List Nat :=
  (names.map page).dedup.insertionSort (· ≤ ·)

def familyIndices (names : List Name) (page : Name → Nat) (parse : Name → Int) (ps : Nat) : List Int :=
  (bucket names page ps).map parse

/-- `align_packed_block_stride`. -/
def alignPackedBlockStride (payloadBytes : Nat) (groups : List (KVCacheGroup Name)) : Nat :=
  let specs := groups.flatMap fun g =>
    if g.kvCacheSpecs = [] then [g.kvCacheSpec] else g.kvCacheSpecs.map (·.2)
  let align := specs.foldl (fun align s =>
    if 0 < s.blockSize ∧ s.pageSizeBytes % s.blockSize = 0 then Nat.lcm align (s.pageSizeBytes / s.blockSize)
    else align) 1
  if 1 < align ∧ payloadBytes % align ≠ 0 then (payloadBytes + align - 1) / align * align else payloadBytes

/-! ## The worker's remap -/

/-- The loop over one family: the layer's slot, checked against the family's slots. -/
def familyOffsets (state : LayerSplitState) (names : List Name) (page : Name → Nat) (parse : Name → Int)
    (base ps : Nat) : Except String (List (Name × Nat × Nat)) :=
  let indices := familyIndices names page parse ps
  (bucket names page ps).mapM fun name => do
    let slot ← localPackedSlotForFamilyLayer state (parse name) indices
    if slot < physSlotsForLayerFamily indices state.totalLayers state.shardSize then
      return (name, base + slot * ps, ps)
    else throw "DSA layer-split slot out of range"

/-- The loop over the page sizes: `layer_offset` and `layer_page` of every packed layer. -/
def layerOffsets (state : LayerSplitState) (names : List Name) (page : Name → Nat) (parse : Name → Int) :
    Nat → List Nat → Except String (List (Name × Nat × Nat))
  | _, [] => .ok []
  | base, ps :: rest => do
    let here ← familyOffsets state names page parse base ps
    let nPhys := physSlotsForLayerFamily (familyIndices names page parse ps) state.totalLayers state.shardSize
    let more ← layerOffsets state names page parse (base + nPhys * ps) rest
    return here ++ more

/-- One tensor of the new list; its offset is that of its first layer. -/
def remapTensor (layerPs : Name → Option Nat) (offsets : List (Name × Nat × Nat)) (newStride : Nat)
    (tensor : KVCacheTensor Name) : Except String (KVCacheTensor Name) :=
  if tensor.blockStride = 0 then .ok tensor
  else
    match tensor.layerNames with
    | [] => .error "packed KV tensor has empty layers/shared_by"
    | primary :: _ =>
      let entry := offsets.find? fun e => e.1 == primary
      let pageSize :=
        match entry with
        | some e => e.2.2
        | none => if tensor.layerStride ≠ 0 then tensor.layerStride else (layerPs primary).getD 0
      if pageSize = 0 then .error "DSA layer-split remap missing page_size"
      else .ok { tensor with
        layerStride := pageSize
        offset := match entry with
          | some e => e.2.1
          | none => tensor.offset
        blockStride := newStride }

/-- The remap once every packed layer has a page size and an index. -/
def remapResolved (state : LayerSplitState) (cfg : KVCacheConfig Name) (page : Name → Nat)
    (parse : Name → Int) : Except String (Bool × KVCacheConfig Name) :=
  let names := packedNames cfg.kvCacheTensors
  let pageSizes := pageSizesOf names page
  let physSlots := fun ps =>
    physSlotsForLayerFamily (familyIndices names page parse ps) state.totalLayers state.shardSize
  let ownedScratchBytes := (pageSizes.map fun ps => ps * physSlots ps).sum
  let fullBytes := (pageSizes.map fun ps => ps * (bucket names page ps).length).sum
  if fullBytes ≤ ownedScratchBytes then .ok (false, cfg)
  else
    let newStride := alignPackedBlockStride ownedScratchBytes cfg.kvCacheGroups
    if (packedTensors cfg.kvCacheTensors).head?.map (·.blockStride) ≠ some newStride then
      .error "DSA layer-split packed remap: the shared KV planner and the worker remap disagree"
    else do
      let offsets ← layerOffsets state names page parse 0 pageSizes
      let tensors ← cfg.kvCacheTensors.mapM (remapTensor (layerPageSizes cfg.kvCacheGroups) offsets newStride)
      return (true, { cfg with kvCacheTensors := tensors, remapApplied := true })

/-- `parseLayerIndex` is vLLM's `extract_layer_index`, `none` where it raises. -/
def remapPackedKvTensorOffsets (state : Option LayerSplitState) (parseLayerIndex : Name → Option Int)
    (cfg : KVCacheConfig Name) : Except String (Bool × KVCacheConfig Name) :=
  match state with
  | none => .ok (false, cfg)
  | some state =>
    if cfg.remapApplied then .ok (false, cfg)
    else if packedTensors cfg.kvCacheTensors = [] then .ok (false, cfg)
    else if ∃ n ∈ packedNames cfg.kvCacheTensors, cfg.pageSize n = none then
      .error "DSA layer-split packed remap could not resolve page sizes"
    else if ∃ n ∈ packedNames cfg.kvCacheTensors, parseLayerIndex n = none then
      .error "layer name must contain exactly one integer"
    else remapResolved state cfg (fun n => (cfg.pageSize n).getD 0) fun n => (parseLayerIndex n).getD 0

/-- `layer_packing` of the runner: the offset and the stride that a layer is bound with. -/
def layerPacking (tensors : List (KVCacheTensor Name)) : Name → Option (Nat × Nat) :=
  tensors.foldl (fun (packing : Name → Option (Nat × Nat)) t =>
    if t.blockStride = 0 then packing
    else
      t.layerNames.foldl (fun (packing : Name → Option (Nat × Nat)) n =>
        Function.update packing n (some (t.offset, t.blockStride))) packing)
    fun _ => none

/-! ## The planner -/

/-- `_bucket_layers_by_page_size`, as the list of layers with their page sizes. -/
def plannedLayers (groups : List (KVCacheGroup Name)) : List (Name × Nat) :=
  groups.flatMap fun g =>
    if g.kvCacheSpecs = [] then g.layerNames.map fun n => (n, g.kvCacheSpec.pageSizeBytes)
    else g.kvCacheSpecs.map fun e => (e.1, e.2.pageSizeBytes)

def plannedBucket (groups : List (KVCacheGroup Name)) (ps : Nat) : List Name :=
  ((plannedLayers groups).filter fun l => l.2 == ps).map (·.1)

structure ShrunkLayout where
  pageSizes : List Nat
  physSlots : Nat → Nat
  totalNumBytesPerBlock : Nat
  fullBytes : Nat
  bounceBytesPerBlock : Nat
  shrunk : Bool

/-- `_bounce_bytes_per_block`: one buffer per dtype, sized to its largest page, for two pools. -/
def bounceBytesPerBlock (groups : List (KVCacheGroup Name)) (pageSizes : List Nat) : Nat :=
  let specs := groups.flatMap fun g =>
    if g.kvCacheSpecs = [] then [g.kvCacheSpec] else g.kvCacheSpecs.map (·.2)
  -- the pool of a page: its dtype, or the page itself where the dtype is unknown
  let pools : List ((Option String × Nat) × Nat) := pageSizes.flatMap fun page =>
    let dtypes := ((specs.filter fun s => s.pageSizeBytes == page).map (·.dtype)).dedup
    (if dtypes = [] then [none] else dtypes).map fun
      | none => ((none, page), page)
      | some d => ((some d, 0), page)
  2 * ((pools.map (·.1)).dedup.map fun key =>
    ((pools.filter fun p => p.1 == key).map (·.2)).foldl max 0).sum

def shrunkLayout (parseLayerIndex : Name → Option Int) (totalLayers pcp : Nat)
    (groups : List (KVCacheGroup Name)) : Option ShrunkLayout :=
  if totalLayers = 0 then none
  else
    let pageSizes := ((plannedLayers groups).map (·.2)).dedup.insertionSort (· ≤ ·)
    let physSlots := fun ps =>
      physSlotsForLayerFamily ((plannedBucket groups ps).map fun n => (parseLayerIndex n).getD (-1)) totalLayers pcp
    let bytes := (pageSizes.map fun ps => ps * physSlots ps).sum
    if bytes = 0 then none
    else
      let fullBytes := (pageSizes.map fun ps => ps * (plannedBucket groups ps).length).sum
      let shrunk := decide (bytes < fullBytes)
      some {
        pageSizes := pageSizes
        physSlots := physSlots
        totalNumBytesPerBlock := if shrunk then alignPackedBlockStride bytes groups else fullBytes
        fullBytes := fullBytes
        bounceBytesPerBlock := bounceBytesPerBlock groups pageSizes
        shrunk := shrunk }

/-- `_budget_blocks`; `mayOverride` is vLLM's `may_override_num_blocks`. -/
def budgetBlocks (mayOverride : Nat → Nat) (layout : ShrunkLayout) (availableMemory : Nat) : Except String Nat :=
  let budget := availableMemory / (layout.totalNumBytesPerBlock + layout.bounceBytesPerBlock)
  if budget < mayOverride budget then .error "num_gpu_blocks_override exceeds the DSA cache layer-split budget"
  else .ok (mayOverride budget)

/-- The tensors of one family: one layer each, clamped to the family's slots. -/
def plannedFamily (layout : ShrunkLayout) (size base ps : Nat) (backing : BackingId) (names : List Name) :
    List (KVCacheTensor Name) :=
  names.zipIdx.map fun n =>
    { size := size
      layerNames := [n.1]
      layerStride := ps
      offset := base + min n.2 (layout.physSlots ps - 1) * ps
      blockStride := layout.totalNumBytesPerBlock
      backingId := some backing }

def plannedTensors (groups : List (KVCacheGroup Name)) (layout : ShrunkLayout) (size : Nat)
    (backing : BackingId) : Nat → List Nat → List (KVCacheTensor Name)
  | _, [] => []
  | base, ps :: rest =>
    plannedFamily layout size base ps backing (plannedBucket groups ps) ++
      plannedTensors groups layout size backing (base + layout.physSlots ps * ps) rest

/-- `_shrunk_packed_plan`: the block count and the tensors, `none` when the layout does not shrink. -/
def shrunkPackedPlan (parseLayerIndex : Name → Option Int) (mayOverride : Nat → Nat) (totalLayers pcp : Nat)
    (groups : List (KVCacheGroup Name)) (availableMemory : Nat) :
    Except String (Option (Nat × List (KVCacheTensor Name))) :=
  match shrunkLayout parseLayerIndex totalLayers pcp groups with
  | none => .ok none
  | some layout =>
    if layout.shrunk = false then .ok none
    else do
      let numBlocks ← budgetBlocks mayOverride layout availableMemory
      return some (numBlocks, plannedTensors groups layout (layout.totalNumBytesPerBlock * numBlocks)
        (.layerSplit layout.pageSizes layout.totalNumBytesPerBlock numBlocks) 0 layout.pageSizes)

end

end VllmHcu.Dsa
