import VllmHcu.Sparse.Select

/-!
# Sparse metadata of a query

Prefill packs `phys_region | valid_tokens << 24` into an int32 and leaves a
dropped slot in place as `-1`. Decode packs `start_token | phys_region << 32`
into an int64, compacts dropped slots out and pads with zero. Both append the
region of the query itself. The attention kernels walk the words in tiles of
region slots; what they admit is the list of physical tokens whose key is used.
-/

namespace VllmHcu.Sparse

structure Geometry where
  regionSize : Nat
  regionsPerPage : Nat
  regionSize_pos : 0 < regionSize
  regionSize_lt : regionSize < 128
  regionsPerPage_pos : 0 < regionsPerPage

/-- Logical page to physical page, one row a request; `-1` marks an unmapped page. -/
structure BlockTable where
  numReqs : Nat
  page : Nat → Nat → Int

/-- `shared_table_stride`: a single row is used by every request. -/
def BlockTable.row (t : BlockTable) (request : Nat) : Nat → Int :=
  if t.numReqs = 1 then t.page 0 else t.page request

/-- int32 arithmetic wraps around. -/
def int32 (z : Int) : Int := Int.bmod z (2 ^ 32)

section
variable (g : Geometry) (table : Nat → Int)

def Geometry.mapped (r : Nat) : Bool := decide (0 ≤ table (r / g.regionsPerPage))

def Geometry.physical (r : Nat) : Int := table (r / g.regionsPerPage) * g.regionsPerPage + (r % g.regionsPerPage : Nat)

/-! ## Prefill -/

def Geometry.validTokens (qPosition : Int) (r : Nat) : Int :=
  min (max (qPosition + 1 - (r * g.regionSize : Nat)) 0) g.regionSize

def Geometry.prefillWord (qPosition : Int) (r : Nat) : BitVec 32 :=
  let packed := BitVec.ofInt 32 (g.physical table r) ||| BitVec.ofInt 32 (g.validTokens qPosition r) <<< 24
  if g.mapped table r then packed else -1#32

/-- The widened row and its positional count. -/
def appendCurrentRegionKernel (topk : Nat) (qPosition : Int) (history mem : Nat → BitVec 32) : (Nat → BitVec 32) × Nat :=
  let currentRegion := (max (qPosition / g.regionSize) 0).toNat
  let historyCount := min currentRegion topk
  let slots := List.range (nextPowerOf2 (topk + 1))
  let out := scatter mem ((slots.filter fun s => decide (s < topk + 1) && s != historyCount).map fun s =>
    (s, if s < topk then history s else -1#32))
  (Function.update out historyCount (g.prefillWord table qPosition currentRegion), historyCount + 1)

/-! ## Decode -/

/-- `(kv_seqlen + region_size - 1) // region_size`, on int32 -/
def Geometry.validRegions (kvSeqlen : Int) : Int := (int32 (int32 (kvSeqlen + g.regionSize) - 1)).tdiv g.regionSize

def Geometry.decodeWord (r : Nat) : BitVec 64 :=
  BitVec.ofInt 64 (r * g.regionSize : Nat) ||| BitVec.ofInt 64 (g.physical table r) <<< 32

/-- `live`: an id that was selected, is in range and has its page mapped -/
def liveSlot (topk : Nat) (kvSeqlen : Int) (ids : Nat → Int) (slot : Nat) : Bool :=
  let id := if slot < topk then ids slot else -1
  decide (slot < topk) && decide (0 ≤ id) && decide (id < g.validRegions kvSeqlen) && g.mapped table id.toNat

/-- The compacted row and the number of surviving words. -/
def decodePackKernel (topk : Nat) (kvSeqlen : Int) (ids : Nat → Int) (mem : Nat → BitVec 64) : (Nat → BitVec 64) × Nat :=
  let slots := List.range (nextPowerOf2 (topk + 1))
  let live := liveSlot g table topk kvSeqlen ids
  let count := slots.countP live
  let out := scatter mem ((slots.filter live).map fun s =>
    ((List.range (s + 1)).countP live - 1, g.decodeWord table (ids s).toNat))
  let out := scatter out ((slots.filter fun s => decide (count < s) && decide (s < topk + 1)).map fun s => (s, 0#64))
  let currentRegion := (max ((kvSeqlen - 1).tdiv g.regionSize) 0).toNat
  let currentLive := decide ((currentRegion : Int) < g.validRegions kvSeqlen) && g.mapped table currentRegion
  (Function.update out count (if currentLive then g.decodeWord table currentRegion else 0#64),
    count + if currentLive then 1 else 0)

end

/-! ## The two builders -/

section
variable (cfg : SelectorConfig) (g : Geometry) (topk seqRegions : Nat) (logits : Nat → Nat → Score) (table : BlockTable)

/-- Row `row` of `prefill_sparse_meta`; the history and the result are allocated with `torch.empty`. -/
def prefillSparseMeta (qPositions : Nat → Int) (requestIndices : Option (Nat → Nat)) (memHistory mem : Nat → Nat → BitVec 32)
    (row : Nat) : (Nat → BitVec 32) × Nat :=
  let request := (requestIndices.getD fun _ => 0) row
  let historyLength := qPositions row / g.regionSize
  let history := regionTopkPack cfg ⟨logits row, seqRegions, historyLength⟩ topk
    (g.prefillWord (table.row request) (qPositions row)) (memHistory row)
  appendCurrentRegionKernel g (table.row request) topk (qPositions row) history (mem row)

/-- The per-row `(request_indices, history_lengths)`. -/
def decodeRowsMeta (kvSeqlens : List Int) (rows : Nat) (requestIndices : Option (List Nat)) :
    Except String (List Nat × List Int) :=
  let numReqs := kvSeqlens.length
  if numReqs = 0 then .error "integer modulo by zero"
  else if rows % numReqs ≠ 0 then .error s!"{rows} score rows do not divide into {numReqs} requests"
  else
    let requests := requestIndices.getD (List.replicate (rows / numReqs) (List.range numReqs)).flatten
    .ok (requests, requests.map fun i => max (kvSeqlens.getD i 0 - 1) 0 / g.regionSize)

/-- One row of `decode_sparse_meta`, given its request and its history length. -/
def decodeSparseRow (kvSeqlens : List Int) (request : Nat) (historyLength : Int) (memIds : Nat → Int) (mem : Nat → BitVec 64)
    (row : Nat) : (Nat → BitVec 64) × Nat :=
  let ids := regionTopkIds cfg ⟨logits row, seqRegions, historyLength⟩ topk memIds
  decodePackKernel g (table.row request) topk (kvSeqlens.getD request 0) ids mem

/-- `decode_sparse_meta`: every row's words and count. -/
def decodeSparseMeta (rows : Nat) (kvSeqlens : List Int) (requestIndices : Option (List Nat))
    (rowsMeta : Option (List Nat × List Int)) (memIds : Nat → Nat → Int) (mem : Nat → Nat → BitVec 64) :
    Except String (List ((Nat → BitVec 64) × Nat)) :=
  let rowsMeta : Except String (List Nat × List Int) := match rowsMeta with
    | some m => .ok m
    | none => decodeRowsMeta g kvSeqlens rows requestIndices
  rowsMeta.map fun m => (List.range rows).map fun row =>
    decodeSparseRow cfg g topk seqRegions logits table kvSeqlens (m.1.getD row 0) (m.2.getD row 0) (memIds row) (mem row) row

end

/-! ## What the attention kernels admit -/

section
variable (g : Geometry) (width blockR : Nat)

/-- The tokens of one region slot that pass `token_ok`. -/
def slotTokens (live : Bool) (valid : Int) (physical : Nat) : List Nat :=
  ((List.range g.regionSize).filter fun offset : Nat => live && decide ((offset : Int) < valid)).map fun offset =>
    physical * g.regionSize + offset

/-- `_sparse_attn_prefill_kernel` on a row of `width` words. -/
def sparseAttnPrefillTokens (packed : Nat → BitVec 32) (count : Nat) : List Nat :=
  (strided 0 width blockR).flatMap fun base =>
    (List.range' base blockR).flatMap fun slot =>
      let slotOk := decide (slot < count)
      let word := if slotOk then packed slot else -1#32
      let physical := word &&& 0xFFFFFF#32
      let valid := word.sshiftRight 24
      let live := slotOk && decide (0 ≤ word.toInt) && decide (0 < valid.toInt)
      slotTokens g live valid.toInt physical.toNat

/-- One split of `_sparse_attn_decode_kernel`. -/
def sparseAttnDecodeTokens (slotsPerSplit : Nat) (kvSeqlen : Int) (packed : Nat → BitVec 64) (count split : Nat) : List Nat :=
  let windowBegin := split * slotsPerSplit
  let windowEnd := windowBegin + slotsPerSplit
  (strided windowBegin windowEnd blockR).flatMap fun base =>
    (List.range' base blockR).flatMap fun slot =>
      let slotOk := decide (slot < count) && decide (slot < width) && decide (slot < windowEnd)
      let word := if slotOk then packed slot else -1#64
      let physical := word.sshiftRight 32 &&& 0xFFFFFFFF#64
      let startToken := (word &&& 0xFFFFFFFF#64).toInt
      let valid := min (max (kvSeqlen - startToken) 0) g.regionSize
      let live := slotOk && decide (0 < valid)
      let safePhysical := if live then physical else 0#64
      slotTokens g live valid safePhysical.toNat

/-- All splits of `sparse_attention_decode`. -/
def sparseAttentionDecodeTokens (numSplits : Nat) (kvSeqlen : Int) (packed : Nat → BitVec 64) (count : Nat) : List Nat :=
  (List.range numSplits).flatMap
    (sparseAttnDecodeTokens g width blockR (cdiv width numSplits) kvSeqlen packed count)

end

end VllmHcu.Sparse
