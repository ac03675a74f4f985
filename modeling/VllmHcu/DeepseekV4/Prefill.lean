import VllmHcu.Lib.Scatter
import VllmHcu.Lib.Stride
import Mathlib.Data.Nat.Log

/-!
# Sparse prefill of DeepSeek-V4

`_forward_prefill` runs over chunks of requests. For each request of a chunk it
gathers the compressed keys and the last tokens before and in the query into
`M` rows of a workspace, and it lists for every query token the workspace rows
to attend to. The keys are values of any type.
-/

namespace VllmHcu.DeepseekV4

/-- `NUM_WORKERS` of both launches. -/
def numWorkers : Nat := 128

/-- `_SPARSE_PREFILL_TOPK_ALIGNMENT` -/
def topkAlignment : Nat := 128

/-- The constants of a layer; `chunkSize` is `PREFILL_CHUNK_SIZE` and `topkWidth` is `topk_indices.shape[-1]`. -/
structure Layer where
  maxModelLen : Nat
  maxNumBatchedTokens : Nat
  windowSize : Nat
  compressRatio : Nat
  chunkSize : Nat
  topkWidth : Nat
  swaOnly : Bool
  window_pos : 0 < windowSize
  ratio_pos : 0 < compressRatio
  chunk_pos : 0 < chunkSize

/-- The prefill requests follow the decode requests; `seqLens` starts at the first prefill request. -/
structure Batch where
  numDecodes : Nat
  numPrefills : Nat
  queryStartLoc : Nat → Nat
  seqLens : Nat → Nat
  start_mono : ∀ r < numPrefills, queryStartLoc (numDecodes + r) ≤ queryStartLoc (numDecodes + r + 1)
  query_le_seq : ∀ r < numPrefills, queryStartLoc (numDecodes + r + 1) - queryStartLoc (numDecodes + r) ≤ seqLens r

namespace Layer
variable (l : Layer)

/-- Rows of the compressed region. -/
def n : Nat := if l.swaOnly then 0 else (l.maxModelLen + l.compressRatio - 1) / l.compressRatio

/-- Rows of a request. -/
def m : Nat := l.n + l.windowSize + l.maxNumBatchedTokens

def topK : Nat := if l.swaOnly then 0 else l.topkWidth

def combinedTopk : Nat := roundUp (l.topK + l.windowSize) topkAlignment

end Layer

namespace Batch
variable (b : Batch)

def queryLen (r : Nat) : Nat := b.queryStartLoc (b.numDecodes + r + 1) - b.queryStartLoc (b.numDecodes + r)

def prefixLen (r : Nat) : Nat := b.seqLens r - b.queryLen r

/-- `ComputePrefillMetadataKernel.kernel` -/
def gatherLen (windowSize r : Nat) : Nat := b.queryLen r + min (b.prefixLen r) (windowSize - 1)

end Batch

/-- A paged cache with the block table of the prefill requests. -/
structure Paged (V : Type) where
  blockSize : Nat
  blockTable : Nat → Nat → Nat
  cell : Nat → Nat → V

/-- The key at position `pos` of request `r`. -/
def Paged.key {V : Type} (c : Paged V) (r pos : Nat) : V := c.cell (c.blockTable r (pos / c.blockSize)) (pos % c.blockSize)

/-! ## `_dequantize_and_gather_k_kernel` -/

section
variable {V : Type}

/-- The rows stored for one request; `request` is its row of the block table. -/
def gatherRequest (c : Paged V) (m offset request batch seqLen gatherLen : Nat) : List (Nat × V) :=
  let startPos := seqLen - gatherLen
  (List.range numWorkers).flatMap fun worker => (strided worker gatherLen numWorkers).map fun i =>
    let pos := startPos + i
    (batch * m + (offset + i), c.cell (c.blockTable request (pos / c.blockSize)) (pos % c.blockSize))

/-- The launch over `count` requests from `start` on. -/
def gatherStores (c : Paged V) (m offset start count : Nat) (seqLens gatherLens : Nat → Nat) : List (Nat × V) :=
  (List.range count).flatMap fun batch =>
    gatherRequest c m offset (start + batch) batch (seqLens (start + batch)) (gatherLens (start + batch))

end

/-! ## `_combine_topk_swa_indices_kernel` -/

/-- The arguments of one program for one token, on the rows of its request. -/
structure TokenArgs where
  m : Nat
  n : Nat
  topK : Nat
  ratio : Nat
  window : Nat
  paddedTopK : Nat
  batch : Nat
  gatherStart : Nat
  pos : Nat

namespace TokenArgs
variable (a : TokenArgs)

def topkLen : Nat := min ((a.pos + 1) / a.ratio) a.topK

def swaLen : Nat := min (a.pos + 1) a.window

/-- The stores to the row of a token: offsets in the row with their values. -/
def stores (topk : Nat → Int) : List (Nat × Int) :=
  (((List.range a.paddedTopK).filter fun offset => offset < a.topkLen).map fun offset =>
      (offset, topk offset + (a.m * a.batch : Nat))) ++
    ((List.range a.window).filter fun offset => offset < a.swaLen).map fun offset =>
      (a.topkLen + offset, ((a.m * a.batch + a.n + offset + a.pos : Nat) : Int) - a.swaLen + 1 - a.gatherStart)

end TokenArgs

/-- What a chunk hands to the attention kernel: the workspace, the index rows and the lengths. -/
structure ChunkOutput (V : Type) where
  kv : Nat → V
  combinedIndices : Nat → Int
  combinedLens : Nat → Nat
  queryStart : Nat
  queryEnd : Nat

section
variable {V : Type} (l : Layer) (b : Batch)

def tokenArgs (start batch queryStart tokenIdx : Nat) : TokenArgs :=
  let r := start + batch
  let startPos := b.seqLens r - b.queryLen r
  { m := l.m, n := l.n, topK := l.topK, ratio := l.compressRatio, window := l.windowSize
    paddedTopK := 2 ^ Nat.clog 2 l.topkWidth, batch := batch
    gatherStart := b.seqLens r - b.gatherLen l.windowSize r
    pos := startPos + (tokenIdx - queryStart) }

/-- The tokens of the programs, with their requests. -/
def combineTokens (start count : Nat) : List (Nat × Nat) :=
  let base := b.queryStartLoc (b.numDecodes + start)
  (List.range count).flatMap fun batch =>
    let queryStart := b.queryStartLoc (b.numDecodes + start + batch) - base
    let queryEnd := b.queryStartLoc (b.numDecodes + start + batch + 1) - base
    (List.range numWorkers).flatMap fun worker =>
      (strided (queryStart + worker) queryEnd numWorkers).map fun tokenIdx => (batch, tokenIdx)

/-- The arguments for a token of a request of the chunk. -/
def argsOf (start : Nat) (t : Nat × Nat) : TokenArgs :=
  tokenArgs l b start t.1 (b.queryStartLoc (b.numDecodes + start + t.1) - b.queryStartLoc (b.numDecodes + start)) t.2

/-- `combine_topk_swa_indices`: `topk` is the slice of the chunk and `lens` unset memory. -/
def combineTopkSwaIndices (start count : Nat) (topk : Nat → Nat → Int) (lens : Nat → Nat) : (Nat → Int) × (Nat → Nat) :=
  (scatter (fun _ => -1) ((combineTokens b start count).flatMap fun t =>
      ((argsOf l b start t).stores (topk t.2)).map fun s => (t.2 * l.combinedTopk + s.1, s.2)),
    scatter lens ((combineTokens b start count).map fun t =>
      (t.2, (argsOf l b start t).topkLen + (argsOf l b start t).swaLen)))

/-! ## `_forward_prefill` -/

/-- One turn of the loop over chunks, from the workspace `kv` that the turns before left. -/
def prefillChunk (compressed swa : Paged V) (topkIndices : Nat → Nat → Int) (lens : Nat → Nat) (kv : Nat → V)
    (chunkIdx : Nat) : ChunkOutput V :=
  let chunkStart := chunkIdx * l.chunkSize
  let chunkEnd := min (chunkStart + l.chunkSize) b.numPrefills
  let count := chunkEnd - chunkStart
  let ratioLens := fun r => b.seqLens r / l.compressRatio
  let kv := if l.swaOnly then kv else scatter kv (gatherStores compressed l.m 0 chunkStart count ratioLens ratioLens)
  let kv := scatter kv (gatherStores swa l.m l.n chunkStart count b.seqLens (b.gatherLen l.windowSize))
  let tokenBase := b.queryStartLoc b.numDecodes
  let queryStart := b.queryStartLoc (b.numDecodes + chunkStart) - tokenBase
  let queryEnd := b.queryStartLoc (b.numDecodes + chunkEnd) - tokenBase
  let combined := combineTopkSwaIndices l b chunkStart count (fun t => topkIndices (queryStart + t)) lens
  { kv := kv, combinedIndices := combined.1, combinedLens := combined.2, queryStart := queryStart, queryEnd := queryEnd }

/-- The chunks of a prefill, in order. -/
def forwardPrefill (compressed swa : Paged V) (topkIndices : Nat → Nat → Int) (lens : Nat → Nat) (kv : Nat → V) :
    List (ChunkOutput V) :=
  let numChunks := (b.numPrefills + l.chunkSize - 1) / l.chunkSize
  ((List.range numChunks).foldl (fun (s : (Nat → V) × List (ChunkOutput V)) chunkIdx =>
    let out := prefillChunk l b compressed swa topkIndices lens s.1 chunkIdx
    (out.kv, s.2 ++ [out])) (kv, [])).2

end

end VllmHcu.DeepseekV4
