import VllmHcu.Lib.Scatter
import Mathlib.Algebra.GroupWithZero.Nat

/-!
# The PCP batch layout

`HcuPCPManager` cuts every prefill request into `2 * pcp_size` chunks and gives
rank `r` the chunks `r` and `2 * pcp_size - 1 - r`. Decode requests are
replicated on every rank. The rows of a rank are sorted so that rows starting
at position 0 come last, equal-shape dummy rows are added for MLA, and the
index tensors that relate the ranks' padded rows to the global batch are
written segment by segment.
-/

namespace VllmHcu.Pcp

/-- One row of the scheduler's `InputBatch`. -/
structure Request where
  numScheduledTokens : Nat
  numComputedTokens : Nat
  isPrefilling : Bool

/-- The fields of `InputBatch` that the layout reads. `query_start_loc_np` is the
running sum of `num_scheduled_tokens`. -/
structure InputBatch where
  reqs : List Request

namespace InputBatch

def numTokens (b : InputBatch) : Nat := (b.reqs.map (·.numScheduledTokens)).sum

def queryStartLoc (b : InputBatch) (i : Nat) : Nat :=
  ((b.reqs.take i).map (·.numScheduledTokens)).sum

def isPrefilling (b : InputBatch) (i : Nat) : Bool := (b.reqs[i]?.map (·.isPrefilling)).getD false

def numComputedTokens (b : InputBatch) (i : Nat) : Nat :=
  (b.reqs[i]?.map (·.numComputedTokens)).getD 0

def hasPrefill (b : InputBatch) : Bool := b.reqs.any (·.isPrefilling)

end InputBatch

/-! ## Segments -/

/-- Half-open token interval assigned to one PCP rank-local row. -/
structure RankSegment where
  start : Nat
  stop : Nat

def RankSegment.numTokens (s : RankSegment) : Nat := s.stop - s.start

/-- The `segment` closure of `rank_segments`. -/
def segment (length pcpSize chunkIdx : Nat) : RankSegment :=
  let chunkCount := 2 * pcpSize
  let chunkSize := (length + chunkCount - 1) / chunkCount
  let start := min (chunkIdx * chunkSize) length
  ⟨start, min (start + chunkSize) length⟩

/-- The two symmetric DualChunkSwap intervals of a rank. The guard on
`pcp_rank` is the type of the rank. -/
def rankSegments (length : Nat) {pcpSize : Nat} (pcpRank : Fin pcpSize) : RankSegment × RankSegment :=
  (segment length pcpSize pcpRank, segment length pcpSize (2 * pcpSize - 1 - pcpRank))

/-- `_BatchSegment`: the slices are kept as their two ends. -/
structure BatchSegment where
  globalReqIdx : Nat
  globalStart : Nat
  globalStop : Nat
  localStart : Nat := 0
  localStop : Nat := 0
  paddingTokens : Nat := 0

namespace BatchSegment

def numActualTokens (s : BatchSegment) : Nat := s.globalStop - s.globalStart

def numTokens (s : BatchSegment) : Nat := s.numActualTokens + s.paddingTokens

end BatchSegment

/-- Consecutive local slices from `off` on. -/
def place : Nat → List BatchSegment → List BatchSegment
  | _, [] => []
  | off, s :: ss =>
    { s with localStart := off, localStop := off + s.numTokens } :: place (off + s.numTokens) ss

def isPurePrefill (b : InputBatch) (s : BatchSegment) : Bool :=
  let localOffset := s.globalStart - b.queryStartLoc s.globalReqIdx
  b.isPrefilling s.globalReqIdx && b.numComputedTokens s.globalReqIdx + localOffset == 0

/-- `list.sort(key=...)` for a Boolean key: a stable sort with `False` first. -/
def sortByFlag {α : Type*} (key : α → Bool) (l : List α) : List α :=
  l.filter (fun a => !key a) ++ l.filter key

def reorderSegments (b : InputBatch) (segs : List BatchSegment) : List BatchSegment :=
  place 0 (sortByFlag (isPurePrefill b) segs)

/-- The rows one request contributes to rank `r`, before they are placed. -/
def requestSegments (b : InputBatch) {pcpSize : Nat} (r : Fin pcpSize) (i : Nat) (q : Request) :
    List BatchSegment :=
  if q.numScheduledTokens = 0 then []
  else
    let segs : List RankSegment :=
      if q.isPrefilling then
        [(rankSegments q.numScheduledTokens r).1, (rankSegments q.numScheduledTokens r).2]
      else [⟨0, q.numScheduledTokens⟩]
    (segs.filter fun s => s.numTokens != 0).map fun s =>
      { globalReqIdx := i
        globalStart := b.queryStartLoc i + s.start
        globalStop := b.queryStartLoc i + s.stop }

def segmentsForRank (b : InputBatch) {pcpSize : Nat} (r : Fin pcpSize) : List BatchSegment :=
  reorderSegments b (place 0 (b.reqs.zipIdx.flatMap fun (q, i) => requestSegments b r i q))

/-! ## Equal-shape padding rows -/

/-- `max` over the ranks. -/
def maxOver {pcpSize : Nat} (f : Fin pcpSize → Nat) : Nat := ((List.finRange pcpSize).map f).max?.getD 0

/-- `min` over the ranks. -/
def minOver {pcpSize : Nat} (f : Fin pcpSize → Nat) : Nat := ((List.finRange pcpSize).map f).min?.getD 0

section
variable {pcpSize : Nat} (segs : Fin pcpSize → List BatchSegment) (i : Nat)

def reqSegments (r : Fin pcpSize) : List BatchSegment := (segs r).filter (·.globalReqIdx == i)

def actualTokens (r : Fin pcpSize) : Nat := ((reqSegments segs i r).map (·.numActualTokens)).sum

def targetTokens : Nat := maxOver (actualTokens segs i)

def rowCount (r : Fin pcpSize) : Nat := (reqSegments segs i r).length

/-- One more row than the widest rank has, when a rank with that many rows still
misses tokens. -/
def targetRows : Nat :=
  let rows := maxOver (rowCount segs i)
  if (List.finRange pcpSize).any fun r =>
      decide (actualTokens segs i r < targetTokens segs i) && rowCount segs i r == rows
  then rows + 1 else rows

/-- The virtual rows appended to rank `r` for request `i`; the first one takes
all the missing tokens. -/
def paddingRows (globalStart : Nat) (r : Fin pcpSize) : List BatchSegment :=
  (List.range (targetRows segs i - rowCount segs i r)).map fun row =>
    { globalReqIdx := i
      globalStart := globalStart
      globalStop := globalStart
      paddingTokens := if row = 0 then targetTokens segs i - actualTokens segs i r else 0 }

/-- `assert missing_rows >= int(missing_tokens > 0)`. -/
def missingRowsAssert (r : Fin pcpSize) : Bool :=
  let missingTokens : Int := targetTokens segs i - actualTokens segs i r
  let missingRows : Int := targetRows segs i - rowCount segs i r
  decide ((if 0 < missingTokens then 1 else 0) ≤ missingRows)

end

/-- The body of the padding loop of `_build_batch_layout` for request `i`. -/
def equalizeRequest (useMla : Bool) (b : InputBatch) {pcpSize : Nat}
    (segs : Fin pcpSize → List BatchSegment) (i : Nat) (q : Request) :
    Fin pcpSize → List BatchSegment :=
  if !useMla || q.numScheduledTokens == 0 || !q.isPrefilling then segs
  else if minOver (actualTokens segs i) = targetTokens segs i then segs
  else fun r => segs r ++ paddingRows segs i (b.queryStartLoc i) r

def equalizeRequests (useMla : Bool) (b : InputBatch) {pcpSize : Nat}
    (segs : Fin pcpSize → List BatchSegment) : Fin pcpSize → List BatchSegment :=
  b.reqs.zipIdx.foldl (fun segs qi => equalizeRequest useMla b segs qi.2 qi.1) segs

/-! ## Index tensors -/

/-- The tensors written by `_build_batch_layout`. `hidden_restore_idx` comes from
`np.empty`, so an entry is unassigned until it is written. -/
structure IndexTensors where
  paddedGatherIdx : Nat → Nat
  kvWriteMask : Nat → Bool
  hiddenRestoreIdx : Nat → Option Nat

def writeSegment (b : InputBatch) (padded rank : Nat) (t : IndexTensors) (s : BatchSegment) :
    IndexTensors :=
  if s.numActualTokens = 0 then t
  else
    let start := rank * padded + s.localStart
    let isDecode := !b.isPrefilling s.globalReqIdx
    let gather := writeSlice t.paddedGatherIdx start (List.range' s.globalStart s.numActualTokens)
    if !isDecode || rank == 0 then
      { paddedGatherIdx := gather
        kvWriteMask := writeSlice t.kvWriteMask start (List.replicate s.numActualTokens true)
        hiddenRestoreIdx :=
          writeSlice t.hiddenRestoreIdx s.globalStart
            ((List.range' start s.numActualTokens).map some) }
    else { t with paddedGatherIdx := gather }

structure BatchLayout (pcpSize : Nat) extends IndexTensors where
  segmentsByRank : Fin pcpSize → List BatchSegment
  perRankNumTokens : Fin pcpSize → Nat
  paddedNumTokens : Nat

def layoutSegments (useMla : Bool) (b : InputBatch) {pcpSize : Nat} (r : Fin pcpSize) :
    List BatchSegment :=
  reorderSegments b (equalizeRequests useMla b (segmentsForRank b) r)

def segmentTokens (segs : List BatchSegment) : Nat := (segs.map (·.numTokens)).sum

def requiredNumTokens (useMla : Bool) (b : InputBatch) (pcpSize : Nat) : Nat :=
  maxOver fun r : Fin pcpSize => segmentTokens (layoutSegments useMla b r)

def emptyTensors : IndexTensors := ⟨fun _ => 0, fun _ => false, fun _ => none⟩

def writeTensors (b : InputBatch) {pcpSize : Nat} (padded : Nat)
    (segs : Fin pcpSize → List BatchSegment) : IndexTensors :=
  (List.finRange pcpSize).foldl (fun t r => (segs r).foldl (writeSegment b padded r) t) emptyTensors

def buildBatchLayout (useMla : Bool) (b : InputBatch) (pcpSize : Nat)
    (paddedNumTokens : Option Nat) : Except String (BatchLayout pcpSize) :=
  let segs := fun r : Fin pcpSize => layoutSegments useMla b r
  let required := requiredNumTokens useMla b pcpSize
  let padded := paddedNumTokens.getD required
  if padded < required then
    .error s!"official PCP dispatch padding is smaller than the HCU rank-local batch: {padded} < {required}"
  else
    .ok
      { toIndexTensors := writeTensors b padded segs
        segmentsByRank := segs
        perRankNumTokens := fun r => segmentTokens (segs r)
        paddedNumTokens := padded }

end VllmHcu.Pcp
