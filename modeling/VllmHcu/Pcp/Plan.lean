import VllmHcu.Lib.Ragged
import VllmHcu.Pcp.Partition

/-!
# The attention plan of a sharded prefill

`build_plan` gives every local row the gathered rows of its request's new tokens
up to its own last one: rows of other ranks are found through the restore index.

The runner asks for the width of a batch before the layout is built, and the
profile run reserves a budget for every batch that can come.

`partition_batch` gathers the device lengths when all rows of a rank are whole
requests. Otherwise a row ends at its last device position, and a row of padding
tokens only keeps its width. Both ways write through the same scratch buffers.
-/

namespace VllmHcu.Pcp

/-- The decode context parallel group of the manager. -/
structure DcpGroup where
  worldSize : Nat
  rank : Nat
  interleave : Nat

/-- `get_dcp_local_seq_lens` of vLLM. -/
abbrev DcpLocalSeqLens := (seqLens : List Nat) → (dcpSize dcpRank interleave : Nat) → List Nat

/-- The gathered block table is left out. -/
structure PCPContextPlan where
  paddedNumTokens : Nat
  restoreIdx : List (Option Nat)
  localIdx : List Nat
  cuQ : List Nat
  maxQ : Nat
  ctxLens : List Nat
  ctxCu : List Nat
  maxCtx : Nat

structure PCPPlan where
  newKvIdx : List (Option Nat)
  newCuKv : List Nat
  newMaxKv : Nat
  ctx : Option PCPContextPlan

section
variable (b : InputBatch) {P : Nat} (l : BatchLayout P)

/-- `restore_idx_np`; an entry nothing wrote is `none`. -/
def restoreIdxNp : List (Option Nat) := (List.range b.numTokens).map l.hiddenRestoreIdx

def newKvLen (s : BatchSegment) : Nat := s.globalStop - b.queryStartLoc s.globalReqIdx

def newKvPart (s : BatchSegment) : List (Option Nat) :=
  ((restoreIdxNp b l).take s.globalStop).drop (b.queryStartLoc s.globalReqIdx)

def contextPlan (rank : Fin P) (segs : List BatchSegment) (localContextLens : List Nat) : PCPContextPlan :=
  let rankStart := rank * l.paddedNumTokens
  { paddedNumTokens := l.paddedNumTokens
    restoreIdx := restoreIdxNp b l
    localIdx := (List.range' rankStart (segmentTokens segs)).map l.paddedGatherIdx
    cuQ := (List.range (b.reqs.length + 1)).map b.queryStartLoc
    maxQ := (b.reqs.map (·.numScheduledTokens)).foldr max 0
    ctxLens := localContextLens
    ctxCu := offsets localContextLens
    maxCtx := localContextLens.foldr max 0 }

/-- `build_plan` on `rank`, after its `partition_batch`. -/
def buildPlan (useMla : Bool) (dcp : DcpGroup) (getDcpLocalSeqLens : DcpLocalSeqLens) (rank : Fin P) : Option PCPPlan :=
  if useMla = true ∨ dcp.worldSize ≤ 1 ∨ b.hasPrefill = false then none
  else
    let segs := localSegments (l.segmentsByRank rank)
    let newKvLens := segs.map (newKvLen b)
    let contextLens := b.reqs.map (·.numComputedTokens)
    let hasContext := contextLens.any (· != 0)
    some {
      newKvIdx := (segs.map (newKvPart b l)).flatten
      newCuKv := offsets newKvLens
      newMaxKv := newKvLens.foldr max 0
      ctx :=
        if hasContext then
          some (contextPlan b l rank segs (getDcpLocalSeqLens contextLens dcp.worldSize dcp.rank dcp.interleave))
        else none }

end

/-! ## Widths before the layout -/

/-- The tokens of the two chunks of a rank. -/
def rankTokens (length : Nat) {pcpSize : Nat} (r : Fin pcpSize) : Nat :=
  (rankSegments length r).1.numTokens + (rankSegments length r).2.numTokens

def getNumTokensForDispatch (useMla : Bool) (b : InputBatch) (pcpSize : Nat) : Nat :=
  if useMla then
    (b.reqs.map fun q =>
      if q.isPrefilling then maxOver fun r : Fin pcpSize => rankTokens q.numScheduledTokens r
      else q.numScheduledTokens).sum
  else
    (List.finRange pcpSize).foldl (fun largest r =>
      max largest (b.reqs.map fun q =>
        if q.isPrefilling then rankTokens q.numScheduledTokens r else q.numScheduledTokens).sum) 0

/-- What `profile_run` reads. -/
structure ProfileConfig where
  pcpSize : Nat
  maxNumTokens : Nat
  maxNumReqs : Nat
  decodeQueryLen : Nat
  -- `_uses_global_pcp_batch`
  usesGlobalBatch : Bool

/-- The `max_num_tokens` of the profile of the target. -/
def ProfileConfig.targetBudget (c : ProfileConfig) : Nat :=
  if c.pcpSize ≤ 1 || c.usesGlobalBatch then c.maxNumTokens
  else
    let partitionedTokens := (c.maxNumTokens + c.pcpSize - 1) / c.pcpSize * 9 / 8
    let replicatedRequestTokens := min c.maxNumTokens (c.maxNumReqs * max c.decodeQueryLen 2)
    min c.maxNumTokens (max 1 (partitionedTokens + replicatedRequestTokens))

/-! ## The sequence lengths of the local rows -/

/-- The device tensors of the global batch, by token and by request. -/
structure DeviceBatch where
  positions : Nat → Nat
  seqLens : Nat → Nat

/-- The buffers that the lengths pass through; what a call does not write is left from earlier ones. -/
structure SeqScratch where
  cuNumLogitsNp : Nat → Nat
  logitsIndices : Nat → Nat
  seqLensI64 : Nat → Nat
  seqLens : Nat → Nat

/-- `positions`, zeroed and then copied with the tokens. -/
def localPositions (device : DeviceBatch) (lb : LocalBatch) (j : Nat) : Nat := (lb.globalToken j).elim 0 device.positions

def fullRequestRows (b : InputBatch) (segs : List BatchSegment) : Bool :=
  segs.all fun s => decide (0 < s.numActualTokens) && s.globalStart == b.queryStartLoc s.globalReqIdx &&
    s.globalStop == b.queryStartLoc (s.globalReqIdx + 1)

/-- `dst[:n].copy_(src[:n])` -/
def copyFirst (dst src : Nat → Nat) (n : Nat) : Nat → Nat := writeSlice dst 0 ((List.range n).map src)

/-- `torch.index_select(source, 0, index[:n], out=dst[:n])` -/
def indexSelect (dst source index : Nat → Nat) (n : Nat) : Nat → Nat :=
  writeSlice dst 0 ((List.range n).map fun i => source (index i))

def gatherSeqLens (device : DeviceBatch) (segs : List BatchSegment) (st : SeqScratch) : SeqScratch :=
  let n := segs.length
  let seqScratchNp := writeSlice st.cuNumLogitsNp 0 (segs.map (·.globalReqIdx))
  let seqIndex := copyFirst st.logitsIndices seqScratchNp n
  { st with
    cuNumLogitsNp := seqScratchNp
    logitsIndices := seqIndex
    seqLens := indexSelect st.seqLens device.seqLens seqIndex n }

/-- The rows that have tokens, with their numbers. -/
def actualRows (segs : List BatchSegment) : List (BatchSegment × Nat) :=
  segs.zipIdx.filter fun p => decide (0 < p.1.numActualTokens)

def positionSeqLens (positions : Nat → Nat) (segs : List BatchSegment) (st : SeqScratch) : SeqScratch :=
  let n := segs.length
  let widths := writeSlice st.cuNumLogitsNp 0 (segs.map (·.paddingTokens))
  let seqLens := copyFirst st.seqLens widths n
  let rows := actualRows segs
  let numActualRows := rows.length
  if numActualRows = 0 then { st with cuNumLogitsNp := widths, seqLens := seqLens }
  else
    let lastNp := writeSlice widths 0 (rows.map fun p => p.1.localStart + p.1.numActualTokens - 1)
    let actualLastIndex := copyFirst st.logitsIndices lastNp numActualRows
    let lastPositions := indexSelect st.seqLensI64 positions actualLastIndex numActualRows
    -- `add_` in place
    let actualSeqLens := writeSlice lastPositions 0 ((List.range numActualRows).map fun i => lastPositions i + 1)
    let rowNp := writeSlice lastNp 0 (rows.map (·.2))
    let actualRowIndex := copyFirst actualLastIndex rowNp numActualRows
    { cuNumLogitsNp := rowNp
      logitsIndices := actualRowIndex
      seqLensI64 := actualSeqLens
      seqLens := scatter seqLens ((List.range numActualRows).map fun i => (actualRowIndex i, actualSeqLens i)) }

def writeSeqLens (b : InputBatch) (device : DeviceBatch) (lb : LocalBatch) (segs : List BatchSegment) (st : SeqScratch) :
    SeqScratch :=
  if fullRequestRows b segs then gatherSeqLens device segs st else positionSeqLens (localPositions device lb) segs st

end VllmHcu.Pcp
