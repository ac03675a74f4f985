import VllmHcu.Lib.Result
import VllmHcu.Lib.Stride

/-!
# Distributing the tokens of a batch to context-parallel ranks

In the balanced mode each request is padded to `2 * tp_size` chunks and a rank
takes one chunk from each end; in the contiguous mode a rank takes one run of
the batch's tokens. `prepare_cp_metadata` turns the rows of a rank into its
attention metadata.
-/

namespace VllmHcu.Cp

/-- A request of the batch: its query length and its length in the cache, the query included. -/
structure Request where
  qLen : Nat
  kvLen : Int

/-- A row of a rank, one chunk of a request. -/
structure Row where
  seqIndex : Nat
  qLen : Nat
  kvLen : Int

def totalTokens (reqs : List Request) : Nat := (reqs.map (·.qLen)).sum

/-! ## Balanced -/

def chunkLen (tpSize qLen : Nat) : Nat := roundUp qLen (2 * tpSize) / (2 * tpSize)

/-- The part of `[start, stop)` below `qLen`; a part that begins past it is empty. -/
def partLen (chunk start stop qLen : Nat) : Nat := if stop ≤ qLen then chunk else qLen - start

/-- A row and the tokens of its chunk, or nothing where the chunk is empty. -/
def chunkRow (i accuQStart start stop chunk : Nat) (req : Request) : List (Row × List Nat) :=
  let qLen := partLen chunk start stop req.qLen
  if 0 < qLen then
    [(⟨i, qLen, req.kvLen - req.qLen + min req.qLen stop⟩, List.range' (accuQStart + start) qLen)]
  else []

def requestRows (tpSize tpRank i accuQStart : Nat) (req : Request) : List (Row × List Nat) :=
  let reqPadQLen := roundUp req.qLen (2 * tpSize)
  let chunk := chunkLen tpSize req.qLen
  chunkRow i accuQStart (tpRank * chunk) ((tpRank + 1) * chunk) chunk req ++
    chunkRow i accuQStart (reqPadQLen - (tpRank + 1) * chunk) (reqPadQLen - tpRank * chunk) chunk req

def balancedRows (tpSize tpRank : Nat) : Nat → Nat → List Request → List (Row × List Nat)
  | _, _, [] => []
  | i, accuQStart, req :: reqs =>
    requestRows tpSize tpRank i accuQStart req ++ balancedRows tpSize tpRank (i + 1) (accuQStart + req.qLen) reqs

def rankPadTokens (tpSize : Nat) (reqs : List Request) : Nat :=
  (reqs.map fun req => chunkLen tpSize req.qLen * 2).sum

/-- `local_scatter_indexes_tensor`, with `-1` up to the padded length. -/
def scatterIndexes (tpSize tpRank : Nat) (reqs : List Request) : List Int :=
  let indexes := (balancedRows tpSize tpRank 0 0 reqs).flatMap Prod.snd
  indexes.map Int.ofNat ++ List.replicate (rankPadTokens tpSize reqs - indexes.length) (-1)

/-- The index lists of all ranks, gathered in rank order. -/
def globalScatterIndexes (tpSize : Nat) (reqs : List Request) : List Int :=
  (List.range tpSize).flatMap fun r => scatterIndexes tpSize r reqs

/-- The positions of the entries that are not `-1`, in the order of their values. -/
def gatherIndexes (globalScatter : List Int) : List Nat :=
  ((globalScatter.zipIdx.filter fun p => p.1 ≠ -1).mergeSort fun a b => a.1 ≤ b.1).map Prod.snd

/-- The rows of `hidden_states` that a rank computes; a padding index reads row 0. -/
def inputsSplitting {α : Type} (hiddenStates : List α) (scatter : List Int) : Option (List α) :=
  scatter.mapM fun index => hiddenStates[(if index = -1 then 0 else index).toNat]?

/-! ## Contiguous -/

def tokensPerRank (tpSize totalQLen : Nat) : Nat := (totalQLen + tpSize - 1) / tpSize

def contiguousRows (endToken : Nat) : Nat → Nat → Nat → List Request → List Row
  | _, _, _, [] => []
  | currentSeq, startToken, currentPos, req :: reqs =>
    if startToken < endToken then
      let qEnd := currentPos + req.qLen
      let overlapStart := max startToken currentPos
      let overlapEnd := min endToken qEnd
      if overlapStart < overlapEnd then
        ⟨currentSeq, overlapEnd - overlapStart,
          if qEnd ≤ endToken then req.kvLen else req.kvLen - ((qEnd : Int) - endToken)⟩ ::
        contiguousRows endToken (currentSeq + 1) overlapEnd qEnd reqs
      else contiguousRows endToken (currentSeq + 1) startToken qEnd reqs
    else []

/-- What `distribute_tokens_to_cp_ranks` returns; the scatter indexes only in the balanced mode. -/
structure Distribution where
  rankTokens : Int
  rows : List Row
  scatter : Option (List Int)
  gather : Option (List Nat)

def distributeTokens (totalQLen : Nat) (reqs : List Request) (tpRank tpSize : Nat) (balanced : Bool) : Distribution :=
  if balanced then
    let rows := (balancedRows tpSize tpRank 0 0 reqs).map Prod.fst
    { rankTokens := ((rows.map (·.qLen)).sum : Nat)
      rows
      scatter := some (scatterIndexes tpSize tpRank reqs)
      gather := some (gatherIndexes (globalScatterIndexes tpSize reqs)) }
  else
    let perRank := tokensPerRank tpSize totalQLen
    let startToken := tpRank * perRank
    let endToken := min ((tpRank + 1) * perRank) totalQLen
    { rankTokens := min (perRank : Int) ((endToken : Int) - startToken)
      rows := contiguousRows endToken 0 startToken 0 reqs
      scatter := none
      gather := none }

/-! ## Metadata -/

/-- `buf[start : start + n] = values`: as many values as the slice has entries, or one for all of them. -/
def assignSlice (buf : List Int) (start n : Nat) (values : List Int) : Except String (List Int) := do
  let width := min (start + n) buf.length - min start buf.length
  ensure (values.length = width ∨ values.length = 1) "could not broadcast input array"
  let values := if values.length = width then values else List.replicate width (values.headD 0)
  return buf.take start ++ values ++ buf.drop (start + width)

/-- `buf[start:].fill(value)` -/
def fillFrom (buf : List Int) (start : Nat) (value : Int) : List Int :=
  buf.take start ++ List.replicate (buf.length - start) value

def cumsumFrom (acc : Int) : List Nat → List Int
  | [] => []
  | x :: xs => (acc + x) :: cumsumFrom (acc + x) xs

/-- `max(...)` of a tensor's entries. -/
def maxOf (values : List Int) : Except String Int := expect values.max? "max() iterable argument is empty"

structure CommonAttentionMetadata where
  queryStartLocCpu : List Int
  seqLensCpu : List Int
  numComputedTokensCpu : List Int
  numReqs : Nat
  numActualTokens : Int
  numKvActualTokens : Nat
  maxQueryLen : Int
  maxSeqLen : Int
  blockTable : List (List Int)
  seqIndexes : List Nat
  scatter : Option (List Int)
  gather : Option (List Nat)

/-- The two buffers that the row lengths pass through; what a call does not write is left from earlier ones. -/
structure Buffers where
  queryStartLoc : List Int
  seqLens : List Int

/-- Zero, and the sums of the row lengths after it. -/
def startLocs (buf : List Int) (qLens : List Nat) : Except String (List Int) := do
  let cu := cumsumFrom 0 qLens
  ensure (buf ≠ []) "index 0 is out of bounds for axis 0 with size 0"
  let buf ← assignSlice (buf.set 0 0) 1 qLens.length cu
  let last ← expect cu.getLast? "index -1 is out of bounds for axis 0 with size 0"
  return fillFrom buf (qLens.length + 1) last

/-- The requests by the differences of `query_start_loc_cpu[: num_reqs_padded + 1]`. -/
def requestsOf (numReqsPadded : Nat) (queryStartLoc : List Nat) (seqLens : List Int) : List Request :=
  let starts := queryStartLoc.take (numReqsPadded + 1)
  List.zipWith Request.mk (List.zipWith (· - ·) starts.tail starts) seqLens

/-- The metadata of a rank by what it is given of the batch. -/
def metadataOf (d : Distribution) (numTokens : Nat) (blockTable : List (List Int)) (bufs : Buffers) :
    Except String CommonAttentionMetadata := do
  let numReqs := d.rows.length
  let starts ← startLocs bufs.queryStartLoc (d.rows.map (·.qLen))
  let qAccLens := starts.take (numReqs + 1)
  let maxQLen ← maxOf qAccLens
  let lens ← assignSlice bufs.seqLens 0 numReqs (d.rows.map (·.kvLen))
  let kvLens := (fillFrom lens numReqs 0).take numReqs
  let maxKvLen ← maxOf kvLens
  let rows ← expect ((d.rows.map (·.seqIndex)).mapM fun i => blockTable[i]?) "index out of range"
  return {
    queryStartLocCpu := qAccLens
    seqLensCpu := kvLens
    numComputedTokensCpu := List.zipWith (· - ·) kvLens qAccLens.tail
    numReqs
    numActualTokens := d.rankTokens
    numKvActualTokens := numTokens
    maxQueryLen := maxQLen
    maxSeqLen := maxKvLen
    blockTable := rows
    seqIndexes := d.rows.map (·.seqIndex)
    scatter := d.scatter
    gather := d.gather }

def prepareCpMetadata (numReqsPadded numTokens tpRank tpSize : Nat) (balanced : Bool) (queryStartLoc : List Nat)
    (seqLens : List Int) (blockTable : List (List Int)) (bufs : Buffers) : Except String CommonAttentionMetadata :=
  let reqs := requestsOf numReqsPadded queryStartLoc seqLens
  metadataOf (distributeTokens numTokens reqs tpRank tpSize balanced) numTokens blockTable bufs

end VllmHcu.Cp
