import VllmHcu.Dcp.TopkMerge
import VllmHcu.Lib.Result
import Mathlib.Algebra.GroupWithZero.Nat

/-!
# Decode rows of the sparse indexer

The decode tokens of a batch lie one request after the other. Requests of
unequal length are packed into a rectangle for the logits kernel, and the rows
that it selects from are unpacked again. A tensor is a function of its position
with its shape beside it.
-/

namespace VllmHcu.Mla

open VllmHcu.Dcp (TorchTopk Logits topkIndicesTorch clamp)

/-! ## Packing -/

/-- `[batch, next_n]` rows. -/
structure Packed (Q : Type) where
  batch : Nat
  nextN : Nat
  elem : Nat → Nat → Q

/-- A request and a position in it, token after token. -/
def cells (lens : List Nat) : List (Nat × Nat) :=
  lens.zipIdx.flatMap fun p => (List.range p.1).map fun j => (p.2, j)

section
variable {Q : Type}

def packSeqTriton (pad : Q) (q : Nat → Q) (lens : List Nat) : Packed Q where
  batch := lens.length
  nextN := lens.foldr max 0
  elem r j := if j < lens.getD r 0 then q ((lens.take r).sum + j) else pad

/-- The actual rows. -/
def unpackSeqTriton (rows : Nat → Nat → Q) (lens : List Nat) : List Q := (cells lens).map fun c => rows c.1 c.2

/-- `q[:num_tokens].reshape(batch, -1)` -/
def reshapeRows (batch numTokens : Nat) (q : Nat → Q) : Except String (Packed Q) := do
  ensure (0 < batch ∧ numTokens % batch = 0) "shape is invalid for input"
  .ok ⟨batch, numTokens / batch, fun r j => q (r * (numTokens / batch) + j)⟩

end

/-! ## Lengths -/

/-- One final length a request, or one length a row. -/
inductive SeqLens
  | perRequest (batch : Nat) (elem : Nat → Int)
  | perRow (batch width : Nat) (elem : Nat → Nat → Int)

namespace SeqLens

/-- `seq_lens.shape[0]` -/
def batch : SeqLens → Nat
  | perRequest batch _ => batch
  | perRow batch _ _ => batch

/-- Where the context of a query ends, as the logits kernel takes it. -/
def ends (s : SeqLens) (nextN r j : Nat) : Int :=
  match s with
  | perRequest _ elem => elem r - nextN + 1 + j
  | perRow _ _ elem => elem r j

end SeqLens

/-- `_decode_row_ends_from_seq_lens` -/
def decodeRowEndsFromSeqLens (s : SeqLens) (nextN numRows : Nat) : List Int :=
  match s with
  | .perRow batch width elem =>
    (((List.range (batch * width)).map fun i => elem (i / width) (i % width)).take numRows).map fun z => max z 0
  | .perRequest batch elem =>
    if batch * nextN = numRows ∧ 1 < nextN then
      (((List.range (batch * nextN)).map fun i => elem (i / nextN) - nextN + (i % nextN : Nat) + 1).take numRows).map
        fun z => max z 0
    else (((List.range batch).map elem).take numRows).map fun z => max z 0

/-! ## The logits -/

/-- What the kernel gives for a column from a query row, a row of weights, the pages of the request and the end of its
context. -/
abbrev MqaKernel (κ Q W α : Type) := κ → Q → W → List Int → Int → Nat → α

/-- The rows of the weights are those of the queries, flat. -/
def rocmFp8PagedMqaLogits {κ Q W α : Type} (mqa : MqaKernel κ Q W α) (q : Packed Q) (cache : κ) (weights : Nat → W)
    (weightRows : Nat) (contextLens : SeqLens) (blockTables : Nat → List Int) (maxModelLen : Nat) :
    Except String (Logits α) := do
  ensure (weightRows = q.batch * q.nextN) "shape is invalid for input"
  .ok ⟨q.batch * q.nextN, maxModelLen, fun i c =>
    mqa cache (q.elem (i / q.nextN) (i % q.nextN)) (weights i) (blockTables (i / q.nextN))
      (contextLens.ends q.nextN (i / q.nextN) (i % q.nextN)) c⟩

/-! ## The rows that are stored -/

def getDecodeTopkOutputBuffer (buffer : List (List Int)) (numPaddedTokens topkTokens : Nat) (requiresPadding : Bool) :
    List (List Int) :=
  if !requiresPadding then (buffer.take numPaddedTokens).map (·.take topkTokens)
  else List.replicate numPaddedTokens (List.replicate topkTokens (-1))

/-- `out.copy_(rows)`, for rows of the shape of `out`. -/
def copyRows (out rows : List (List Int)) : Except String (List (List Int)) := do
  ensure (out.map List.length = rows.map List.length) "shape mismatch"
  .ok rows

/-- The buffer, after a prefix of its rows has been overwritten from the first column on. -/
def storeRows (buffer rows : List (List Int)) : List (List Int) :=
  List.zipWith (fun row old => row ++ old.drop row.length) rows buffer ++ buffer.drop rows.length

/-- What the decode part is given. -/
structure DecodeBatch (κ Q W : Type) where
  decodeLens : List Nat
  numDecodeTokens : Nat
  requiresPadding : Bool
  seqLens : SeqLens
  blockTable : Nat → List Int
  q : Nat → Q
  -- what `pack_seq_triton` fills with
  pad : Q
  weights : Nat → W
  weightRows : Nat
  cache : κ
  maxModelLen : Nat
  topkTokens : Nat

section
variable {κ Q W α : Type} (b : DecodeBatch κ Q W)

/-- `padded_q_fp8_decode_tokens` -/
def DecodeBatch.padded : Except String (Packed Q) :=
  if b.requiresPadding then .ok (packSeqTriton b.pad b.q b.decodeLens)
  else reshapeRows b.decodeLens.length b.numDecodeTokens b.q

/-- The end: a padded selection is unpacked, any other was made in the buffer. -/
def DecodeBatch.store (buffer : List (List Int)) (nextN : Nat) (topkIndices : List (List Int)) :
    Except String (List (List Int)) :=
  if b.requiresPadding then do
    let actual ← copyRows ((buffer.take b.numDecodeTokens).map (·.take b.topkTokens))
      (unpackSeqTriton (fun r j => topkIndices.getD (r * nextN + j) []) b.decodeLens)
    return storeRows buffer actual
  else .ok (storeRows buffer topkIndices)

/-- The decode part of `rocm_aiter_sparse_attn_indexer_native` with the torch selector, on one context-parallel rank. -/
def DecodeBatch.run [LinearOrder α] (mqa : MqaKernel κ Q W α) (topk : TorchTopk α) (buffer : List (List Int)) :
    Except String (List (List Int)) := do
  let padded ← b.padded
  ensure (padded.batch = b.seqLens.batch) "AssertionError"
  let numPaddedTokens := padded.batch * padded.nextN
  let logits ← rocmFp8PagedMqaLogits mqa padded b.cache b.weights (min numPaddedTokens b.weightRows) b.seqLens b.blockTable
    b.maxModelLen
  let out := getDecodeTopkOutputBuffer buffer numPaddedTokens b.topkTokens b.requiresPadding
  let rowEnds := decodeRowEndsFromSeqLens b.seqLens padded.nextN logits.rows
  let selected ← topkIndicesTorch topk logits b.topkTokens none (some rowEnds)
  let topkIndices ← copyRows out selected
  b.store buffer padded.nextN topkIndices

end

end VllmHcu.Mla
