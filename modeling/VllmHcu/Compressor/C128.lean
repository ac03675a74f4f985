import VllmHcu.Lib.Scatter
import VllmHcu.Lib.Stride
import Mathlib.Data.Nat.Log

/-!
# The C128 compressor

`_save_partial_states_kernel` stores the `kv` and biased score of every token in
its slot of the state cache, and the fused compress kernel reads, for a token
that ends a group of 128 positions, the rows of the group back. The split kernel
does both in one launch: it takes the rows of the current chunk from the inputs
and only older rows from the state cache. The softmax-weighted sum is a
parameter.
-/

namespace VllmHcu.Compressor

def compressRatio : Nat := 128

def splitBlockSize : Nat := 64

/-- The batch and its state metadata. The tokens of a request have consecutive positions
and the slots its block table gives them; tokens past the last request are padding. -/
structure Batch where
  numReqs : Nat
  numActual : Nat
  queryStartLoc : Nat → Nat
  tokenToReqIndices : Nat → Nat
  positions : Nat → Nat
  slotMapping : Nat → Int
  blockTable : Nat → Nat → Nat
  blockSize : Nat
  blockSize_pos : 0 < blockSize
  start_zero : queryStartLoc 0 = 0
  start_mono : ∀ r < numReqs, queryStartLoc r ≤ queryStartLoc (r + 1)
  start_le : queryStartLoc numReqs ≤ numActual
  request : ∀ r < numReqs, ∀ t, queryStartLoc r ≤ t → t < queryStartLoc (r + 1) → tokenToReqIndices t = r
  consecutive : ∀ r < numReqs, ∀ t, queryStartLoc r ≤ t → t < queryStartLoc (r + 1) →
    positions t = positions (queryStartLoc r) + (t - queryStartLoc r)
  slot : ∀ r < numReqs, ∀ t, queryStartLoc r ≤ t → t < queryStartLoc (r + 1) →
    slotMapping t = (blockTable r (positions t / blockSize) * blockSize + positions t % blockSize : Nat)
  padded : ∀ t, queryStartLoc numReqs ≤ t → t < numActual → slotMapping t = -1

/-- A cell of the state cache. `kv` is in the columns below `STATE_WIDTH`, the score from
there on. -/
structure Cell where
  block : Nat
  row : Nat
  col : Nat
deriving DecidableEq

/-- The inputs of the launch by token or position and column. -/
structure Inputs (α : Type*) where
  kv : Nat → Nat → α
  score : Nat → Nat → α
  ape : Nat → Nat → α

/-- The widths: `HEAD_SIZE` columns of the head, `STATE_WIDTH` of each half of a state row. -/
structure Widths where
  headSize : Nat
  stateWidth : Nat
  head_le : headSize ≤ stateWidth

/-- The lanes from `start` on that the mask `offs < HEAD_SIZE` keeps. -/
def lanes (headSize start n : Nat) : List Nat := (List.range' start n).filter (· < headSize)

section
variable {α : Type*} [Add α] (b : Batch) (x : Inputs α) (w : Widths)

def isBoundary (t : Nat) : Bool := (b.positions t + 1) % compressRatio == 0

/-- The stores of one program for the given columns: none for a negative slot. -/
def saveColumns (cols : List Nat) (t : Nat) : List (Cell × α) :=
  if b.slotMapping t < 0 then []
  else
    let slotId := (b.slotMapping t).toNat
    let cell := fun col => (⟨slotId / b.blockSize, slotId % b.blockSize, col⟩ : Cell)
    (cols.map fun col => (cell col, x.kv t col)) ++
      cols.map fun col => (cell (w.stateWidth + col), x.score t col + x.ape (b.positions t % compressRatio) col)

/-! ## The two-kernel path -/

/-- The program of `_save_partial_states_kernel` for a token. -/
def savePartial (t : Nat) : List (Cell × α) :=
  saveColumns b x w (lanes w.headSize 0 (2 ^ Nat.clog 2 w.headSize)) t

/-- The state cache after the save kernel has run its programs in the given order. -/
def saveKernel (order : List Nat) (cache : Cell → α) : Cell → α :=
  scatter cache (order.flatMap (savePartial b x w))

/-- The cell of a column at position `pos` of a request. -/
def stateCell (req : Nat) (pos : Int) (col : Nat) : Cell :=
  ⟨b.blockTable req (pos / b.blockSize).toNat, (pos % b.blockSize).toNat, col⟩

/-- The pairs that enter the softmax of a column in the plain fused kernel. `other` holds
the fill values of the masked loads. -/
def plainPairs (other : α × α) (cache : Cell → α) (t col : Nat) : List (α × α) :=
  let reqIdx := b.tokenToReqIndices t
  let start : Int := (b.positions t : Int) - compressRatio + 1
  (List.range compressRatio).map fun (k : Nat) =>
    let pos := start + k
    if 0 ≤ pos then (cache (stateCell b reqIdx pos col), cache (stateCell b reqIdx pos (w.stateWidth + col))) else other

/-! ## `_save_and_compress_c128_split_kernel` -/

structure Program where
  token : Nat
  split : Nat

def numSplits : Nat := cdiv w.headSize splitBlockSize

def grid : List Program :=
  (List.range b.numActual).flatMap fun t => (List.range (numSplits w)).map fun s => ⟨t, s⟩

def splitColumns (s : Nat) : List Nat := lanes w.headSize (s * splitBlockSize) splitBlockSize

def saveSplit (p : Program) : List (Cell × α) := saveColumns b x w (splitColumns w p.split) p.token

/-- `candidate_token_idx` of a position. -/
def candidate (t : Nat) (pos : Int) : Int :=
  let reqStart := b.queryStartLoc (b.tokenToReqIndices t)
  let localIdx : Int := t - reqStart
  let prefixPos := b.positions t - localIdx
  reqStart + pos - prefixPos

def inCurrentChunk (t : Nat) (pos : Int) : Bool :=
  decide ((b.queryStartLoc (b.tokenToReqIndices t) : Int) ≤ candidate b t pos) && decide (candidate b t pos ≤ t)

def windowPos (t k : Nat) : Int := (b.positions t : Int) - 127 + k

/-- The pairs that enter the softmax of a column in the split kernel. -/
def splitPairs (other : α × α) (cache : Cell → α) (t col : Nat) : List (α × α) :=
  let reqIdx := b.tokenToReqIndices t
  (List.range 128).map fun k =>
    let pos := windowPos b t k
    if inCurrentChunk b t pos then
      let token := (max (candidate b t pos) 0).toNat
      (x.kv token col, x.score token col + x.ape (pos % 128).toNat col)
    else if 0 ≤ pos then (cache (stateCell b reqIdx pos col), cache (stateCell b reqIdx pos (w.stateWidth + col)))
    else other

/-- The state rows, as block and row, that a program loads. -/
def stateReads (p : Program) : List (Nat × Nat) :=
  if b.slotMapping p.token < 0 || !isBoundary b p.token then []
  else
    (((List.range 128).map (windowPos b p.token)).filter fun pos => decide (0 ≤ pos) && !inCurrentChunk b p.token pos).map
      fun pos => ((stateCell b (b.tokenToReqIndices p.token) pos 0).block, (stateCell b (b.tokenToReqIndices p.token) pos 0).row)

structure LaunchState (α β : Type*) where
  cache : Cell → α
  compressedKv : Nat × Nat → β

/-- One program: it saves its columns, then a boundary token compresses them. -/
def runProgram {β : Type*} (other : α × α) (compress : List (α × α) → β) (st : LaunchState α β) (p : Program) :
    LaunchState α β :=
  if b.slotMapping p.token < 0 then st
  else
    let cache := scatter st.cache (saveSplit b x w p)
    if isBoundary b p.token then
      { cache := cache
        compressedKv := scatter st.compressedKv ((splitColumns w p.split).map fun col =>
          ((p.token, col), compress (splitPairs b x w other cache p.token col))) }
    else { st with cache := cache }

/-- The launch with its programs in the given order. -/
def runLaunch {β : Type*} (other : α × α) (compress : List (α × α) → β) (order : List Program)
    (st : LaunchState α β) : LaunchState α β :=
  order.foldl (runProgram b x w other compress) st

end

end VllmHcu.Compressor
