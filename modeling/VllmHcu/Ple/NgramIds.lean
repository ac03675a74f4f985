import VllmHcu.Lib.Launch
import VllmHcu.Lib.RowSearch
import Mathlib.Data.Nat.Log

/-!
# PLE n-gram ids

`_ple_ngram_ids_kernel` hashes every token with its predecessors, which stand
in the chunk of the step or, before it, in the context row of the request. The
64-bit words of the kernel are bit vectors.
-/

namespace VllmHcu.Ple

/-- The arguments of `_ple_ngram_ids`. -/
structure NgramCall where
  inputIds : Nat → Nat
  numTokens : Nat
  queryStartLoc : Nat → Nat
  numReqs : Nat
  ngramContext : Nat → Nat → Nat
  ctxLen : Nat
  layerMultipliers : Nat → BitVec 64
  vocabSizes : Nat → BitVec 64
  vocabOffsets : Nat → BitVec 64
  eosTokenId : Nat
  headsPerNgram : Nat

namespace NgramCall
variable (c : NgramCall)

/-- `NGRAM_HEADS` -/
def ngramHeads : Nat := c.ctxLen * c.headsPerNgram

/-- `BLOCK_H` -/
def blockH : Nat := 2 ^ Nat.clog 2 c.ngramHeads

/-- `num_reqs.bit_length()` -/
def binarySearchIters : Nat := c.numReqs.size

def req (t : Nat) : Nat := RowSearch.findRow c.queryStartLoc c.numReqs c.binarySearchIters t

/-- The number of tokens before `t` in its chunk. -/
def chunkPos (t : Nat) : Int := (t : Int) - c.queryStartLoc (c.req t)

/-- The token `shift` places before `t`, before the EOS rule. -/
def candidate (t shift : Nat) : Nat :=
  if (shift : Int) ≤ c.chunkPos t then c.inputIds (t - shift)
  else c.ngramContext (c.req t) ((c.ctxLen : Int) - shift + c.chunkPos t).toNat

/-- One turn of the loop over predecessors for a head of order `order`: `crossed` and `mixed`. -/
def mixStep (t order : Nat) (s : Bool × BitVec 64) (shift : Nat) : Bool × BitVec 64 :=
  let candidate := if s.1 then c.eosTokenId else c.candidate t shift
  let term := BitVec.ofNat 64 candidate * c.layerMultipliers shift
  (s.1 || candidate == c.eosTokenId, s.2 ^^^ if shift < order then term else 0#64)

/-- `mixed` after the loop. -/
def mixed (t order : Nat) : BitVec 64 :=
  ((List.range' 1 c.ctxLen).foldl (c.mixStep t order)
    (false, BitVec.ofNat 64 (c.inputIds t) * c.layerMultipliers 0)).2

/-- `mixed % size` with the sign of the size: the machine remainder has the sign of `mixed`. -/
def remainder (mixed size : BitVec 64) : BitVec 64 :=
  let r := mixed.srem size
  if r.slt 0#64 then r + size else r

def order (g : Nat) : Nat := g / c.headsPerNgram + 2

/-- The id of token `t` for head `g`. -/
def id (t g : Nat) : BitVec 64 := remainder (c.mixed t (c.order g)) (c.vocabSizes g) + c.vocabOffsets g

/-- `BLOCK_T` -/
def blockT : Nat := 8

/-- `_ple_ngram_ids`: the output from the unset memory `out`. -/
def pleNgramIds (out : Nat → BitVec 64) : Nat → BitVec 64 :=
  scatter out ((launchStores c.numTokens blockT c.id).flatMap fun row =>
    ((List.range c.blockH).filter (· < c.ngramHeads)).map fun g => (row.1 * c.ngramHeads + g, row.2 g))

end NgramCall

/-! ## The tables of a layer -/

def mask64 : Nat := (1 <<< 64) - 1
def splitmixGamma : Nat := 0x9E3779B97F4A7C15
def splitmixM1 : Nat := 0xBF58476D1CE4E5B9
def splitmixM2 : Nat := 0x94D049BB133111EB
def pleLayerPrime : Nat := 10007

/-- `_splitmix64`: masking an integer is its remainder modulo `2 ^ 64`. -/
def splitmix64 (value : Int) : Nat :=
  let v := ((value + splitmixGamma) % ((mask64 + 1 : Nat) : Int)).toNat
  let v := ((v ^^^ (v >>> 30)) * splitmixM1) &&& mask64
  let v := ((v ^^^ (v >>> 27)) * splitmixM2) &&& mask64
  (v ^^^ (v >>> 31)) &&& mask64

/-- `_make_layer_multipliers` -/
def makeLayerMultipliers (ngramSize unigramVocabSize : Nat) (seed pleDenseLayerId : Int) : List Nat :=
  let maxMultiplier := ((1 <<< 63) - 1) / unigramVocabSize
  let halfBound := max 1 (maxMultiplier / 2)
  let baseSeed := seed + pleLayerPrime * pleDenseLayerId
  (List.range ngramSize).map fun index =>
    2 * (splitmix64 (baseSeed + splitmixGamma * ((index + 1 : Nat) : Int)) % halfBound) + 1

/-- `_make_vocab_layout`: sizes, offsets and the total; `nthPrimeAfter` is `_nth_prime_after`. -/
def makeVocabLayout (nthPrimeAfter : Int → Nat → Nat) (ngramVocabSizeBase : Int) (ngramHeads pleDenseLayerId : Nat) :
    List Nat × List Nat × Nat :=
  (List.range ngramHeads).foldl (fun (s : List Nat × List Nat × Nat) localHead =>
    let size := nthPrimeAfter (ngramVocabSizeBase - 1) (pleDenseLayerId * ngramHeads + localHead + 1)
    (s.1 ++ [size], s.2.1 ++ [s.2.2], s.2.2 + size)) ([], [], 0)

/-! ## Chunks of token sequences -/

/-- Requests with a chunk of their token sequence: the tokens from `start` on, `len` many. -/
structure Chunks where
  numReqs : Nat
  tokens : Nat → Nat → Nat
  start : Nat → Nat
  len : Nat → Nat

/-- The call made for a batch of chunks: flattened chunks, and the `ctxLen` tokens before each, EOS where there are none. -/
structure Chunks.Describes (b : Chunks) (c : NgramCall) : Prop where
  numReqs : c.numReqs = b.numReqs
  zero : c.queryStartLoc 0 = 0
  next : ∀ r < b.numReqs, c.queryStartLoc (r + 1) = c.queryStartLoc r + b.len r
  total : c.queryStartLoc b.numReqs ≤ c.numTokens
  inputs : ∀ r < b.numReqs, ∀ j < b.len r, c.inputIds (c.queryStartLoc r + j) = b.tokens r (b.start r + j)
  context : ∀ r < b.numReqs, ∀ col < c.ctxLen, c.ngramContext r col =
    if c.ctxLen ≤ b.start r + col then b.tokens r (b.start r + col - c.ctxLen) else c.eosTokenId

/-! ## The id of a position of a sequence -/

section
variable (tokens : Nat → Nat) (eos : Nat)

/-- The token `i` places before position `p`, EOS before the start. -/
def predecessor (p i : Nat) : Nat := if i ≤ p then tokens (p - i) else eos

/-- The same with EOS behind the first EOS among the predecessors. -/
def hashedToken (p i : Nat) : Nat :=
  if (List.range' 1 (i - 1)).any (fun j => predecessor tokens eos p j == eos) then eos else predecessor tokens eos p i

/-- The XOR of the wrapping products over the `order` tokens of the n-gram at position `p`. -/
def hashWord (multipliers : Nat → BitVec 64) (p order : Nat) : BitVec 64 :=
  (List.range order).foldl (fun x i => x ^^^ BitVec.ofNat 64 (hashedToken tokens eos p i) * multipliers i) 0#64

/-- The same XOR of the exact products. -/
def exactHash (multipliers : Nat → Nat) (p order : Nat) : Nat :=
  (List.range order).foldl (fun x i => x ^^^ hashedToken tokens eos p i * multipliers i) 0

end

end VllmHcu.Ple
