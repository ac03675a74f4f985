import VllmHcu.Lib.RowShard
import VllmHcu.Lib.Result
import Mathlib.Algebra.Ring.Pi

/-!
# The sequence-parallel MoE layer of Kimi-K3

A row is an element of a ring in which products are taken entry by entry. The
kernels that work on rows are functions of one row; attention is a function of
all rows, and its output and the shared experts' output are partial sums of a rank.
The functions of the sharded layer run on all ranks together, so each takes the
tensors of every rank.
-/

namespace VllmHcu.KimiK3

/-- The facts of `MoERunner` that the check reads. -/
structure MoeRunner where
  tpSize : Nat
  isSequenceParallel : Bool
  skipFinalAllReduce : Bool
  fusedOutputIsReduced : Bool
  epFusedCombine : Bool
  enableDbo : Bool

def checkRunner (runner : MoeRunner) : Except String Unit :=
  let problems :=
    (if runner.tpSize ≠ 1 then ["moe tp_size=" ++ toString runner.tpSize ++ " (EP required)"] else []) ++
    (if runner.isSequenceParallel then ["runner already in upstream sequence-parallel mode"] else []) ++
    (if runner.skipFinalAllReduce then ["skip_final_all_reduce is set"] else []) ++
    (if runner.fusedOutputIsReduced = false then ["combine output is not reduced (DeepEP LL/HT required)"] else []) ++
    (if runner.epFusedCombine then ["EP fused combine is enabled"] else []) ++
    (if runner.enableDbo then ["DBO is enabled"] else [])
  if problems = [] then .ok ()
  else .error ("VLLM_HCU_K3_SP_MOE=1 is incompatible with this MoE runner: " ++ "; ".intercalate problems ++
    ". Unset VLLM_HCU_K3_SP_MOE to restore the replicated MoE path.")

/-- `_SpState` without the group size and the rank, which the functions below take. -/
structure SpState where
  runner : MoeRunner
  checked : Bool

/-- `KimiDecoderLayer` with the kernels of its parts. -/
structure DecoderLayer (H : Type) where
  isBlockWriteLayer : Bool
  blockWriteIdx : Nat
  prevValidBlocks : Int
  /-- The `attn_res` kernel on one row, with the weights of `self_attention_res_*`. -/
  selfAttentionRes : H → (Nat → H) → Int → H
  /-- The same with the weights of `mlp_res_*`. -/
  mlpRes : H → (Nat → H) → Int → H
  inputLayernorm : H → H
  postAttentionLayernorm : H → H
  /-- The partial sums of a rank. -/
  runSelfAttn : Nat → List Int → List H → List H
  /-- The routed experts on a row, which may be masked as padding. -/
  experts : Bool → H → H
  /-- The partial sum of a rank for a row. -/
  sharedExperts : Option (Nat → H → H)

/-- `window_sp_padding_mask`, for `topk_ids` of `shard` rows. -/
def windowSpPaddingMask (isPadding : List Bool) (shard : Nat) (window : Option (Nat × Nat)) : List Bool :=
  match window with
  | none => isPadding
  | some (rank, tpSize) =>
    let paddedLen := shard * tpSize
    let isPadding :=
      if isPadding.length < paddedLen then padRows isPadding (paddedLen - isPadding.length) true else isPadding
    sliceAt (isPadding.take paddedLen) (rank * shard) shard

/-- The rows that `_compute_routing` masks out of `rows` rows. -/
def maskedRows (isPadding : Option (List Bool)) (rows : Nat) (window : Option (Nat × Nat)) : List Bool :=
  match isPadding.map fun mask => windowSpPaddingMask mask rows window with
  | none => List.replicate rows false
  | some mask => if rows ≤ mask.length then mask.take rows else List.replicate rows false

section
variable {H : Type} [NonAssocSemiring H]

/-- `_attn_res`. -/
def attnRes (kernel : H → (Nat → H) → Int → H) (prefixSum : List H) (blockResidual : List (Nat → H))
    (numValidBlocks : Int) : List H :=
  if numValidBlocks ≤ 0 then prefixSum
  else List.zipWith (fun row blocks => kernel row blocks numValidBlocks) prefixSum blockResidual

def mlpValidBlocks (layer : DecoderLayer H) : Int := layer.prevValidBlocks + if layer.isBlockWriteLayer then 1 else 0

/-- The layer up to the input norm: `prefix_sum`, `block_residual` and the normed rows. -/
def enterLayer (layer : DecoderLayer H) (hiddenStates : List H) (blockResidual : List (Nat → H)) :
    Option (List H) × List (Nat → H) × List H :=
  let hidden := attnRes layer.selfAttentionRes hiddenStates blockResidual layer.prevValidBlocks
  if layer.isBlockWriteLayer then
    (none, List.zipWith (fun blocks row => Function.update blocks layer.blockWriteIdx row) blockResidual hiddenStates,
      hidden.map layer.inputLayernorm)
  else (some hiddenStates, blockResidual, hidden.map layer.inputLayernorm)

/-- The routed experts on the rows of one rank. -/
def routedExperts (layer : DecoderLayer H) (isPadding : Option (List Bool)) (window : Option (Nat × Nat))
    (x : List H) : List H :=
  List.zipWith layer.experts (maskedRows isPadding x.length window) x

/-! ## The replicated layer -/

/-- `mlp`, with the shared experts all-reduced. -/
def mlp (layer : DecoderLayer H) (tpSize : Nat) (isPadding : Option (List Bool)) (x : List H) : List H :=
  let routed := routedExperts layer isPadding none x
  match layer.sharedExperts with
  | none => routed
  | some shared => List.zipWith (· + ·) routed (allReduceRows tpSize fun r => x.map (shared r))

/-- `prefix_sum` with the attention output, which a block write starts from. -/
def addAttn (prefixSum : Option (List H)) (attn : List H) : List H :=
  match prefixSum with
  | some prefixSum => List.zipWith (· + ·) prefixSum attn
  | none => attn

/-- `forward_attn_residual`, with the attention output all-reduced. -/
def forwardAttnResidual (layer : DecoderLayer H) (tpSize : Nat) (isPadding : Option (List Bool)) (positions : List Int)
    (hiddenStates : List H) (blockResidual : List (Nat → H)) : List H × List (Nat → H) :=
  let (prefixSum, blockResidual, normed) := enterLayer layer hiddenStates blockResidual
  let attn := allReduceRows tpSize fun r => layer.runSelfAttn r positions normed
  let prefixSum := addAttn prefixSum attn
  let hidden := attnRes layer.mlpRes prefixSum blockResidual (mlpValidBlocks layer)
  let hidden := mlp layer tpSize isPadding (hidden.map layer.postAttentionLayernorm)
  (List.zipWith (· + ·) prefixSum hidden, blockResidual)

/-! ## The sharded layer -/

/-- `shard = -(-num_tokens // tp_size)`. -/
def shardRows (numTokens tpSize : Nat) : Nat := (-(-(numTokens : Int) / (tpSize : Int))).toNat

/-- `idx` before it is clamped. -/
def windowIdx (shard rank : Nat) : List Nat := List.range' (rank * shard) shard

/-- `keep`, one factor for each row of the window. -/
def keep (H : Type) [NonAssocSemiring H] (numTokens shard rank : Nat) : List H :=
  (windowIdx shard rank).map fun i => if i < numTokens then 1 else 0

/-- `x.index_select(0, idx)` for the clamped `idx`. -/
def selectWindow {α : Type} [Zero α] (numTokens shard rank : Nat) (x : List α) : List α :=
  indexSelect x ((windowIdx shard rank).map fun i => min i (numTokens - 1))

/-- The reduce-scattered attention output of each rank. -/
def spAttnLocal (layer : DecoderLayer H) (tpSize : Nat) (positions : List Int) (normed : List H) (numTokens : Nat) :
    Nat → List H :=
  let shard := shardRows numTokens tpSize
  reduceScatterRows tpSize fun r => padRows (layer.runSelfAttn r positions normed) (shard * tpSize - numTokens) 0

/-- `prefix_local` and `hidden_local` before the norm, from the attention output. -/
def spResidual (layer : DecoderLayer H) (numTokens shard rank : Nat) (prefixSum : Option (List H))
    (blockResidual : List (Nat → H)) (attnLocal : List H) : List H × List H :=
  let prefixLocal :=
    match prefixSum with
    | none => attnLocal
    | some prefixSum =>
      List.zipWith (· + ·) (List.zipWith (· * ·) (selectWindow numTokens shard rank prefixSum) (keep H numTokens shard rank))
        attnLocal
  if mlpValidBlocks layer ≤ 0 then (prefixLocal, prefixLocal)
  else
    let resWindow := selectWindow numTokens shard rank blockResidual
    (prefixLocal, List.zipWith (· * ·) (attnRes layer.mlpRes prefixLocal resWindow (mlpValidBlocks layer))
      (keep H numTokens shard rank))

/-- `sp_shared_forward` of `_wrap_shared_experts`. -/
def spSharedForward (shared : Nat → H → H) (tpSize : Nat) (x : Nat → List H) : Nat → List H :=
  reduceScatterRows tpSize fun r => (allGatherRows tpSize x).map (shared r)

/-- `mlp` with the wrapped shared experts, whose output the runner passes through. -/
def spMlp (layer : DecoderLayer H) (tpSize : Nat) (isPadding : Option (List Bool)) (x : Nat → List H) (rank : Nat) :
    List H :=
  let routed := routedExperts layer isPadding (some (rank, tpSize)) (x rank)
  match layer.sharedExperts with
  | none => routed
  | some shared => List.zipWith (· + ·) routed (spSharedForward shared tpSize x rank)

/-- `prefix_local` after the experts. -/
def spPrefixLocal (layer : DecoderLayer H) (tpSize : Nat) (isPadding : Option (List Bool))
    (locals : Nat → List H × List H) (rank : Nat) : List H :=
  let hiddenLocal := spMlp layer tpSize isPadding fun r => (locals r).2.map layer.postAttentionLayernorm
  List.zipWith (· + ·) (locals rank).1 (hiddenLocal rank)

/-- The gathered rows without the padding. -/
def spGather (tpSize numTokens : Nat) (prefixLocal : Nat → List H) : List H :=
  (allGatherRows tpSize prefixLocal).take numTokens

/-- `_sp_forward_attn_residual` on a rank of state `state`. -/
def spForwardAttnResidual (layer : DecoderLayer H) (tpSize : Nat) (isPadding : Option (List Bool)) (state : SpState)
    (positions : List Int) (hiddenStates : List H) (blockResidual : List (Nat → H)) :
    Except String (SpState × List H × List (Nat → H)) := do
  let numTokens := hiddenStates.length
  let shard := shardRows numTokens tpSize
  let (prefixSum, blockResidual, normed) := enterLayer layer hiddenStates blockResidual
  let attnLocal := spAttnLocal layer tpSize positions normed numTokens
  let locals := fun r => spResidual layer numTokens shard r prefixSum blockResidual (attnLocal r)
  if !state.checked then checkRunner state.runner
  pure ({ state with checked := true }, spGather tpSize numTokens (spPrefixLocal layer tpSize isPadding locals), blockResidual)

end

end VllmHcu.KimiK3
