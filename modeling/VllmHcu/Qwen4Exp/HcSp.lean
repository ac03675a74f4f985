import VllmHcu.Lib.RowShard
import VllmHcu.Lib.Result

/-!
# Qwen4Exp with hyper-connection sequence parallelism

One pipeline stage, run on all ranks of the group together: a tensor is given for
every rank, also without the flag, where every rank holds all rows. A row of the
multi-stream state has `hc` streams. The hyper-connection modules work on rows;
attention and the per-layer embedding are functions of all rows.
-/

namespace VllmHcu.Qwen4Exp

/-- A function of all rows of a tensor that keeps their number. -/
structure RowsFn (α β : Type) where
  apply : List α → List β
  rows : ∀ x, (apply x).length = x.length

/-- A row of the multi-stream state. -/
abbrev Streams (hc : Nat) (H : Type) := Fin hc → H

/-- A hyper-connection module on a row; a pending combine is a block output and its injection. -/
structure HyperConnection (hc : Nat) (H I : Type) where
  combine : Streams hc H → H → I → Streams hc H
  mix : Streams hc H → Streams hc H × H × I
  combineAndMix : Streams hc H → Option (H × I) → Streams hc H × H × I

inductive LayerType
  | linearAttention
  | fullAttention
  | other
  deriving DecidableEq

/-- The MLP of a layer: experts that may get a masked row, or a dense MLP with partial sums of a rank. -/
inductive Mlp (H : Type)
  | sparseMoe (expert : Bool → H → H)
  | dense (part : Nat → H → H)

structure DecoderLayer (hc : Nat) (H I : Type) where
  layerType : LayerType
  attnHyperConnection : HyperConnection hc H I
  mlpHyperConnection : HyperConnection hc H I
  /-- From `input_ids`, `query_start_loc` and `ngram_context`. -/
  ple : Option (List Int → List Int → List Int → RowsFn (Streams hc H) (Streams hc H))
  /-- The partial sums of a rank. -/
  linearAttn : Nat → RowsFn H H
  selfAttn : Nat → List (List Int) → RowsFn H H
  mlp : Mlp H

structure Model (hc : Nat) (H I : Type) where
  layers : List (DecoderLayer hc H I)
  hyperConnectionMixer : HyperConnection hc H I
  embedInputIds : List Int → List H

/-- The flags and inputs of a run. -/
structure Context where
  tpSize : Nat
  hcSp : Bool
  fusedPle : Bool
  /-- `VLLM_MOE_SKIP_PADDING`, with a forward context. -/
  skipPadding : Bool
  /-- `is_padding` of the forward context of each rank. -/
  isPadding : Nat → Option (List Bool)
  /-- The coordinates of each token. -/
  positions : List (List Int)
  inputIds : Option (List Int)
  queryStartLoc : Option (List Int)
  ngramContext : Option (List Int)

def Context.numTokens (g : Context) : Nat := g.positions.length

/-! ## Rows of a rank -/

section
variable {α β : Type}

/-- `_pad_rows`. -/
def padToGroup (tpSize : Nat) (x : List α) (value : α) : List α :=
  padRows x (-(x.length : Int) % (tpSize : Int)).toNat value

/-- `_local_rows`. -/
def localRows (tpSize rank : Nat) (x : List α) : List α :=
  let chunk := x.length / tpSize
  sliceAt x (rank * chunk) chunk

def spShard [Zero α] (tpSize rank : Nat) (x : List α) : List α := localRows tpSize rank (padToGroup tpSize x 0)

def spReduceScatter [AddCommMonoid α] (tpSize : Nat) (x : Nat → List α) : Nat → List α :=
  reduceScatterRows tpSize fun r => padToGroup tpSize (x r) 0

/-- `sp_padding_mask`, for `hidden_states` of `rows` rows. -/
def spPaddingMask (tpSize rank : Nat) (isPadding : Option (List Bool)) (rows : Nat) : List Bool :=
  let isPadding := isPadding.getD (List.replicate rows false)
  localRows tpSize rank (padToGroup tpSize isPadding true)

/-- `gather_packed`: the rows of both tensors side by side in one gather. -/
def gatherPacked (tpSize : Nat) (first : Nat → List α) (second : Nat → List β) (numTokens : Nat) : List α × List β :=
  let packed := (allGatherRows tpSize fun r => (first r).zip (second r)).take numTokens
  (packed.map (·.1), packed.map (·.2))

end

section
variable {hc : Nat} {H I : Type}

/-! ## The modules on tensors -/

def HyperConnection.combineRows (m : HyperConnection hc H I) (hidden : List (Streams hc H)) (output : List H)
    (injection : List I) : List (Streams hc H) :=
  List.zipWith (fun w p => m.combine w p.1 p.2) hidden (output.zip injection)

/-- The columns of a tensor of triples. -/
def columns {α β γ : Type} (x : List (α × β × γ)) : List α × List β × List γ :=
  (x.map (·.1), x.map (·.2.1), x.map (·.2.2))

def HyperConnection.mixRows (m : HyperConnection hc H I) (hidden : List (Streams hc H)) :
    List (Streams hc H) × List H × List I :=
  columns (hidden.map m.mix)

def HyperConnection.combineAndMixRows (m : HyperConnection hc H I) (hidden : List (Streams hc H))
    (pending : Option (List H × List I)) : List (Streams hc H) × List H × List I :=
  match pending with
  | none => columns (hidden.map fun w => m.combineAndMix w none)
  | some (output, injection) =>
    columns (List.zipWith (fun w p => m.combineAndMix w (some p)) hidden (output.zip injection))

/-- `hidden_states` with `block_output` and `injection`, of every rank. The last two are `None` together. -/
structure State (hc : Nat) (H I : Type) where
  hidden : Nat → List (Streams hc H)
  pending : Option ((Nat → List H) × (Nat → List I))

/-- The state with a pending combine done by `m`. -/
def materialize (m : HyperConnection hc H I) (s : State hc H I) : State hc H I :=
  match s.pending with
  | none => s
  | some (output, injection) => ⟨fun r => m.combineRows (s.hidden r) (output r) (injection r), none⟩

variable [AddCommMonoid H]

/-! ## The decoder layer -/

/-- The addition of the per-layer embedding to the materialized state. -/
def applyPle (g : Context) (attnHc : HyperConnection hc H I)
    (ple : List Int → List Int → List Int → RowsFn (Streams hc H) (Streams hc H)) (s : State hc H I) :
    Except String (State hc H I) :=
  let s := materialize attnHc s
  match g.inputIds, g.queryStartLoc, g.ngramContext with
  | some inputIds, some queryStartLoc, some ngramContext =>
    let pleInput := fun r => if g.hcSp then (allGatherRows g.tpSize s.hidden).take g.numTokens else s.hidden r
    let pleOutput := fun r => (ple inputIds queryStartLoc ngramContext).apply (pleInput r)
    let pleOutput := fun r => if g.hcSp then spShard g.tpSize r (pleOutput r) else pleOutput r
    .ok { s with hidden := fun r => if g.fusedPle then pleOutput r else List.zipWith (· + ·) (s.hidden r) (pleOutput r) }
  | _, _, _ => .error "PLE inputs were not prepared"

/-- The state that attention starts from. -/
def enterLayer (g : Context) (layer : DecoderLayer hc H I) (s : State hc H I) : Except String (State hc H I) :=
  match layer.ple with
  | none => .ok s
  | some ple => applyPle g layer.attnHyperConnection ple s

/-- The mix before attention, fused with a pending combine. -/
def mixPending (attnHc : HyperConnection hc H I) (s : State hc H I) (rank : Nat) :
    List (Streams hc H) × List H × List I :=
  match s.pending with
  | some (output, injection) => attnHc.combineAndMixRows (s.hidden rank) (some (output rank, injection rank))
  | none => attnHc.mixRows (s.hidden rank)

/-- The output projection reduces the partial sums of the ranks unless the layer scatters them. -/
def attention (g : Context) (layer : DecoderLayer hc H I) (blockInput : Nat → List H) : Except String (Nat → List H) :=
  let blockInput := fun r => if g.hcSp then (allGatherRows g.tpSize blockInput).take g.numTokens else blockInput r
  let reduce := fun part : Nat → List H =>
    if g.hcSp then spReduceScatter g.tpSize part else fun _ => allReduceRows g.tpSize part
  match layer.layerType with
  | .linearAttention => .ok (reduce fun r => (layer.linearAttn r).apply (blockInput r))
  | .fullAttention => .ok (reduce fun r => (layer.selfAttn r g.positions).apply (blockInput r))
  | .other => .error "Invalid layer_type"

/-- The rows that the experts of a rank mask. -/
def maskedRows (g : Context) (rank rows : Nat) : List Bool :=
  if g.skipPadding then (g.isPadding rank).getD (List.replicate rows false) else List.replicate rows false

/-- A dense MLP all-reduces its output. -/
def denseMlp (g : Context) (part : Nat → H → H) (x : Nat → List H) : Nat → List H :=
  fun _ => allReduceRows g.tpSize fun r => (x r).map (part r)

def mlpForward (g : Context) (mlp : Mlp H) (blockInput : Nat → List H) (rank : Nat) : List H :=
  match mlp with
  | .sparseMoe expert => List.zipWith expert (maskedRows g rank (blockInput rank).length) (blockInput rank)
  | .dense part =>
    if g.hcSp then
      spShard g.tpSize rank (denseMlp g part (fun _ => (allGatherRows g.tpSize blockInput).take g.numTokens) rank)
    else denseMlp g part blockInput rank

def decoderForward (g : Context) (layer : DecoderLayer hc H I) (s : State hc H I) : Except String (State hc H I) := do
  let s ← enterLayer g layer s
  let mixed := mixPending layer.attnHyperConnection s
  let attnOut ← attention g layer fun r => (mixed r).2.1
  let combined := fun r =>
    layer.mlpHyperConnection.combineAndMixRows (mixed r).1 (some (attnOut r, (mixed r).2.2))
  pure ⟨fun r => (combined r).1, some (mlpForward g layer.mlp fun r => (combined r).2.1, fun r => (combined r).2.2)⟩

/-! ## The model -/

/-- The addition of a deepstack input, which materializes the pending combine of the layer. -/
def addDeepstack (g : Context) (mlpHc : HyperConnection hc H I) (embed : List H) (s : State hc H I) : State hc H I :=
  let rows := fun r => if g.hcSp then spShard g.tpSize r embed else embed
  let s := materialize mlpHc s
  ⟨fun r => List.zipWith (· + ·) (s.hidden r) ((rows r).map fun row _ => row), none⟩

/-- The layers from layer `start` on. -/
def runLayers (g : Context) (deepstackInputEmbeds : Option (List (List H))) (start : Nat)
    (layers : List (DecoderLayer hc H I)) (s : State hc H I) : Except String (State hc H I) :=
  (layers.zipIdx start).foldlM (fun s p => do
    let s ← decoderForward g p.1 s
    match deepstackInputEmbeds.bind (·[p.2]?) with
    | some embed => pure (addDeepstack g p.1.mlpHyperConnection embed s)
    | none => pure s) s

/-- The final mixer: the rows that each rank returns, and its MTP buffer afterwards. -/
def finish (g : Context) (mixer : HyperConnection hc H I) (mtpHiddenBuffer : Option (Nat → List (Streams hc H)))
    (s : State hc H I) (rank : Nat) : List H × Option (List (Streams hc H)) :=
  let mixed := fun r => mixer.combineAndMixRows (s.hidden r) (s.pending.map fun p => (p.1 r, p.2 r))
  match mtpHiddenBuffer with
  | some buffer =>
    let (sample, multi) :=
      if g.hcSp then gatherPacked g.tpSize (fun r => (mixed r).2.1) (fun r => (mixed r).1) g.numTokens
      else ((mixed rank).2.1, (mixed rank).1)
    (sample, some (multi ++ (buffer rank).drop multi.length))
  | none => (if g.hcSp then (allGatherRows g.tpSize fun r => (mixed r).2.1).take g.numTokens else (mixed rank).2.1, none)

/-- The context after `shard_tokens_for_hc_sp`, for `hidden_states` of `rows` rows. -/
def alignPadding (g : Context) (rows : Nat) : Context :=
  if g.hcSp && g.skipPadding then
    { g with isPadding := fun r => some (spPaddingMask g.tpSize r (g.isPadding r) rows) }
  else g

/-- The rows of `shard_tokens_for_hc_sp`, expanded to all streams. -/
def firstState (g : Context) (embeds : List H) : State hc H I :=
  ⟨fun r => (if g.hcSp then spShard g.tpSize r embeds else embeds).map fun row _ => row, none⟩

/-- `hidden_states` of the first stage. -/
def inputRows (m : Model hc H I) (g : Context) (inputsEmbeds : Option (List H)) : Except String (List H) :=
  match inputsEmbeds, g.inputIds with
  | some embeds, _ => .ok embeds
  | none, some inputIds => .ok (m.embedInputIds inputIds)
  | none, none => .error "input_ids or inputs_embeds is required"

def modelForward (m : Model hc H I) (g : Context) (inputsEmbeds : Option (List H))
    (deepstackInputEmbeds : Option (List (List H))) (mtpHiddenBuffer : Option (Nat → List (Streams hc H))) :
    Except String (Nat → List H × Option (List (Streams hc H))) := do
  let embeds ← inputRows m g inputsEmbeds
  let g := alignPadding g embeds.length
  let s ← runLayers g deepstackInputEmbeds 0 m.layers (firstState g embeds)
  pure (finish g m.hyperConnectionMixer mtpHiddenBuffer s)

end

end VllmHcu.Qwen4Exp
