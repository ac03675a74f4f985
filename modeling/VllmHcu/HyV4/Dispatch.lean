import VllmHcu.Lib.Text

/-!
# What a checkpoint entry asks for

`_load_weights` sends an entry down one of several routes: the FP8 pairing of
the local projections, the expert bias, the stacked projections, the fused or
the split experts, the attention sink or the generic route. No route reads the
ledger, so an entry is a list of operations that depends on the entry and the
layout alone. Names are lists of characters.
-/

namespace VllmHcu.HyV4

/-- A slot of a parameter; `whole` is the `None` of the source. -/
inductive Slot where
  | whole
  | shard (id : Nat)
  | qkv (id : Text)
  | expert (id : Nat) (shard : Text)
  deriving DecidableEq

inductive Part where
  | weight
  | scale
  deriving DecidableEq

def Part.other : Part → Part
  | .weight => .scale
  | .scale => .weight

/-- The expert owner behind a parameter's weight loader. -/
structure Owner where
  mapGlobalToLocal : Option (Nat → Int)
  staticRow : Option (List Nat)

structure Param where
  name : Text
  isKvScale : Bool
  owner : Owner

/-- The tensor operations and loaders that the routes use. -/
structure TensorOps (T : Type) where
  isFp8 : T → Bool
  chunk2 : T → Except String (T × T)
  expertsNumber : T → Nat → Bool
  row : T → Nat → T
  sliceSinkForTp : T → Except String T
  sameShape : Text → T → Bool
  dequantize : Text → T → T → Except String T
  /-- A parameter's weight loader on one slot, with its report of success. -/
  weightLoader : Text → Slot → T → Except String Bool

structure ExpertMapping where
  paramName : Text
  weightName : Text
  expertId : Nat
  shardId : Text

structure Layout where
  params : List Param
  numExperts : Nat
  numPhysicalExperts : Nat
  numRedundantExperts : Nat
  hasStaticPlan : Bool
  skipTopkLayers : List Nat
  tieWordEmbeddings : Bool
  ppMissing : Text → Bool
  expertMapping : List ExpertMapping

def text (s : String) : Text := s.toList

/-- `name.split(".")` -/
def components (name : Text) : List Text := name.splitOn '.'

def lastComponent (name : Text) : Text := (components name).getLastD []

def isNumber (t : Text) : Bool := !t.isEmpty && t.all Char.isDigit

def number (t : Text) : Nat := t.foldl (fun n c => 10 * n + (c.toNat - '0'.toNat)) 0

/-! ## Names -/

def rewriteHyv4WeightName (name : Text) : Text :=
  let name := Text.replace (text "gate.e_score_correction_bias") (text "expert_bias") name
  let name := Text.replace (text "router.gate.") (text "gate.") name
  if lastComponent name = text "hc_head_fn" then name ++ text ".weight"
  else if lastComponent name = text "hc_fn" then name ++ text ".weight"
  else name

/-- The first `layers.N` of a name. -/
def layerIndex : List Text → Option Nat
  | a :: b :: rest => if a = text "layers" && isNumber b then some (number b) else layerIndex (b :: rest)
  | _ => none

def isSkipTopkIndexerWeight (name : Text) (skipTopkLayers : List Nat) : Bool :=
  if !Text.has (text ".indexer.") name || skipTopkLayers.isEmpty then false
  else match layerIndex (components name) with
    | some layer => skipTopkLayers.contains layer
    | none => false

/-- `\.experts\.\d+\.` in the name: neither the first nor the last component -/
def hasExpertId : List Text → Bool
  | _ :: b :: c :: d :: rest => b = text "experts" && isNumber c || hasExpertId (b :: c :: d :: rest)
  | _ => false

def isSplitExpertWeight (name : Text) : Bool := hasExpertId (components name)

def isFusedExpertWeight (name : Text) : Bool :=
  Text.has (text ".experts.gate_up_proj") name ||
    (Text.has (text ".experts.down_proj") name && !isSplitExpertWeight name)

def partOf (t : Text) : Option Part :=
  if t = text "weight" then some .weight
  else if t = text "weight_scale" then some .scale
  else if t = text "weight_scale_inv" then some .scale
  else none

/-- The projection and the part at the end of an FP8 name. -/
def matchProjection : List Text → Option (Text × Slot × Part)
  | [a, b, c, d] =>
    if a = text "self_attn" && b = text "indexer" then
      if c = text "wk" then (partOf d).map fun p => (text "self_attn.indexer.wk_weights_proj", .shard 0, p)
      else if c = text "weights_proj" then (partOf d).map fun p => (text "self_attn.indexer.wk_weights_proj", .shard 1, p)
      else none
    else none
  | [a, b, c] =>
    if a = text "mlp" && b = text "gate" then (partOf c).map fun p => (text "mlp.gate", .whole, p) else none
  | _ => none

/-- `_HYV4_FP8_LOCAL_PROJECTION.fullmatch`: the parameter, the shard and the part -/
def matchFp8 (name : Text) : Option (Text × Slot × Part) :=
  let (model, rest) := match components name with
    | a :: rest => if a = text "model" then (text "model.", rest) else ([], a :: rest)
    | [] => ([], [])
  match rest with
  | a :: n :: rest =>
    if a = text "layers" && isNumber n then
      let (mtp, rest) := match rest with
        | b :: rest => if b = text "mtp_block" then (text "mtp_block.", rest) else ([], b :: rest)
        | [] => ([], [])
      (matchProjection rest).map fun m =>
        (model ++ text "layers." ++ n ++ text "." ++ mtp ++ m.1 ++ text ".weight", m.2)
    else none
  | _ => none

/-! ## Operations -/

inductive Op (T : Type) where
  /-- `accounting.record(name, slot)` -/
  | record (name : Text) (slot : Slot)
  /-- The weight loader stores into one slot, or into the whole parameter. -/
  | store (name : Text) (slot : Slot) (value : T)
  /-- A name for the `loaded_params` of the model part. -/
  | loaded (name : Text)
  /-- A name that was loaded outside the model part. -/
  | otherLoaded (name : Text)
  /-- A piece of an FP8 pair. -/
  | fp8 (name : Text) (shard : Slot) (part : Part) (value : T)
  | seen (name : Text)
  | raise (error : String)

section
variable {T : Type} (ops : TensorOps T) (L : Layout)

def Layout.hasParam (name : Text) : Bool := L.params.any fun p => p.name = name

/-- Runs the weight loader: its error is raised, else `next` follows. -/
def withLoader (name : Text) (slot : Slot) (value : T) (next : Bool → List (Op T)) : List (Op T) :=
  match ops.weightLoader name slot value with
  | .error e => [.raise e]
  | .ok success => next success

/-- `accounting.record` and then the weight loader. -/
def recordAndLoad (name : Text) (slot : Slot) (value : T) : List (Op T) :=
  .record name slot :: withLoader ops name slot value fun _ => [.store name slot value, .loaded name]

def tryLoadFp8 (name : Text) (tensor : T) : Option (List (Op T)) :=
  match matchFp8 name with
  | none => none
  | some (parameterName, shard, part) =>
    if part = .weight && !ops.isFp8 tensor then none
    else if L.ppMissing parameterName then some []
    else if !L.hasParam parameterName then
      some [.raise s!"Unknown HY V4 FP8 projection: {String.ofList parameterName}"]
    else some [.fp8 parameterName shard part tensor]

structure StackedMapping where
  paramName : Text
  weightName : Text
  shardId : Slot

def stackedParamsMapping : List StackedMapping :=
  [⟨text ".qkv_proj", text ".q_proj", .qkv (text "q")⟩,
   ⟨text ".qkv_proj", text ".k_proj", .qkv (text "k")⟩,
   ⟨text ".qkv_proj", text ".v_proj", .qkv (text "v")⟩,
   ⟨text ".gate_up_proj", text ".gate_proj", .shard 0⟩,
   ⟨text ".gate_up_proj", text ".up_proj", .shard 1⟩,
   ⟨text "wk_weights_proj", text "wk", .shard 0⟩,
   ⟨text "wk_weights_proj", text "weights_proj", .shard 1⟩]

/-- The loop over the stacked mapping: the operations of the entry, or the name with which to go on. -/
def stackedLoop (tensor : T) : List StackedMapping → Text → List (Op T) ⊕ Text
  | [], name => .inr name
  | m :: rest, name =>
    if L.hasParam name then .inr name
    else if !Text.has m.weightName name then stackedLoop tensor rest name
    else if Text.has (text "mlp.experts") name then stackedLoop tensor rest name
    else
      let name := Text.replace m.weightName m.paramName name
      if L.ppMissing name then stackedLoop tensor rest name
      else if !L.hasParam name then
        .inl [.raise s!"Unknown HY V4 checkpoint weight after mapping: {String.ofList name}"]
      else .inl (recordAndLoad ops name m.shardId tensor)

def baseLayer : Text := if L.params.any fun p => Text.has (text ".base_layer.") p.name then text "base_layer." else []

def fusedExpertParamsMapping : List ExpertMapping :=
  let fusedExpertPrefix := text ".experts.routed_experts." ++ baseLayer L
  [⟨fusedExpertPrefix ++ text "w13_weight", text ".experts.gate_up_proj", 0, text "w1"⟩,
   ⟨fusedExpertPrefix ++ text "w2_weight", text ".experts.down_proj", 0, text "w2"⟩]

/-- One expert of a fused tensor: stored and recorded where it is local. -/
def loadFusedExpert (name : Text) (loadedWeight : T) (shardId : Text) (expertId : Nat) : List (Op T) × Bool :=
  let value := ops.row loadedWeight (expertId % L.numExperts)
  match ops.weightLoader name (.expert expertId shardId) value with
  | .error e => ([.raise e], false)
  | .ok false => ([], false)
  | .ok true => ([.store name (.expert expertId shardId) value, .record name (.expert expertId shardId)], true)

def loadFusedExpertWeights (name : Text) (loadedWeight : T) (shardId : Text) : List (Op T) × Bool :=
  if !ops.expertsNumber loadedWeight L.numExperts then
    ([.raise s!"HY V4 fused checkpoint experts must number {L.numExperts}"], false)
  else if !L.hasParam name then ([.raise s!"KeyError: {String.ofList name}"], false)
  else
    let numCheckpointExperts := L.numExperts + if L.hasStaticPlan then 0 else L.numRedundantExperts
    let experts := (List.range numCheckpointExperts).map (loadFusedExpert ops L name loadedWeight shardId)
    (experts.flatMap Prod.fst, experts.any Prod.snd)

/-- How the loop over an expert mapping ends. -/
inductive ExpertEnd where
  /-- by `break`, or by an error, with the name that is added to the loaded ones -/
  | broke (name : Text)
  | exhausted (isExpertWeight : Bool) (loaded : List Text)

def fusedExpertStep (name nameMapped : Text) (tensor : T) (shardId : Text) : List (Op T) × Bool :=
  if Text.has (text "experts.gate_up_proj") name then
    match ops.chunk2 tensor with
    | .error e => ([.raise e], false)
    | .ok (gate, up) =>
      let w1 := loadFusedExpertWeights ops L nameMapped gate (text "w1")
      let w3 := loadFusedExpertWeights ops L nameMapped up (text "w3")
      (w1.1 ++ w3.1, w1.2 && w3.2)
  else loadFusedExpertWeights ops L nameMapped tensor shardId

def fusedExpertLoop (name : Text) (tensor : T) : List ExpertMapping → Bool → List (Op T) × ExpertEnd
  | [], isExpert => ([], .exhausted isExpert [])
  | m :: rest, isExpert =>
    if !Text.has m.weightName name then fusedExpertLoop name tensor rest isExpert
    else
      let nameMapped := Text.replace m.weightName m.paramName name
      if L.ppMissing nameMapped then fusedExpertLoop name tensor rest true
      else
        let step := fusedExpertStep ops L name nameMapped tensor m.shardId
        if step.2 then (step.1, .broke nameMapped)
        else
          let tail := fusedExpertLoop name tensor rest true
          (step.1 ++ tail.1, tail.2)

def splitExpertLoop (name : Text) (tensor : T) : List ExpertMapping → Bool → List Text → List (Op T) × ExpertEnd
  | [], isExpert, loaded => ([], .exhausted isExpert loaded)
  | m :: rest, isExpert, loaded =>
    if !Text.has m.weightName name then splitExpertLoop name tensor rest isExpert loaded
    else
      let nameMapped := Text.replace m.weightName m.paramName name
      if L.ppMissing nameMapped then splitExpertLoop name tensor rest true loaded
      else if !L.hasParam nameMapped then
        ([.raise s!"Unknown HY V4 expert checkpoint weight after mapping: {String.ofList nameMapped}"], .broke nameMapped)
      else
        match ops.weightLoader nameMapped (.expert m.expertId m.shardId) tensor with
        | .error e => ([.raise e], .broke nameMapped)
        | .ok false => splitExpertLoop name tensor rest true loaded
        | .ok true =>
          let tail := splitExpertLoop name tensor rest true (loaded ++ [nameMapped])
          (.store nameMapped (.expert m.expertId m.shardId) tensor ::
            .record nameMapped (.expert m.expertId m.shardId) :: tail.1, tail.2)

/-- The sink and the generic route. -/
def plainRoute (name : Text) (tensor : T) (isExpertWeight : Bool) : List (Op T) :=
  if Text.has (text "learnable_sink_param") name then
    if L.ppMissing name then []
    else if !L.hasParam name then [.raise s!"Unknown HY V4 learnable sink parameter: {String.ofList name}"]
    else match ops.sliceSinkForTp tensor with
      | .error e => [.raise e]
      | .ok narrow =>
        if !ops.sameShape name narrow then [.raise s!"Learnable sink shard shape mismatch for {String.ofList name}"]
        else [.record name .whole, .store name .whole narrow, .loaded name]
  else if isExpertWeight then []
  else
    let name := rewriteHyv4WeightName name
    if L.ppMissing name then []
    else if !L.hasParam name then
      [.raise s!"Unknown HY V4 checkpoint weight after mapping: {String.ofList name}"]
    else recordAndLoad ops name .whole tensor

/-- The expert routes, and what follows their loop. -/
def expertRoute (name : Text) (tensor : T) : List (Op T) :=
  let loop := if isFusedExpertWeight name then fusedExpertLoop ops L name tensor (fusedExpertParamsMapping L) false
    else splitExpertLoop ops L name tensor L.expertMapping false []
  loop.1 ++ match loop.2 with
    | .broke name => [.loaded name]
    | .exhausted isExpertWeight loaded =>
      if loaded.isEmpty then plainRoute ops L name tensor isExpertWeight else loaded.map .loaded

/-- One entry of `_load_weights`. -/
def loadEntry (name : Text) (tensor : T) : List (Op T) :=
  if isSkipTopkIndexerWeight name L.skipTopkLayers then []
  else
    let mappedName := rewriteHyv4WeightName name
    match tryLoadFp8 ops L mappedName tensor with
    | some operations => operations
    | none =>
      if mappedName ≠ name && (text ".expert_bias").isSuffixOf mappedName then
        if L.ppMissing mappedName then []
        else if !L.hasParam mappedName then
          [.raise s!"Unknown HY V4 expert correction bias after mapping: {String.ofList mappedName}"]
        else recordAndLoad ops mappedName .whole tensor
      else if L.tieWordEmbeddings && Text.has (text "lm_head.weight") name then []
      else match stackedLoop ops L tensor stackedParamsMapping name with
        | .inl operations => operations
        | .inr name => expertRoute ops L name tensor

end

end VllmHcu.HyV4
