import VllmHcu.HyV4.Dispatch
import VllmHcu.Lib.Assoc

/-!
# The checkpoint ledger and the outer load

`_HYV4CheckpointAccounting` knows the slots of every parameter that is not a KV
scale and records the ones that have been stored. FP8 pieces wait for their
partner. `load_weights` puts a ledger on the model, runs all entries, validates
the ledger and takes it off again, also when an entry raises.
-/

namespace VllmHcu.HyV4

/-! ## Expected slots -/

def isExpertParam (name : Text) : Bool :=
  Text.has (text ".experts.") name &&
    ((text "w13_").isPrefixOf (lastComponent name) || (text "w2_").isPrefixOf (lastComponent name))

def isFusedPairParam (name : Text) : Bool :=
  (components name).contains (text "gate_up_proj") || (components name).contains (text "wk_weights_proj")

section
variable (L : Layout)

/-- The experts whose slots are expected of a parameter: logical ones where a static row is bound. -/
def localExperts (owner : Owner) : List Nat :=
  let numPhysicalExperts := if L.numPhysicalExperts = 0 then L.numExperts else L.numPhysicalExperts
  match owner.staticRow, owner.mapGlobalToLocal with
  | some row, some map => (row.zipIdx.filterMap fun p => if 0 ≤ map p.2 then some p.1 else none).dedup
  | some _, none => []
  | none, some map => (List.range numPhysicalExperts).filter fun i => 0 ≤ map i
  | none, none => List.range L.numExperts

def expectedSlots (p : Param) : List Slot :=
  if isFusedPairParam p.name then [.shard 0, .shard 1]
  else if isExpertParam p.name then
    let shards := if (text "w13_").isPrefixOf (lastComponent p.name) then [text "w1", text "w3"] else [text "w2"]
    (localExperts L p.owner).flatMap fun i => shards.map (.expert i)
  else [.whole]

/-- `self.expected` -/
def Layout.expected (name : Text) : Option (List Slot) :=
  (L.params.find? fun p => p.name = name && !p.isKvScale).map (expectedSlots L)

/-- A static row without an expert map makes the constructor raise. -/
def Layout.constructorRaises : Bool :=
  L.params.any fun p => !p.isKvScale && !isFusedPairParam p.name && isExpertParam p.name &&
    p.owner.mapGlobalToLocal.isNone && (p.owner.staticRow.elim false fun row => !row.isEmpty)

/-- What `record` counts as received: every expected slot when no slot is named. -/
def Layout.recordSlots (name : Text) (slot : Slot) : List Slot :=
  if slot = .whole then (L.expected name).getD [.whole] else [slot]

end

/-! ## The ledger -/

/-- `key = (parameter_name, shard_id)` -/
structure FP8Key where
  name : Text
  shard : Slot
  deriving DecidableEq

structure Accounting (T : Type) where
  /-- The sets of `received`, as pairs. -/
  received : List (Text × Slot)
  fp8Pending : List (FP8Key × List (Part × T))
  fp8Received : List (FP8Key × Part)

/-- What a parameter slot holds. -/
inductive Stored (T : Type) where
  | tensor (value : T)
  | dequantized (weight scale : T)

structure Store (T : Type) where
  name : Text
  slot : Slot
  value : Stored T

/-- The state of a load: the ledger, the stores made so far, the loaded names and `seen_names`. -/
structure LoadState (T : Type) where
  accounting : Accounting T
  stores : List (Store T)
  loadedParams : List Text
  otherLoaded : List Text
  seenNames : List Text

def LoadState.initial {T : Type} : LoadState T := ⟨⟨[], [], []⟩, [], [], [], []⟩

section
variable {T : Type} (ops : TensorOps T) (L : Layout)

def Accounting.record (a : Accounting T) (name : Text) (slot : Slot) : Except String (Accounting T) :=
  let slots := (L.recordSlots name slot).map fun s => (name, s)
  if slots.any fun s => a.received.contains s then
    .error s!"Duplicate HY V4 checkpoint parameter/shard: {String.ofList name}"
  else .ok { a with received := a.received ++ slots }

/-- The part of `_try_load_hyv4_fp8_projection` that reads the ledger. -/
def fp8Piece (st : LoadState T) (name : Text) (shard : Slot) (part : Part) (tensor : T) : Except String (LoadState T) := do
  let a := st.accounting
  let key : FP8Key := ⟨name, shard⟩
  if a.fp8Received.contains (key, part) || a.received.contains (name, shard) then
    .error s!"Duplicate HY V4 FP8 checkpoint piece: {String.ofList name}"
  else
    let pair := insertKey part tensor ((a.fp8Pending.lookup key).getD [])
    let a := { a with fp8Received := (key, part) :: a.fp8Received, fp8Pending := insertKey key pair a.fp8Pending }
    match pair.lookup .weight, pair.lookup .scale with
    | some weight, some scale =>
      let dequantized ← ops.dequantize name weight scale
      let a ← a.record L name shard
      let _ ← ops.weightLoader name shard dequantized
      return { st with
        accounting := { a with fp8Pending := eraseKey key a.fp8Pending }
        stores := st.stores ++ [⟨name, shard, .dequantized weight scale⟩]
        loadedParams := st.loadedParams ++ [name] }
    | _, _ => .ok { st with accounting := a }

def runOp (st : LoadState T) : Op T → Except String (LoadState T)
  | .record name slot => (st.accounting.record L name slot).map fun a => { st with accounting := a }
  | .store name slot value => .ok { st with stores := st.stores ++ [⟨name, slot, .tensor value⟩] }
  | .loaded name => .ok { st with loadedParams := st.loadedParams ++ [name] }
  | .otherLoaded name => .ok { st with otherLoaded := st.otherLoaded ++ [name] }
  | .fp8 name shard part tensor => fp8Piece ops L st name shard part tensor
  | .seen name =>
    if st.seenNames.contains name then .error s!"Duplicate HY V4 checkpoint weight: {String.ofList name}"
    else .ok { st with seenNames := st.seenNames ++ [name] }
  | .raise error => .error error

/-- Runs operations in order; an error leaves the state as the last operation left it. -/
def runOps : List (Op T) → LoadState T → Except String Unit × LoadState T
  | [], st => (.ok (), st)
  | op :: rest, st =>
    match runOp ops L st op with
    | .error e => (.error e, st)
    | .ok st => runOps rest st

def Accounting.validate (a : Accounting T) : Except String Unit :=
  if !a.fp8Pending.isEmpty then .error "Incomplete HY V4 FP8 projection pairs"
  else if L.params.any fun p => ((L.expected p.name).getD []).any fun s => !a.received.contains (p.name, s) then
    .error "Missing HY V4 checkpoint parameters/shards"
  else .ok ()

end

/-! ## The outer load -/

/-- What `HYV4ForCausalLM.load_weights` depends on outside the model part. -/
structure CausalLM (T : Type) where
  layout : Layout
  packedW4A8 : Bool
  specLayer : Text → Option Nat
  /-- The other entries, and the parameters they load. Assumed: they store nothing into the model part. Where the weight of
  the head is that of the model's embedding, this says that the checkpoint has no `lm_head.weight`. -/
  otherLoad : Text → T → Except String (List Text)
  otherParams : List Text

/-- The model after a load: the result, the stores into the model part and the ledger attribute. -/
structure Outcome (T : Type) where
  result : Except String (List Text)
  stores : List (Store T)
  ledger : Option (Accounting T)

section
variable {T : Type} (ops : TensorOps T) (m : CausalLM T)

def inModel (name : Text) : Option Text :=
  if (text "model.").isPrefixOf name then some (name.drop 6) else none

/-- An entry of the checkpoint: filtered, rewritten, checked for repetition and passed on. -/
def entryOps (entry : Text × T) : List (Op T) :=
  if (text "model.mtp_layers.").isPrefixOf entry.1 then []
  else if (m.specLayer entry.1).isSome then []
  else
    let name := rewriteHyv4WeightName entry.1
    .seen name :: match inModel name with
      | some inner => loadEntry ops m.layout inner entry.2
      | none => match m.otherLoad name entry.2 with
        | .error e => [.raise e]
        | .ok names => names.map .otherLoaded

def CausalLM.requiredParams : List Text :=
  ((m.layout.params.filter fun p => !p.isKvScale).map fun p => text "model." ++ p.name) ++ m.otherParams

/-- The loader of the model gets the names of the model part with the module's prefix. -/
def LoadState.loadedNames (st : LoadState T) : List Text :=
  (st.loadedParams.map fun name => text "model." ++ name) ++ st.otherLoaded

def loadWeights (ledger : Option (Accounting T)) (entries : List (Text × T)) : Outcome T :=
  if m.packedW4A8 then ⟨.error "HYV4 packed W4A8 is outside this MR", [], ledger⟩
  else if m.layout.constructorRaises then ⟨.error "'NoneType' object has no attribute 'map_global_to_local'", [], ledger⟩
  else
    let run := runOps ops m.layout (entries.flatMap (entryOps ops m)) .initial
    let validated := run.1 >>= fun _ => run.2.accounting.validate m.layout
    -- `finally` takes the ledger off
    match validated with
    | .error e => ⟨.error e, run.2.stores, none⟩
    | .ok () =>
      if m.requiredParams.any fun name => !run.2.loadedNames.contains name then
        ⟨.error "Missing HY V4 checkpoint parameters", run.2.stores, none⟩
      else ⟨.ok run.2.loadedNames, run.2.stores, none⟩

end

end VllmHcu.HyV4
