import VllmHcu.Eplb.Record
import VllmHcu.Lib.Text

/-!
# Loading checkpoint experts into a static placement

The checkpoint has one weight for each logical expert and for each fused shared
expert. Under a static plan the loader of a parameter writes the weight of a
logical expert to every physical slot that the row of the layer gives to it, and
the weights of the shared experts to the slots after the row.
-/

namespace VllmHcu.Eplb

/-! ## Loaders -/

/-- `ndim` is `none` for a value that is not a tensor. -/
structure LoadedWeight (W : Type) where
  value : W
  ndim : Option Nat

/-- One call of a weight loader. -/
structure LoadCall (W : Type) where
  param : String
  loadedWeight : LoadedWeight W
  weightName : String
  shardId : String
  expertId : Int
  returnSuccess : Bool

structure RoutedExperts where
  staticEplbRow : List Int
  numLogicalExperts : Int
  numFusedSharedExperts : Nat
  useGlobalSf : Bool

/-- The calls of the original loader, and what the loader returns. -/
abbrev Loads (W : Type) := List (LoadCall W) × Option Bool

section
variable {W : Type}

/-- A tensor that still has the weights of several experts. -/
def LoadedWeight.isUnsplit (weight : LoadedWeight W) : Bool := weight.ndim.any fun n => 3 ≤ n

/-- The scale is one tensor for all experts, read by the logical ids. -/
def isGlobalScale (experts : RoutedExperts) (weightName : String) : Bool :=
  experts.useGlobalSf && Text.has "input_scale".toList weightName.toList

variable (experts : RoutedExperts) (original : LoadCall W → Option Bool)

def slotCalls (call : LoadCall W) : List (LoadCall W) :=
  experts.staticEplbRow.zipIdx.filterMap fun slot =>
    if slot.1 = call.expertId then some { call with expertId := slot.2, returnSuccess := true } else none

def logicalLoads (call : LoadCall W) : Loads W :=
  if isGlobalScale experts call.weightName then ([call], original call)
  else
    let calls := slotCalls experts call
    (calls, if call.returnSuccess then some (calls.any fun c => original c = some true) else none)

def loadStaticLogicalExpert (call : LoadCall W) : Except EplbError (Loads W) := do
  ensure (call.expertId ∈ experts.staticEplbRow)
    (.text ("Static EPLB invalid logical expert ID " ++ toString call.expertId))
  ensure (¬ call.loadedWeight.isUnsplit = true)
    (.text "Static EPLB fused expert tensors must be split by the current loader")
  return logicalLoads experts original call

def tailCall (call : LoadCall W) : LoadCall W :=
  { call with expertId := experts.staticEplbRow.length + call.expertId - experts.numLogicalExperts }

def isShared (id : Int) : Bool :=
  experts.numLogicalExperts ≤ id && id < experts.numLogicalExperts + experts.numFusedSharedExperts

def staticLoader (call : LoadCall W) : Except EplbError (Loads W) :=
  if isShared experts call.expertId then .ok ([tailCall experts call], original (tailCall experts call))
  else loadStaticLogicalExpert experts original call

end

/-! ## Mappings -/

/-- One entry of an expert mapping: which parameter and shard takes which weight of the checkpoint. -/
structure MappingEntry where
  paramName : String
  weightName : String
  expertId : Int
  shardId : String
deriving DecidableEq

structure MappingArgs where
  ckptGateProjName : String
  ckptDownProjName : String
  ckptUpProjName : String
  numExperts : Int
  numRedundantExperts : Int
  routedExpertsPrefix : String
  loraBaseLayerPrefix : String
  includeFused : Bool

/-- The names that an owner of routed experts has of its own. -/
structure ProjNames where
  gate : String
  down : String
  up : String
  lora : String

/-- `name or own` -/
def nameOr (name : Option String) (own : String) : String := (name.filter (· ≠ "")).getD own

def staticExpertMapping (buildExpertParamsMapping : MappingArgs → List MappingEntry) (experts : RoutedExperts)
    (own : ProjNames) (gate down up : Option String) (includeFused : Bool) : List MappingEntry :=
  buildExpertParamsMapping {
    ckptGateProjName := nameOr gate own.gate
    ckptDownProjName := nameOr down own.down
    ckptUpProjName := nameOr up own.up
    numExperts := experts.numLogicalExperts + experts.numFusedSharedExperts
    numRedundantExperts := 0
    routedExpertsPrefix := ""
    loraBaseLayerPrefix := own.lora
    includeFused := includeFused }

def logicalModelMapping (original : List MappingEntry) (logicalExperts : Int) : List MappingEntry :=
  original.filter fun entry => entry.expertId < logicalExperts

/-! ## Loading -/

section
variable {W : Type} (experts : RoutedExperts) (original : LoadCall W → Option Bool) (param weightName : String)
  (weights : Int → LoadedWeight W) (returnSuccess : Bool)

/-- The call that a model's loader makes for the checkpoint weight of an entry. -/
def entryCall (entry : MappingEntry) : LoadCall W where
  param := param
  loadedWeight := weights entry.expertId
  weightName := weightName
  shardId := entry.shardId
  expertId := entry.expertId
  returnSuccess := returnSuccess

/-- The weights of one parameter, entry by entry. -/
def loadEntries (entries : List MappingEntry) : Except EplbError (List (LoadCall W)) := do
  let loads ← entries.mapM fun entry =>
    staticLoader experts original (entryCall param weightName weights returnSuccess entry)
  return loads.flatMap Prod.fst

end

end VllmHcu.Eplb
