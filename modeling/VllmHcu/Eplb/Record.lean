import VllmHcu.Lib.Assoc
import VllmHcu.Lib.Result

/-!
# Offline expert maps

A calibration run records the placement of the experts of each model in one
file; a serving run loads the placement of its model from it. The recorder and
the loader check the file each with code of their own.
-/

namespace VllmHcu.Eplb

/-! ## Files -/

inductive Json
  | null
  | bool (b : Bool)
  | int (n : Int)
  | float (text : String)
  | str (s : String)
  | arr (items : List Json)
  | obj (fields : List (String × Json))

def offlineEplbFormat : String := "vllm_offline_eplb_physical_to_logical_by_model"

inductive EplbError
  | text (message : String)
  | malformedEntry (modelKey : String)
  | missingFields (modelKey : String) (names : List String)
  | missingModelKey (modelKey : String)
  | noProposal (modelKey : String)
  | fileNotFound

namespace Json

def int? : Json → Option Int
  | .int n => some n
  | _ => none

def str? : Json → Option String
  | .str s => some s
  | _ => none

def arr? : Json → Option (List Json)
  | .arr items => some items
  | _ => none

def obj? : Json → Option (List (String × Json))
  | .obj fields => some fields
  | _ => none

end Json

/-- `_strict_count` and `_integer`: a value that is an `int`, and not a `bool`. -/
def integer (owner : String) (value : Json) (name : String) (minimum : Int) : Except EplbError Int := do
  let error := EplbError.text (owner ++ " EPLB " ++ name ++ " must be an integer >= " ++ toString minimum)
  let n ← expect value.int? error
  ensure (minimum ≤ n) error
  return n

def strictCount (value : Json) (name : String) (minimum : Int) : Except EplbError Int :=
  integer "Offline" value name minimum

def isRecordKind (kind : String) : Bool := kind = "initial" || kind = "proposal"

/-! ## Plans -/

structure StaticEplbPlan where
  modelKey : String
  modelName : String
  sourcePath : String
  sourceSha256 : String
  recordKind : String
  mapValues : List (List Int)
  numLogicalExperts : Int
  numPhysicalExperts : Int
  numRedundantExperts : Int

/-- A file by its resolved path and its digest. -/
structure Source where
  path : String
  sha256 : String

def Source.isAbsolute (source : Source) : Bool := source.path.toList.head? = some '/'

def Source.isDigest (source : Source) : Bool :=
  source.sha256.toList.length = 64 && source.sha256.toList.all fun c => c ∈ "0123456789abcdef".toList

def expertId (numLogicalExperts : Int) (value : Json) : Except EplbError Int := do
  let error := EplbError.text "Static EPLB invalid logical expert ID"
  let n ← expect value.int? error
  ensure (0 ≤ n ∧ n < numLogicalExperts) error
  return n

/-- One row of `_map_values`; only an array of the file became a tuple. -/
def mapRow (numLogicalExperts numPhysicalExperts : Int) (row : Json) : Except EplbError (List Int) := do
  let items ← expect row.arr? (.text "Static EPLB row shape or immutability mismatch")
  ensure ((items.length : Int) = numPhysicalExperts) (.text "Static EPLB row shape or immutability mismatch")
  let ids ← items.mapM (expertId numLogicalExperts)
  -- the ids are logical experts, so the sets differ only where one is missing
  ensure (∀ e ∈ List.range numLogicalExperts.toNat, (e : Int) ∈ ids) (.text "Static EPLB row misses logical experts")
  return ids

/-- The checks of `StaticEplbPlan.__post_init__`. -/
def StaticEplbPlan.make (modelKey modelName : String) (source : Source) (recordKind : String) (rows : List Json)
    (logical physical redundant : Int) : Except EplbError StaticEplbPlan := do
  ensure (modelKey ≠ "") (.text "Static EPLB model_key must be nonempty")
  ensure (modelName ≠ "") (.text "Static EPLB model_name must be nonempty")
  ensure (source.isAbsolute = true) (.text "Static EPLB source_path must be absolute")
  ensure (source.isDigest = true) (.text "Static EPLB source_sha256 must be a SHA-256 hex digest")
  ensure (isRecordKind recordKind = true) (.text "Static EPLB record_kind must be initial or proposal")
  let _ ← integer "Static" (.int logical) "num_logical_experts" 1
  let _ ← integer "Static" (.int physical) "num_physical_experts" 1
  let _ ← integer "Static" (.int redundant) "num_redundant_experts" 0
  ensure (logical + redundant = physical) (.text "Static EPLB physical/logical/redundant counts disagree")
  ensure (rows ≠ []) (.text "Static EPLB rows must be a nonempty immutable tuple")
  let mapValues ← rows.mapM (mapRow logical physical)
  return ⟨modelKey, modelName, source.path, source.sha256, recordKind, mapValues, logical, physical, redundant⟩

/-! ## Recording -/

/-- In the order of their names. -/
def requiredFields : List String :=
  ["model_class", "model_name", "num_logical_experts", "num_moe_layers", "num_physical_experts", "num_redundant_experts",
    "physical_to_logical_map", "record_kind"]

def recordSource : Source := ⟨"/offline-eplb-record-validation", String.ofList (List.replicate 64 '0')⟩

def getField (fields : List (String × Json)) (name : String) : Json := (fields.lookup name).getD .null

def missingFields (fields : List (String × Json)) : List String :=
  requiredFields.filter fun name => (fields.lookup name).isNone

def validateModelEntry (modelKey : String) (entry : Json) : Except EplbError Unit := do
  ensure (modelKey ≠ "") (.text "Offline EPLB model key must be nonempty")
  let fields ← expect entry.obj? (.malformedEntry modelKey)
  ensure (missingFields fields = []) (.missingFields modelKey (missingFields fields))
  let recordKind ← expect (getField fields "record_kind").str? (.text "Offline EPLB record_kind must be initial or proposal")
  ensure (isRecordKind recordKind = true) (.text "Offline EPLB record_kind must be initial or proposal")
  let modelName ← expect (getField fields "model_name").str? (.text "Offline EPLB model_name must be nonempty")
  ensure (modelName ≠ "") (.text "Offline EPLB model_name must be nonempty")
  let modelClass ← expect (getField fields "model_class").str? (.text "Offline EPLB model_class does not match its key")
  ensure (modelClass = modelKey) (.text "Offline EPLB model_class does not match its key")
  let numLayers ← strictCount (getField fields "num_moe_layers") "num_moe_layers" 1
  let logical ← strictCount (getField fields "num_logical_experts") "num_logical_experts" 1
  let physical ← strictCount (getField fields "num_physical_experts") "num_physical_experts" 1
  let redundant ← strictCount (getField fields "num_redundant_experts") "num_redundant_experts" 0
  let rows ← expect (getField fields "physical_to_logical_map").arr? (.text "Offline EPLB physical map layer count mismatch")
  ensure ((rows.length : Int) = numLayers) (.text "Offline EPLB physical map layer count mismatch")
  let _ ← StaticEplbPlan.make modelKey modelName recordSource recordKind rows logical physical redundant
  return ()

/-- The fields of a payload and its model maps. -/
def validateRecordPayload (payload : Json) : Except EplbError (List (String × Json) × List (String × Json)) := do
  let fields ← expect payload.obj? (.text "Existing offline EPLB record is malformed")
  ensure ((getField fields "version").int? = some 2) (.text "Offline EPLB record must declare version 2")
  ensure ((getField fields "format").str? = some offlineEplbFormat) (.text "Offline EPLB record format is malformed")
  let modelMaps ← expect (getField fields "model_maps").obj? (.text "Existing offline EPLB model_maps is malformed")
  modelMaps.forM fun p => validateModelEntry p.1 p.2
  return (fields, modelMaps)

def emptyRecordPayload : Json :=
  .obj [("version", .int 2), ("format", .str offlineEplbFormat), ("model_maps", .obj [])]

def startOfflineRecordSession (file : Option Json) : Except EplbError (Option Json) :=
  match file with
  | some payload => do
    let _ ← validateRecordPayload payload
    return some emptyRecordPayload
  | none => .ok (some emptyRecordPayload)

/-- A tensor of two dimensions, as `tolist` gives it. -/
structure MapTensor where
  rows : List (List Json)
  cols : Nat
  rect : ∀ row ∈ rows, row.length = cols

inductive MapArg
  | notTensor
  | otherDims
  | tensor (t : MapTensor)

structure RecordCall where
  modelKey : String
  modelName : Json
  modelClass : Json
  physicalToLogicalMap : MapArg
  numLogicalExperts : Json
  numRedundantExperts : Json
  recordKind : Json

def RecordCall.entry (call : RecordCall) (t : MapTensor) : Json :=
  .obj [
    ("record_kind", call.recordKind),
    ("model_name", call.modelName),
    ("model_class", call.modelClass),
    ("num_moe_layers", .int t.rows.length),
    ("num_logical_experts", call.numLogicalExperts),
    ("num_physical_experts", .int t.cols),
    ("num_redundant_experts", call.numRedundantExperts),
    ("physical_to_logical_map", .arr (t.rows.map .arr))]

def isProposal (entry : Json) : Bool :=
  entry.obj?.any fun fields => (getField fields "record_kind").str? = some "proposal"

/-- On rank 0. The file after the call; a call that raises has not written it. -/
def recordOfflineExpertMap (file : Option Json) (call : RecordCall) : Except EplbError (Option Json) :=
  match call.physicalToLogicalMap with
  | .notTensor => .error (.text "physical_to_logical_map must be a torch.Tensor")
  | .otherDims => .error (.text "physical_to_logical_map must be two-dimensional")
  | .tensor t => do
    validateModelEntry call.modelKey (call.entry t)
    let (payload, modelMaps) ← validateRecordPayload (file.getD emptyRecordPayload)
    if (modelMaps.lookup call.modelKey).any isProposal && call.recordKind.str? = some "initial" then .ok file
    else
      let merged : Json :=
        .obj (insertKey "model_maps" (.obj (insertKey call.modelKey (call.entry t) modelMaps)) payload)
      let _ ← validateRecordPayload merged
      return some merged

/-! ## Loading -/

def requiredField (payload : List (String × Json)) (name : String) : Except EplbError Json :=
  expect (payload.lookup name) (.text ("Static EPLB model map is missing " ++ name))

/-- `type(value) is type(expected) and value == expected` -/
def sameValue : Json → Json → Bool
  | .str s, .str s' => s = s'
  | .int n, .int n' => n = n'
  | _, _ => false

def expectMetadata (selected expected : List (String × Json)) : Except EplbError Unit :=
  expected.forM fun p => do
    let value ← requiredField selected p.1
    ensure (sameValue value p.2 = true) (.text ("Static EPLB declared " ++ p.1 ++ " mismatch"))

def parsePlan (raw : Json) (source : Source) (modelKey expectedModelName : String) (expectedShape : Int × Int)
    (numLogicalExperts numRedundantExperts : Int) (requireProposal : Bool) : Except EplbError StaticEplbPlan := do
  let payload ← expect raw.obj? (.text "Static EPLB top-level payload must be an object")
  ensure ((getField payload "version").int? = some 2) (.text "Static EPLB file must declare version 2")
  ensure ((getField payload "format").str? = some offlineEplbFormat)
    (.text ("Static EPLB file must declare format '" ++ offlineEplbFormat ++ "'"))
  let modelMaps ← expect (getField payload "model_maps").obj? (.text "Static EPLB model_maps must be an object")
  let selected ← expect (modelMaps.lookup modelKey) (.missingModelKey modelKey)
  let selected ← expect selected.obj? (.text "Static EPLB model map must be an object")
  let recordKind ← requiredField selected "record_kind"
  let recordKind ← expect recordKind.str? (.text "Static EPLB record_kind must be initial or proposal")
  ensure (isRecordKind recordKind = true) (.text "Static EPLB record_kind must be initial or proposal")
  ensure (requireProposal = true → recordKind = "proposal") (.noProposal modelKey)
  let modelName ← requiredField selected "model_name"
  let modelName ← expect modelName.str? (.text "Static EPLB model_name must be a nonempty string")
  ensure (modelName ≠ "") (.text "Static EPLB model_name must be a nonempty string")
  ensure (modelName = expectedModelName) (.text "Static EPLB declared model_name mismatch")
  expectMetadata selected [
    ("model_class", .str modelKey), ("num_moe_layers", .int expectedShape.1),
    ("num_logical_experts", .int numLogicalExperts), ("num_physical_experts", .int expectedShape.2),
    ("num_redundant_experts", .int numRedundantExperts)]
  let rows ← requiredField selected "physical_to_logical_map"
  let rows ← expect rows.arr? (.text "Static EPLB map shape mismatch")
  ensure ((rows.length : Int) = expectedShape.1 ∧ rows.all (·.arr?.isSome) = true) (.text "Static EPLB map shape mismatch")
  StaticEplbPlan.make modelKey modelName source recordKind rows numLogicalExperts expectedShape.2 numRedundantExperts

/-- `sourceOf` gives the resolved path of the file and the digest of what it holds. -/
def loadStaticEplbPlan (sourceOf : Json → Source) (file : Option Json) (modelKey expectedModelName : String)
    (expectedShape : Int × Int) (numLogicalExperts numRedundantExperts : Int) (requireProposal : Bool) :
    Except EplbError StaticEplbPlan := do
  ensure (modelKey ≠ "") (.text "Static EPLB model_key must be nonempty")
  ensure (expectedModelName ≠ "") (.text "Static EPLB expected_model_name must be nonempty")
  let _ ← integer "Static" (.int expectedShape.1) "shape" 1
  let _ ← integer "Static" (.int expectedShape.2) "shape" 1
  let _ ← integer "Static" (.int numLogicalExperts) "num_logical_experts" 1
  let _ ← integer "Static" (.int numRedundantExperts) "num_redundant_experts" 0
  ensure (numLogicalExperts + numRedundantExperts = expectedShape.2)
    (.text "Static EPLB physical/logical/redundant counts disagree")
  let raw ← expect file .fileNotFound
  parsePlan raw (sourceOf raw) modelKey expectedModelName expectedShape numLogicalExperts numRedundantExperts requireProposal

end VllmHcu.Eplb
