import VllmHcu.Du.SendStore
import VllmHcu.Lib.Result
import VllmHcu.Lib.Text
import Mathlib.Algebra.Ring.Int.Defs

/-!
# Routing of a layer to the decoder

The layers are cut into the pipeline stages of the decoder, by a partition string
or evenly. A producer rank sends a layer to the stage that owns it: to the tensor
parallel ranks that agree with its own modulo the producer's size.
-/

namespace VllmHcu.Du

/-! ## `int` -/

/-- The Unicode properties that `int` goes by. -/
structure CharClasses where
  decimal : Char → Option Nat
  isSpace : Char → Bool

def asciiClasses : CharClasses where
  decimal := fun c => if c.isDigit then some (c.toNat - '0'.toNat) else none
  isSpace := Char.isWhitespace

/-- Digits after the first one; single underscores may stand between them. -/
def digitsFrom (classes : CharClasses) (acc : Nat) : Text → Option Nat
  | [] => some acc
  | '_' :: c :: rest => (classes.decimal c).bind fun d => digitsFrom classes (10 * acc + d) rest
  | c :: rest => (classes.decimal c).bind fun d => digitsFrom classes (10 * acc + d) rest

def pyDigits (classes : CharClasses) : Text → Option Nat
  | [] => none
  | c :: rest => (classes.decimal c).bind fun d => digitsFrom classes d rest

/-- `int(text)`, or `none` for its `ValueError`. -/
def pyInt (classes : CharClasses) (t : Text) : Option Int :=
  match ((t.dropWhile classes.isSpace).reverse.dropWhile classes.isSpace).reverse with
  | '-' :: rest => (pyDigits classes rest).map fun n => -(n : Int)
  | '+' :: rest => (pyDigits classes rest).map fun n => (n : Int)
  | rest => (pyDigits classes rest).map fun n => (n : Int)

/-! ## The stages -/

/-- `partitions[-i] += 1` for `i` in `range(2, remaining + 2)`. -/
def evenPartitions (numHiddenLayers ppSize : Nat) : List Int :=
  let remaining := numHiddenLayers % ppSize
  (List.range ppSize).map fun j =>
    ((numHiddenLayers / ppSize : Nat) : Int) + if 2 ≤ ppSize - j ∧ ppSize - j < remaining + 2 then 1 else 0

/-- The partitions of `get_pp_indices_d`; `partitionList` is `VLLM_PP_LAYER_PARTITION_D`. -/
def ppPartitionsD (classes : CharClasses) (partitionList : Option Text) (numHiddenLayers ppSize : Nat) :
    Except String (List Int) :=
  match partitionList with
  | some s => do
    let partitions ← expect ((s.splitOn ',').mapM (pyInt classes)) s!"Invalid partition string: {String.ofList s}"
    ensure (partitions.length = ppSize) s!"len(partitions)={partitions.length} does not match pp_size={ppSize}."
    ensure (partitions.sum = numHiddenLayers)
      s!"sum(partitions)={partitions.sum} does not match num_hidden_layers={numHiddenLayers}."
    return partitions
  | none => do
    ensure (0 < ppSize) "integer division or modulo by zero"
    return evenPartitions numHiddenLayers ppSize

def getPpIndicesD (classes : CharClasses) (partitionList : Option Text) (numHiddenLayers ppRank ppSize : Nat) :
    Except String (Int × Int) := do
  let partitions ← ppPartitionsD classes partitionList numHiddenLayers ppSize
  let startLayer := (partitions.take ppRank).sum
  let size ← expect partitions[ppRank]? "list index out of range"
  return (startLayer, startLayer + size)

/-! ## The items -/

/-- What the producer ranks agree on. -/
structure Deployment where
  classes : CharClasses
  partitionList : Option Text
  totalNumHiddenLayers : Nat
  ppSize : Nat
  tpSize : Nat
  remotePpSize : Nat
  remoteTpSize : Nat

/-- The addresses in a request id. -/
structure RequestAddresses where
  requestId : String
  remoteIp : String
  remotePort : Int
  pIp : String
  pPort : Int

structure RemoteAddr where
  pdPairId : String
  zmqAddress : String
  commRank : Int

structure SendQueueItem where
  tensorId : String
  remoteAddress : RemoteAddr
  tensor : Tensor

namespace Deployment
variable (t : Deployment)

/-- The loop of `compute_remote_pp_rank` over the remote ranks. -/
def remotePpRankFrom (layerIdx : Nat) : List Nat → Except String Int
  | [] => .ok (-1)
  | dPpRank :: rest => do
    let (start, stop) ← getPpIndicesD t.classes t.partitionList t.totalNumHiddenLayers dPpRank t.remotePpSize
    if layerIdx = t.totalNumHiddenLayers then return (t.remotePpSize : Int) - 1
    else if start ≤ layerIdx ∧ (layerIdx : Int) < stop then return (dPpRank : Int)
    else remotePpRankFrom layerIdx rest

/-- `layerIdx` is what `extract_layer_index` finds in the layer name. -/
def computeRemotePpRank (layerIdx : Nat) : Except String Int := t.remotePpRankFrom layerIdx (List.range t.remotePpSize)

def multp : Nat := t.remoteTpSize / t.tpSize

/-- The address of the worker at a port offset. -/
def workerAddr (r : RequestAddresses) (portOffset : Int) : RemoteAddr where
  pdPairId := s!"{r.pIp}:{r.pPort}_{r.remoteIp}:{r.remotePort}"
  zmqAddress := s!"{r.remoteIp}:{r.remotePort + portOffset}"
  commRank := portOffset + (t.ppSize * t.tpSize : Nat)

def workerItem (r : RequestAddresses) (layerName : String) (tensor : Tensor) (remotePpRank : Int) (dTpRank : Nat) :
    SendQueueItem where
  tensorId := r.requestId ++ "#" ++ layerName
  remoteAddress := t.workerAddr r (remotePpRank * t.remoteTpSize + dTpRank)
  tensor

/-- `get_send_queue_items` of the producer rank `tpRank` with `enable_asymmetric_p2p`. -/
def getSendQueueItems (r : RequestAddresses) (layerName : String) (layerIdx : Nat) (tensor : Tensor) (tpRank : Nat) :
    Except String (List SendQueueItem) := do
  let remotePpRank ← t.computeRemotePpRank layerIdx
  return (List.range t.remoteTpSize).flatMap fun dTpRank => (List.range t.multp).flatMap fun mulTp =>
    if tpRank + mulTp * t.tpSize = dTpRank then [t.workerItem r layerName tensor remotePpRank dTpRank] else []

end Deployment

end VllmHcu.Du
