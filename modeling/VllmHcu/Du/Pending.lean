import Mathlib.Logic.Function.Basic
import VllmHcu.Lib.Assoc
import VllmHcu.Lib.Run

/-!
# Tensors that wait for a destination

The worker hands the KV of a layer to the engine before the router has said where
the request goes; such tensors wait in a queue that a thread of the engine
empties. The worker, the listener and that thread take steps in any order.
-/

namespace VllmHcu.Du

/-- `RemoteAddr` -/
structure Dest where
  pdPairId : String
  zmqAddress : String
  commRank : Nat
deriving DecidableEq

/-- What waits for a request: a layer and its tensor. -/
structure Item where
  layerName : String
  tensor : Nat
deriving DecidableEq

/-- The worker: in `save_kv_layer` behind the status check, or in the second loop of `get_finished`. -/
inductive Worker
  | idle
  | saving (requestId : String) (item : Item) (pending : Bool)
  | finishing (finishedReqIds : List String)
deriving DecidableEq

/-- `_pending_check`: in its loop over the copy, behind the status check of a request, or behind the pop of
`unpending_tensor`. -/
inductive Checker
  | waiting
  | scanning (todo : List String)
  | checked (requestId : String) (dests : List Dest) (todo : List String)
  | sending (requestId : String) (tensors : List Item) (dests : List Dest) (todo : List String)
  -- an exception has ended the thread
  | dead
deriving DecidableEq

structure Engine where
  -- by request its destinations, none for one that is not to be transferred
  reqStatus : String → Option (List Dest) := fun _ => none
  -- dictionaries in the order of insertion
  pendingQueue : List (String × List Item) := []
  requestsToRelease : List (String × Bool) := []
  worker : Worker := .idle
  checker : Checker := .waiting
  -- the calls of `send_tensor`, the tensors saved, and those that left the queue or never entered it
  sent : List (String × Item × Dest) := []
  saved : List (String × Item) := []
  delivered : List (String × Item) := []
  -- whether `save_kv_layer` or `get_finished` has raised, and the requests that left `requests_to_release`
  raised : Bool := false
  released : List String := []

inductive EngineEvent
  | saveKvLayer (requestId : String) (item : Item)
  | saveRest
  | reqToTransfer (requestId : String) (dests : List Dest)
  | reqNotToTransfer (requestId : String)
  | copyQueue
  | checkStatus
  | popRequest
  | sendTensors
  | getFinished (finishedReqIds : List String)
  | finishRequest

namespace Engine

def sends (requestId : String) (item : Item) (dests : List Dest) : List (String × Item × Dest) :=
  dests.map fun d => (requestId, item, d)

/-- `pending_tensor` -/
def pendingTensor (s : Engine) (requestId : String) (item : Item) : Engine :=
  { s with pendingQueue := insertKey requestId ((s.pendingQueue.lookup requestId).getD [] ++ [item]) s.pendingQueue }

/-- The rest of `save_kv_layer`. -/
def saveRest (s : Engine) (requestId : String) (item : Item) (pending : Bool) : Engine :=
  let s := { s with worker := .idle, saved := (requestId, item) :: s.saved }
  if pending then s.pendingTensor requestId item
  else
    match s.reqStatus requestId with
    | some dests =>
      { s with sent := s.sent ++ sends requestId item dests, delivered := (requestId, item) :: s.delivered }
    | none => { s with raised := true }

/-- The pop of `unpending_tensor`. -/
def popRequest (s : Engine) (requestId : String) (dests : List Dest) (todo : List String) : Engine :=
  match s.pendingQueue.lookup requestId with
  | none => { s with checker := .dead }
  | some tensors =>
    { s with
      pendingQueue := eraseKey requestId s.pendingQueue
      requestsToRelease :=
        if (s.requestsToRelease.lookup requestId).isSome then insertKey requestId true s.requestsToRelease
        else s.requestsToRelease
      checker := .sending requestId tensors dests todo }

/-- The first loop of `get_finished`. Taking the next item of a dictionary whose size has changed raises. -/
def getFinished (s : Engine) (finishedReqIds : List String) : Engine :=
  match s.requestsToRelease.find? (·.2) with
  | some (requestId, _) =>
    { s with
      requestsToRelease := eraseKey requestId s.requestsToRelease
      raised := true
      released := requestId :: s.released }
  | none => { s with worker := .finishing finishedReqIds }

def step (s : Engine) : EngineEvent → Option Engine
  | .saveKvLayer requestId item =>
    if s.worker = .idle then some { s with worker := .saving requestId item (s.reqStatus requestId).isNone } else none
  | .saveRest =>
    match s.worker with
    | .saving requestId item pending => some (s.saveRest requestId item pending)
    | _ => none
  -- the router sends one message for a request
  | .reqToTransfer requestId dests =>
    if s.reqStatus requestId = none then some { s with reqStatus := Function.update s.reqStatus requestId (some dests) }
    else none
  | .reqNotToTransfer requestId =>
    if s.reqStatus requestId = none then some { s with reqStatus := Function.update s.reqStatus requestId (some []) }
    else none
  | .copyQueue =>
    if s.checker = .waiting ∧ s.pendingQueue ≠ [] then some { s with checker := .scanning (s.pendingQueue.map (·.1)) }
    else none
  | .checkStatus =>
    match s.checker with
    | .scanning [] => some { s with checker := .waiting }
    | .scanning (requestId :: todo) =>
      match s.reqStatus requestId with
      | none => some { s with checker := .scanning todo }
      | some dests => some { s with checker := .checked requestId dests todo }
    | _ => none
  | .popRequest =>
    match s.checker with
    | .checked requestId dests todo => some (s.popRequest requestId dests todo)
    | _ => none
  | .sendTensors =>
    match s.checker with
    | .sending requestId tensors dests todo =>
      some { s with
        sent := s.sent ++ tensors.flatMap fun item => sends requestId item dests
        delivered := tensors.map (fun item => (requestId, item)) ++ s.delivered
        checker := .scanning todo }
    | _ => none
  | .getFinished finishedReqIds => if s.worker = .idle then some (s.getFinished finishedReqIds) else none
  | .finishRequest =>
    match s.worker with
    | .finishing [] => some { s with worker := .idle }
    | .finishing (requestId :: rest) =>
      if (s.pendingQueue.lookup requestId).isSome then
        some { s with worker := .finishing rest, requestsToRelease := insertKey requestId false s.requestsToRelease }
      else some { s with worker := .finishing rest }
    | _ => none

end Engine

end VllmHcu.Du
