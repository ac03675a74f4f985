import VllmHcu.Mooncake.Sender

/-!
# The consumer side of the Mooncake connector

`receive_kv` selects producer workers and starts one exchange with each. All
exchanges of a call count down one counter per request; a request whose counter
reaches zero has been received. An error is latched and every later fetch raises
it. An event is what runs between two awaits of the receiver loop.
-/

namespace VllmHcu.Mooncake

/-! ## Selecting the workers -/

/-- What the consumer knows of a producer engine. -/
structure RemoteEngine where
  -- `handshake_target_ranks` of vLLM's transfer topology
  remoteTpRanks : List Nat
  remotePcpSize : Nat
  remoteLayerSplit : Bool
  -- by virtual TP rank and PP rank
  remoteAgents : List (Nat × List (Nat × String))

def virtualRanks (e : RemoteEngine) : List Nat :=
  if e.remotePcpSize > 1 then
    if !e.remoteLayerSplit then e.remoteTpRanks.map fun tpRank => tpRank * e.remotePcpSize
    else e.remoteTpRanks.flatMap fun tpRank =>
      (List.range e.remotePcpSize).map fun pcpRank => tpRank * e.remotePcpSize + pcpRank
  else e.remoteTpRanks

/-- The selected workers; `none` is the `KeyError` of an unknown rank. -/
def workerAddrs (ppSize ppRank : Nat) (e : RemoteEngine) : Option (List String) := do
  let addrs ← (virtualRanks e).mapM fun remoteTpRank => do
    let ppToAddr ← e.remoteAgents.lookup remoteTpRank
    let ppRanks :=
      if ppSize = ppToAddr.length ∧ (ppToAddr.lookup ppRank).isSome then [ppRank]
      else (ppToAddr.map Prod.fst).mergeSort
    ppRanks.mapM fun pp => ppToAddr.lookup pp
  return addrs.flatten

/-! ## State -/

structure KvLoadError (ReqId : Type) where
  errReqs : List ReqId
  errMsg : Option String

/-- One `receive_kv_from_single_worker` task. The history fields list the requests that the worker acknowledged
as ok, those it reported as failed and those counted down; `failed` is set when the exchange fails as a whole. -/
structure Exchange (ReqId : Type) where
  workerAddr : String
  ended : Bool := false
  okReqs : List ReqId := []
  errReqs : List ReqId := []
  counted : List ReqId := []
  failed : Bool := false

/-- One call of `receive_kv`: its `pull_metas` and its tasks. -/
structure Receive (ReqId : Type) where
  reqIds : List ReqId
  pullTasksCount : ReqId → Int
  exchanges : List (Exchange ReqId)

/-- The receiver loop; `entered` is the history of additions to `finished_recving_reqs`, with their calls. -/
structure Receiver (ReqId : Type) where
  receives : List (Receive ReqId) := []
  kvLoadError : Option (KvLoadError ReqId) := none
  finishedRecvingReqs : List ReqId := []
  entered : List (Nat × ReqId) := []

section
variable {ReqId : Type} [DecidableEq ReqId]

/-- `dict.fromkeys` -/
def fromKeys : List ReqId → List ReqId
  | [] => []
  | r :: l => r :: (fromKeys l).filter (· ≠ r)

/-! ## Responses -/

/-- The loop over the acknowledged requests: counters, requests counted down, requests that reach zero, and the
request whose lookup fails, if any. -/
def countDown (reqIds : List ReqId) : List ReqId → (ReqId → Int) →
    (ReqId → Int) × List ReqId × List ReqId × Option ReqId
  | [], counts => (counts, [], [], none)
  | r :: rest, counts =>
    if r ∈ reqIds then
      let n := counts r - 1
      let (counts, counted, finished, missing) := countDown reqIds rest (Function.update counts r n)
      (counts, r :: counted, if n = 0 then r :: finished else finished, missing)
    else (counts, [], [], some r)

namespace Receiver

def setReceive (s : Receiver ReqId) (c : Nat) (rv : Receive ReqId) : Receiver ReqId :=
  { s with receives := s.receives.set c rv }

def latch (s : Receiver ReqId) (errReqs : List ReqId) (errMsg : Option String) : Receiver ReqId :=
  { s with kvLoadError := some ⟨errReqs, errMsg⟩ }

/-- `process_pulling_result` for exchange `w` of call `c`, and the failed lookup, if any. -/
def processPullingResult (s : Receiver ReqId) (c : Nat) (rv : Receive ReqId) (w : Nat) (e : Exchange ReqId)
    (response : XferResponse ReqId) : Receiver ReqId × Option ReqId :=
  if response.errReqs ≠ [] then
    ((s.latch response.errReqs response.errMsg).setReceive c { rv with exchanges := rv.exchanges.set w e }, none)
  else
    let (counts, counted, finished, missing) :=
      countDown rv.reqIds (fromKeys (response.okReqs ++ response.errReqs)) rv.pullTasksCount
    ({ s with
        receives := s.receives.set c { rv with
          pullTasksCount := counts
          exchanges := rv.exchanges.set w { e with counted := e.counted ++ counted } }
        finishedRecvingReqs := finished.foldl (fun l r => l.insert r) s.finishedRecvingReqs
        entered := s.entered ++ finished.map fun r => (c, r) }, missing)

/-- `_fail_pull_metas`, when the exchange ends. -/
def failPullMetas (s : Receiver ReqId) (c : Nat) (rv : Receive ReqId) (w : Nat) (e : Exchange ReqId) (errMsg : String) :
    Receiver ReqId :=
  let response : XferResponse ReqId := { status := .ERROR, errReqs := rv.reqIds, errMsg := some errMsg }
  (s.processPullingResult c rv w { e with ended := true, failed := true } response).1

/-- One response of the stream; `keyError` is the text of a failed lookup. -/
def handleResponse (keyError : ReqId → String) (s : Receiver ReqId) (c : Nat) (rv : Receive ReqId) (w : Nat)
    (e : Exchange ReqId) (response : XferResponse ReqId) : Receiver ReqId :=
  let e := { e with okReqs := e.okReqs ++ response.okReqs, errReqs := e.errReqs ++ response.errReqs }
  if response.status = .ERROR then
    if response.errReqs = [] then
      let response : XferResponse ReqId := { status := .ERROR, errReqs := rv.reqIds, errMsg := response.errMsg }
      (s.processPullingResult c rv w { e with ended := true, failed := true } response).1
    else (s.processPullingResult c rv w { e with ended := true } response).1
  else
    let e := { e with ended := response.status = .FINISH }
    match s.processPullingResult c rv w e response with
    | (s, none) => s
    | (s, some r) =>
      match s.receives[c]? with
      | none => s
      | some rv =>
        match rv.exchanges[w]? with
        | none => s
        | some e => s.failPullMetas c rv w e (keyError r)

/-- `fetch_finished_recving_reqs` -/
def fetchFinishedRecvingReqs (s : Receiver ReqId) : Except (KvLoadError ReqId) (List ReqId × Receiver ReqId) :=
  match s.kvLoadError with
  | some err => .error err
  | none => .ok (s.finishedRecvingReqs, { s with finishedRecvingReqs := [] })

def receiveKv (s : Receiver ReqId) (addrs : List String) (reqIds : List ReqId) : Receiver ReqId :=
  { s with receives := s.receives ++ [⟨reqIds, fun _ => addrs.length, addrs.map fun a => { workerAddr := a }⟩] }

end Receiver

/-! ## Runs -/

inductive ReceiverEvent (ReqId : Type)
  | receiveKv (engine : RemoteEngine) (reqIds : List ReqId)
  | response (c w : Nat) (r : XferResponse ReqId)
  | raised (c w : Nat) (msg : String)
  | contextTerminated (c w : Nat)
  | fetch

/-- The exchange `w` of call `c`, as long as its task runs. -/
def Receiver.running (s : Receiver ReqId) (c w : Nat) : Option (Receive ReqId × Exchange ReqId) := do
  let rv ← s.receives[c]?
  let e ← rv.exchanges[w]?
  if e.ended then none else some (rv, e)

def receiverStep (ppSize ppRank : Nat) (keyError : ReqId → String) (s : Receiver ReqId) :
    ReceiverEvent ReqId → Option (Receiver ReqId)
  | .receiveKv engine reqIds =>
    -- `reqs_to_recv` lists an engine with its first request
    if reqIds = [] then none
    -- a failed lookup raises before any task is created
    else some (((workerAddrs ppSize ppRank engine).map fun addrs => s.receiveKv addrs reqIds).getD s)
  | .response c w r => (s.running c w).map fun p => s.handleResponse keyError c p.1 w p.2 r
  | .raised c w msg => (s.running c w).map fun p => s.failPullMetas c p.1 w p.2 msg
  | .contextTerminated c w => (s.running c w).map fun p =>
    s.setReceive c { p.1 with exchanges := p.1.exchanges.set w { p.2 with ended := true } }
  | .fetch =>
    match s.fetchFinishedRecvingReqs with
    | .ok (_, s) => some s
    | .error _ => some s

end

end VllmHcu.Mooncake
