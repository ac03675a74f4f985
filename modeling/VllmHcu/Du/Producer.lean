import Mathlib.Logic.Function.Basic
import VllmHcu.Lib.Run

/-!
# The connector of a producer

The scheduler tells the connector in each step which tokens of which requests it
runs and which blocks it gave them; the connector hands a request on when its
prompt is computed. A step comes with what the scheduler knows of the requests.
-/

namespace VllmHcu.Du

structure ReqMeta where
  requestId : String
  blockIds : List Nat
  numTokens : Nat
deriving DecidableEq

def ReqMeta.makeMeta (requestId : String) (tokenIds blockIds : List Nat) : ReqMeta :=
  ⟨requestId, blockIds, tokenIds.length⟩

/-! ## The scheduler output -/

structure NewRequestData where
  reqId : String
  promptTokenIds : Option (List Nat)
  -- by KV cache group
  blockIds : List (List Nat)
  numComputedTokens : Nat

/-- One position of the lists of `CachedRequestData`. -/
structure CachedRequest where
  reqId : String
  newBlockIds : Option (List (List Nat))
  numComputedTokens : Nat

structure SchedulerOutput where
  scheduledNewReqs : List NewRequestData
  scheduledCachedReqs : List CachedRequest
  resumedReqIds : List String
  numScheduledTokens : String → Nat

namespace SchedulerOutput

def resumed (out : SchedulerOutput) (r : CachedRequest) : Bool := out.resumedReqIds.contains r.reqId

def newTokens (out : SchedulerOutput) (r : NewRequestData) : Nat := out.numScheduledTokens r.reqId + r.numComputedTokens

def cachedTokens (out : SchedulerOutput) (r : CachedRequest) : Nat :=
  out.numScheduledTokens r.reqId + r.numComputedTokens

end SchedulerOutput

/-- `block_ids[0]` -/
def firstGroup (blockIds : List (List Nat)) : List Nat := blockIds.headD []

/-! ## The connector -/

structure DuSwiftConnectorDp where
  isProducer : Bool
  -- the request's `all_token_ids`
  requestsNeedLoad : String → Option (List Nat) := fun _ => none
  chunkedPrefill : String → Option (List Nat × Option (List Nat)) := fun _ => none

namespace DuSwiftConnectorDp

def buildNew (out : SchedulerOutput) (c : DuSwiftConnectorDp) (sent : List ReqMeta) (r : NewRequestData) :
    DuSwiftConnectorDp × List ReqMeta :=
  let tokenIds := r.promptTokenIds.getD []
  let whole := ReqMeta.makeMeta r.reqId tokenIds (firstGroup r.blockIds)
  if c.isProducer then
    if out.newTokens r < tokenIds.length then
      ({ c with chunkedPrefill :=
          Function.update c.chunkedPrefill r.reqId (some (firstGroup r.blockIds, r.promptTokenIds)) }, sent)
    else (c, sent ++ [whole])
  else if (c.requestsNeedLoad r.reqId).isSome then
    ({ c with requestsNeedLoad := Function.update c.requestsNeedLoad r.reqId none }, sent ++ [whole])
  else (c, sent)

/-- A cached request of a producer. `none` is a failed assertion. -/
def buildCached (out : SchedulerOutput) (c : DuSwiftConnectorDp) (sent : List ReqMeta) (r : CachedRequest) :
    Option (DuSwiftConnectorDp × List ReqMeta) :=
  match c.chunkedPrefill r.reqId with
  | none => some (c, sent)
  | some (oldBlockIds, promptTokenIds) =>
    match r.newBlockIds with
    | none => some (c, sent)
    | some newBlockIds =>
      let blockIds := if out.resumed r then firstGroup newBlockIds else oldBlockIds ++ firstGroup newBlockIds
      match promptTokenIds with
      | none => none
      | some promptTokenIds =>
        if out.cachedTokens r < promptTokenIds.length then
          some ({ c with chunkedPrefill := Function.update c.chunkedPrefill r.reqId (some (blockIds, some promptTokenIds)) },
            sent)
        else
          some ({ c with chunkedPrefill := Function.update c.chunkedPrefill r.reqId none },
            sent ++ [.makeMeta r.reqId promptTokenIds blockIds])

def buildCachedReqs (out : SchedulerOutput) : DuSwiftConnectorDp → List ReqMeta → List CachedRequest →
    Option (DuSwiftConnectorDp × List ReqMeta)
  | c, sent, [] => some (c, sent)
  | c, sent, r :: rs =>
    if c.isProducer then (buildCached out c sent r).bind fun p => buildCachedReqs out p.1 p.2 rs
    else if ! out.resumed r then some (c, sent)
    else
      match c.requestsNeedLoad r.reqId with
      | none => buildCachedReqs out c sent rs
      | some allTokenIds =>
        let c := { c with requestsNeedLoad := Function.update c.requestsNeedLoad r.reqId none }
        match r.newBlockIds with
        | none => buildCachedReqs out c sent rs
        | some newBlockIds =>
          buildCachedReqs out c
            (sent ++ [.makeMeta r.reqId (allTokenIds.take (r.numComputedTokens + 1)) (firstGroup newBlockIds)]) rs

def buildConnectorMeta (c : DuSwiftConnectorDp) (out : SchedulerOutput) : Option (DuSwiftConnectorDp × List ReqMeta) :=
  let p := out.scheduledNewReqs.foldl (fun p r => buildNew out p.1 p.2 r) (c, [])
  (buildCachedReqs out p.1 p.2 out.scheduledCachedReqs).map fun p =>
    ({ p.1 with requestsNeedLoad := fun _ => none }, p.2)

def requestFinished (c : DuSwiftConnectorDp) (requestId : String) : DuSwiftConnectorDp :=
  { c with chunkedPrefill := Function.update c.chunkedPrefill requestId none }

end DuSwiftConnectorDp

/-! ## The scheduler's requests -/

inductive Status
  | running
  | preempted
  | finished
deriving DecidableEq

structure Request where
  prompt : List Nat
  blocks : List Nat
  status : Status
  -- whether its last prompt token has been scheduled
  completed : Bool

namespace SchedulerOutput

/-- What the scheduler promises: a request once in a step, a new one with a new id, a resumed one after a preemption
and with all of its blocks. -/
def valid (out : SchedulerOutput) (requests : String → Option Request) : Bool :=
  (out.scheduledNewReqs.map (·.reqId) ++ out.scheduledCachedReqs.map (·.reqId)).Nodup &&
    out.scheduledNewReqs.all (fun r => (requests r.reqId).isNone) &&
    out.scheduledCachedReqs.all fun r =>
      match requests r.reqId with
      | none => false
      | some q => if out.resumed r then q.status = .preempted && r.newBlockIds.isSome else q.status = .running

def newRequest (out : SchedulerOutput) (r : NewRequestData) : Request where
  prompt := r.promptTokenIds.getD []
  blocks := firstGroup r.blockIds
  status := .running
  completed := (r.promptTokenIds.getD []).length ≤ out.newTokens r

/-- A request after a step: its blocks are extended, or replaced on resumption. -/
def cachedRequest (out : SchedulerOutput) (r : CachedRequest) (q : Request) : Request where
  prompt := q.prompt
  blocks := (if out.resumed r then [] else q.blocks) ++ (r.newBlockIds.elim [] firstGroup)
  status := .running
  completed := q.completed || q.prompt.length ≤ out.cachedTokens r

def advanceNew (out : SchedulerOutput) (requests : String → Option Request) (r : NewRequestData) :
    String → Option Request := Function.update requests r.reqId (some (out.newRequest r))

def advanceCached (out : SchedulerOutput) (requests : String → Option Request) (r : CachedRequest) :
    String → Option Request := Function.update requests r.reqId ((requests r.reqId).map (out.cachedRequest r))

def advance (out : SchedulerOutput) (requests : String → Option Request) : String → Option Request :=
  out.scheduledCachedReqs.foldl out.advanceCached (out.scheduledNewReqs.foldl out.advanceNew requests)

def newCompletion (out : SchedulerOutput) (r : NewRequestData) : Option ReqMeta :=
  if (out.newRequest r).completed then some (.makeMeta r.reqId (out.newRequest r).prompt (out.newRequest r).blocks)
  else none

def cachedCompletion (out : SchedulerOutput) (requests : String → Option Request) (r : CachedRequest) : Option ReqMeta :=
  (requests r.reqId).bind fun q =>
    if !q.completed && (out.cachedRequest r q).completed then
      some (.makeMeta r.reqId q.prompt (out.cachedRequest r q).blocks)
    else none

/-- The requests whose prompt is first computed in a step, with all of their blocks. -/
def completions (out : SchedulerOutput) (requests : String → Option Request) : List ReqMeta :=
  out.scheduledNewReqs.filterMap out.newCompletion ++ out.scheduledCachedReqs.filterMap (out.cachedCompletion requests)

end SchedulerOutput

/-! ## Runs -/

inductive ProducerEvent
  | build (out : SchedulerOutput)
  | preempt (id : String)
  | finish (id : String)

structure Producer where
  conn : DuSwiftConnectorDp := { isProducer := true }
  requests : String → Option Request := fun _ => none
  -- what the metadata of all steps held
  sent : List ReqMeta := []

namespace Producer

def step (s : Producer) : ProducerEvent → Option Producer
  | .build out =>
    if out.valid s.requests then
      (s.conn.buildConnectorMeta out).map fun p => ⟨p.1, out.advance s.requests, s.sent ++ p.2⟩
    else none
  | .preempt id =>
    match s.requests id with
    | some q =>
      if q.status = .running then
        some { s with requests := Function.update s.requests id (some { q with status := .preempted }) }
      else none
    | none => none
  | .finish id =>
    match s.requests id with
    | some q =>
      if q.status = .finished then none
      else some { s with
        conn := s.conn.requestFinished id
        requests := Function.update s.requests id (some { q with status := .finished }) }
    | none => none

end Producer

end VllmHcu.Du
