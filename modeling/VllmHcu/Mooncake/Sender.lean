import Mathlib.Data.List.Dedup
import Mathlib.Logic.Function.Basic
import VllmHcu.Lib.Run

/-!
# The producer side of the Mooncake connector

The state of one sender loop: the `SendBlockMeta` objects, the dictionary
`reqs_need_send`, the set `finished_sending_reqs` and the running
`send_kv_to_decode` coroutines. An event is what runs between two awaits.
-/

namespace VllmHcu.Mooncake

/-! ## Data -/

/-- An entry of `reqs_need_send`; `pReqId` is `none` for the empty id, `expireTime` for infinity. -/
structure SendBlockMeta (ReqId TransferId : Type) where
  pReqId : Option ReqId
  transferId : TransferId
  localBlockIds : List (List Int) := []
  ready : Bool := false
  expireTime : Option Nat := none
  needSend : Nat := 0
  sent : Nat := 0
  sending : Int := 0

inductive XferResponseStatus
  | FINISH
  | CONTINUE
  | ERROR
deriving DecidableEq

structure XferResponse (ReqId : Type) where
  status : XferResponseStatus
  okReqs : List ReqId := []
  errReqs : List ReqId := []
  errMsg : Option String := none

/-- The part of a pull message that the sender loop reads. -/
structure XferMetadata (ReqId TransferId : Type) where
  reqBlocks : List (ReqId × TransferId × List (List Int))
  -- `len(remote_tp_ranks)`, from vLLM's transfer topology
  numTargetRanks : Nat
  nodup_reqs : (reqBlocks.map (·.1)).Nodup

/-- The descriptors of one request, from its aligned groups. -/
inductive RegionPlan
  | boundsError (msg : String)
  | raised (msg : String)
  | descriptors (ds : List (Int × Int × Nat))

/-- Block `b` becomes the kernel blocks `b * n` up to `b * n + n - 1`. -/
def kernelBlocks (n : Nat) (blockIds : List Int) : List Int :=
  blockIds.flatMap fun b => (List.range n).map fun k => b * n + k

/-- `BlockTable` of vLLM. -/
structure BlockTable where
  mapToKernelBlocks : List Int → Nat → List Int
  expands : ∀ (blockIds : List Int) (n : Nat), mapToKernelBlocks blockIds n = kernelBlocks n blockIds

def BlockTable.vllm : BlockTable := ⟨fun blockIds n => kernelBlocks n blockIds, fun _ _ => rfl⟩

/-- The fixed configuration of a producer worker. -/
structure Worker (ReqId TransferId : Type) where
  pcpDummySender : Bool := false
  abortRequestTimeout : Nat
  isMambaGroup : Nat → Bool := fun _ => false
  physicalBlocksPerLogicalKvBlock : Nat := 1
  blockTable : BlockTable := .vllm
  -- the metadata checks before the wait loop: the message of the rejection
  rejectMetadata : XferMetadata ReqId TransferId → Option String := fun _ => none
  -- the region loops: bounds, assertions and the pointers of a request
  regionPlan : XferMetadata ReqId TransferId → List (List Int) → List (List Int) → RegionPlan

/-- A batch whose blocks are being transferred; `reads` are the producer requests read, with the
blocks. -/
structure Batch (ReqId : Type) where
  readyReqs : List (ReqId × Nat)
  errReqs : List ReqId
  errMsg : Option String
  status : XferResponseStatus
  reads : List (Option ReqId × List (List Int))

inductive Phase (ReqId : Type)
  | waiting
  | sending (batch : Batch ReqId)
  | ended

/-- One `send_kv_to_decode` coroutine; its wait tasks are the pending requests with their entries. -/
structure Pull (ReqId TransferId : Type) where
  xferMeta : XferMetadata ReqId TransferId
  pendingReqs : List (ReqId × Nat)
  phase : Phase ReqId
  responses : List (XferResponse ReqId) := []
  -- the requests logged as expired before sending
  forgotten : List ReqId := []

/-- The sender loop. The history fields `recorded` and `reported` list the requests recorded with
blocks and those that `fetch_finished_sending_reqs` has returned. -/
structure Sender (ReqId TransferId : Type) where
  heap : Nat → SendBlockMeta ReqId TransferId
  next : Nat := 0
  reqsNeedSend : List (TransferId × Nat) := []
  finishedSendingReqs : List ReqId := []
  pulls : List (Pull ReqId TransferId) := []
  recorded : List ReqId := []
  reported : List ReqId := []

section
variable {ReqId TransferId : Type} [DecidableEq ReqId] [DecidableEq TransferId]

namespace Sender

def stored (s : Sender ReqId TransferId) (t : TransferId) : Option Nat := s.reqsNeedSend.lookup t

def pop (s : Sender ReqId TransferId) (t : TransferId) : Sender ReqId TransferId :=
  { s with reqsNeedSend := s.reqsNeedSend.filter fun e => e.1 ≠ t }

def setEntry (s : Sender ReqId TransferId) (i : Nat) (m : SendBlockMeta ReqId TransferId) :
    Sender ReqId TransferId :=
  { s with heap := Function.update s.heap i m }

omit [DecidableEq ReqId] [DecidableEq TransferId] in
theorem setEntry_heap_self (s : Sender ReqId TransferId) (i : Nat) (m : SendBlockMeta ReqId TransferId) :
    (s.setEntry i m).heap i = m :=
  Function.update_self ..

omit [DecidableEq ReqId] [DecidableEq TransferId] in
theorem setEntry_heap_of_ne (s : Sender ReqId TransferId) {i j : Nat} (m : SendBlockMeta ReqId TransferId)
    (h : j ≠ i) : (s.setEntry i m).heap j = s.heap j :=
  Function.update_of_ne h ..

def setPull (s : Sender ReqId TransferId) (c : Nat) (p : Pull ReqId TransferId) : Sender ReqId TransferId :=
  { s with pulls := s.pulls.set c p }

def finish (s : Sender ReqId TransferId) (p : ReqId) : Sender ReqId TransferId :=
  { s with finishedSendingReqs := s.finishedSendingReqs.insert p }

def addRecorded (s : Sender ReqId TransferId) (p : ReqId) : Sender ReqId TransferId :=
  { s with recorded := p :: s.recorded }

/-- A new entry under `t`. -/
def openEntry (s : Sender ReqId TransferId) (t : TransferId) (p : Option ReqId) : Sender ReqId TransferId :=
  { s with
    heap := Function.update s.heap s.next { pReqId := p, transferId := t }
    next := s.next + 1
    reqsNeedSend := s.reqsNeedSend ++ [(t, s.next)] }

/-! ## Scheduler events -/

/-- One request of `record_send_reqs`; `none` is the `KeyError` of an unknown transfer. -/
def recordSend (w : Worker ReqId TransferId) (now : Nat) (s : Sender ReqId TransferId) (pReqId : ReqId)
    (t : TransferId) (blockIds : List (List Int)) : Option (Sender ReqId TransferId) :=
  if blockIds ≠ [] then
    if w.pcpDummySender then some (((s.pop t).finish pReqId).addRecorded pReqId)
    else
      match s.stored t with
      | none => none
      | some i => some ((s.setEntry i { s.heap i with
          pReqId := some pReqId
          localBlockIds := blockIds
          expireTime := some (now + w.abortRequestTimeout)
          ready := true }).addRecorded pReqId)
  else if (s.stored t).isNone then some (s.openEntry t (some pReqId))
  else some s

/-- The loop over `reqs_to_send`, and whether it ran to its end. -/
def recordSends (w : Worker ReqId TransferId) (now : Nat) :
    List (ReqId × TransferId × List (List Int)) → Sender ReqId TransferId → Sender ReqId TransferId × Bool
  | [], s => (s, true)
  | (p, t, blockIds) :: rest, s =>
    match s.recordSend w now p t blockIds with
    | none => (s, false)
    | some s => recordSends w now rest s

/-- The loop over `reqs_not_processed`; a ready entry fails its assertion after the pop. -/
def dropNotProcessed : List TransferId → Sender ReqId TransferId → Sender ReqId TransferId
  | [], s => s
  | t :: rest, s =>
    match s.stored t with
    | none => dropNotProcessed rest s
    | some i => if (s.heap i).ready then s.pop t else dropNotProcessed rest (s.pop t)

def recordSendReqs (w : Worker ReqId TransferId) (now : Nat) (reqsToSend : List (ReqId × TransferId × List (List Int)))
    (reqsNotProcessed : List TransferId) (s : Sender ReqId TransferId) : Sender ReqId TransferId :=
  match s.recordSends w now reqsToSend with
  | (s, true) => s.dropNotProcessed reqsNotProcessed
  | (s, false) => s

/-- The test of the expiry loop. -/
def expired (s : Sender ReqId TransferId) (now : Nat) (i : Nat) : Bool :=
  (s.heap i).pReqId.isSome &&
    (match (s.heap i).expireTime with
      | none => false
      | some e => decide (e < now)) &&
    (s.heap i).sending == 0

def fetchFinishedSendingReqs (now : Nat) (s : Sender ReqId TransferId) : Sender ReqId TransferId :=
  let gone := s.reqsNeedSend.filter fun e => s.expired now e.2
  let finished := (s.finishedSendingReqs ++ gone.filterMap fun e => (s.heap e.2).pReqId).dedup
  { s with
    reqsNeedSend := s.reqsNeedSend.filter fun e => !s.expired now e.2
    finishedSendingReqs := []
    reported := s.reported ++ finished }

/-! ## Transfer parameters -/

end Sender

def nullBlockId : Int := 0

/-- The group loop: null blocks of state groups dropped, the local suffix as long as the remote group;
`none` when a group has too few local blocks. -/
def alignGroups (isMambaGroup : Nat → Bool) : Nat → List (List Int) → List (List Int) →
    Option (List (List Int × List Int))
  | g, localGroup :: locals, remoteGroup :: remotes =>
    let keep := fun group : List Int => if isMambaGroup g then group.filter (· ≠ nullBlockId) else group
    let localGroup := keep localGroup
    let remoteGroup := keep remoteGroup
    if localGroup.length < remoteGroup.length then none
    else
      (alignGroups isMambaGroup (g + 1) locals remotes).map fun rest =>
        (localGroup.drop (localGroup.length - remoteGroup.length), remoteGroup) :: rest
  | _, _, _ => some []

/-- `_logical_to_kernel_block_ids`. -/
def logicalToKernelBlockIds (w : Worker ReqId TransferId) (groups : List (List Int)) : List (List Int) :=
  if w.physicalBlocksPerLogicalKvBlock = 1 then groups
  else groups.zipIdx.map fun g =>
    if w.isMambaGroup g.2 then g.1
    else w.blockTable.mapToKernelBlocks g.1 w.physicalBlocksPerLogicalKvBlock

/-- `_validate_nonnegative_block_ids`. -/
def validateNonnegativeBlockIds (localBlockIds remoteBlockIds : List (List Int)) : Option String :=
  let negative := fun (side : String) (groups : List (List Int)) =>
    groups.zipIdx.findSome? fun g => (g.1.find? (· < 0)).map fun b =>
      s!"Mooncake {side} block ID {b} is negative in KV group {g.2}."
  (negative "producer" localBlockIds).or (negative "consumer" remoteBlockIds)

inductive RequestPlan
  | skip
  | reject (msg : String)
  | raised (msg : String)
  | send (localBlockIds : List (List Int)) (ds : List (Int × Int × Nat))

/-- The body of the loop of `_build_transfer_params`. -/
def planRequest (w : Worker ReqId TransferId) (m : XferMetadata ReqId TransferId)
    (localBlockIds remoteBlockIds : List (List Int)) : RequestPlan :=
  if remoteBlockIds.all (·.isEmpty) then .skip
  else if localBlockIds.length ≠ remoteBlockIds.length then .reject "KV group count mismatch"
  else
    match alignGroups w.isMambaGroup 0 localBlockIds remoteBlockIds with
    | none => .reject "P num blocks less than D"
    | some groups =>
      if groups.all (·.1.isEmpty) then .skip
      else
        let localBlockIds := logicalToKernelBlockIds w (groups.map (·.1))
        let remoteBlockIds := logicalToKernelBlockIds w (groups.map (·.2))
        match validateNonnegativeBlockIds localBlockIds remoteBlockIds with
        | some msg => .reject msg
        | none =>
          match w.regionPlan m localBlockIds remoteBlockIds with
          | .boundsError msg => .reject msg
          | .raised msg => .raised msg
          | .descriptors ds => .send localBlockIds ds

structure TransferParams (ReqId : Type) where
  descriptors : List (Int × Int × Nat) := []
  errReqs : List ReqId := []
  errMsg : Option String := none
  reads : List (Option ReqId × List (List Int)) := []

def buildTransferParams (w : Worker ReqId TransferId) (m : XferMetadata ReqId TransferId)
    (heap : Nat → SendBlockMeta ReqId TransferId) : List (ReqId × Nat) → Except String (TransferParams ReqId)
  | [] => .ok {}
  | (d, i) :: rest =>
    let remoteBlockIds := (m.reqBlocks.lookup d).elim [] (·.2)
    match planRequest w m (heap i).localBlockIds remoteBlockIds with
    | .raised msg => .error msg
    | .skip => buildTransferParams w m heap rest
    | .reject msg => do
      let ps ← buildTransferParams w m heap rest
      return { ps with errReqs := d :: ps.errReqs, errMsg := some msg }
    | .send localBlockIds ds => do
      let ps ← buildTransferParams w m heap rest
      return { ps with
        descriptors := ds ++ ps.descriptors
        reads := ((heap i).pReqId, localBlockIds) :: ps.reads }

/-! ## Pulls -/

namespace Sender

/-- The first loop over `req_blocks`: the entries that the pull waits for. -/
def awaitEntries : List (ReqId × TransferId × List (List Int)) → Sender ReqId TransferId →
    Sender ReqId TransferId × List (ReqId × Nat)
  | [], s => (s, [])
  | (d, t, _) :: rest, s =>
    match s.stored t with
    | some i =>
      let r := awaitEntries rest s
      (r.1, (d, i) :: r.2)
    | none =>
      let r := awaitEntries rest (s.openEntry t none)
      (r.1, (d, s.next) :: r.2)

def startPull (w : Worker ReqId TransferId) (m : XferMetadata ReqId TransferId) (s : Sender ReqId TransferId) :
    Sender ReqId TransferId :=
  match w.rejectMetadata m with
  | some msg =>
    { s with pulls := s.pulls ++ [⟨m, [], .ended, [{ status := .ERROR, errMsg := some msg }], []⟩] }
  | none =>
    let (s, pending) := s.awaitEntries m.reqBlocks
    { s with pulls := s.pulls ++ [⟨m, pending, if pending = [] then .ended else .waiting, [], []⟩] }

/-- The loop over the completed wait tasks: the requests marked as sending and the forgotten ones. -/
def markReady (numTargetRanks : Nat) : List (ReqId × Nat) → Sender ReqId TransferId →
    Sender ReqId TransferId × List (ReqId × Nat) × List ReqId
  | [], s => (s, [], [])
  | (d, i) :: rest, s =>
    if (s.stored (s.heap i).transferId).isSome then
      let m := { s.heap i with sending := (s.heap i).sending + 1 }
      let m := if m.needSend = 0 then { m with needSend := numTargetRanks } else m
      let r := markReady numTargetRanks rest (s.setEntry i m)
      (r.1, (d, i) :: r.2.1, r.2.2)
    else
      let r := markReady numTargetRanks rest s
      (r.1, r.2.1, d :: r.2.2)

/-- One ready request after the transfer. -/
def completeReq (errReqs : List ReqId) (s : Sender ReqId TransferId) (task : ReqId × Nat) : Sender ReqId TransferId :=
  let m := { s.heap task.2 with sending := (s.heap task.2).sending - 1 }
  if task.1 ∈ errReqs then s.setEntry task.2 m
  else
    let m := { m with sent := m.sent + 1 }
    let s := s.setEntry task.2 m
    if m.sent = m.needSend ∧ (s.stored m.transferId).isSome then
      let s := s.pop m.transferId
      m.pReqId.elim s s.finish
    else s

def completeReqs (errReqs : List ReqId) (ready : List (ReqId × Nat)) (s : Sender ReqId TransferId) :
    Sender ReqId TransferId :=
  ready.foldl (completeReq errReqs) s

end Sender

namespace Batch

def okReqs (b : Batch ReqId) : List ReqId := (b.readyReqs.map (·.1)).filter fun d => d ∉ b.errReqs

/-- A failed transfer fails every request of its batch. -/
def finalErrReqs (b : Batch ReqId) (retValue : Int) : List ReqId :=
  if retValue ≠ 0 then b.errReqs ++ b.okReqs else b.errReqs

def response (b : Batch ReqId) (retValue : Int) : XferResponse ReqId where
  status := b.status
  okReqs := if retValue ≠ 0 then [] else b.okReqs
  errReqs := b.finalErrReqs retValue
  errMsg :=
    if retValue ≠ 0 then
      let transferErrMsg := s!"Mooncake transfer engine returned {retValue}"
      some (b.errMsg.elim transferErrMsg fun msg => s!"{msg}; {transferErrMsg}")
    else b.errMsg

end Batch

namespace Pull

/-- An exception of the pull: `_sender_worker` answers with an error without ids. -/
def fail (p : Pull ReqId TransferId) (msg : String) : Pull ReqId TransferId :=
  { p with
    phase := .ended
    responses := p.responses ++ [{ status := .ERROR, errMsg := some msg }] }

/-- A response, unless its send raises. -/
def respond (p : Pull ReqId TransferId) (r : XferResponse ReqId) : Option String → Pull ReqId TransferId
  | none =>
    { p with
      phase := if r.status = .CONTINUE then .waiting else .ended
      responses := p.responses ++ [r] }
  | some msg => p.fail msg

end Pull

namespace Sender

/-- The end of a batch: bookkeeping and response. -/
def finishBatch (s : Sender ReqId TransferId) (c : Nat) (p : Pull ReqId TransferId) (b : Batch ReqId)
    (retValue : Int) (sendError : Option String) : Sender ReqId TransferId :=
  (s.completeReqs (b.finalErrReqs retValue) b.readyReqs).setPull c (p.respond (b.response retValue) sendError)

/-- `asyncio.wait` of pull `c` returns with the completed tasks `done`. -/
def collect (w : Worker ReqId TransferId) (s : Sender ReqId TransferId) (c : Nat) (p : Pull ReqId TransferId)
    (done : List (ReqId × Nat)) (sendError : Option String) : Sender ReqId TransferId :=
  let pending := p.pendingReqs.filter fun task => task ∉ done
  let status := if pending = [] then XferResponseStatus.FINISH else .CONTINUE
  let (s, ready, forgotten) := s.markReady p.xferMeta.numTargetRanks done
  let p := { p with pendingReqs := pending, forgotten := p.forgotten ++ forgotten }
  match buildTransferParams w p.xferMeta s.heap ready with
  | .error msg => s.setPull c (p.fail msg)
  | .ok ps =>
    let b : Batch ReqId := ⟨ready, ps.errReqs, ps.errMsg, status, ps.reads⟩
    -- without descriptors there is no await before the bookkeeping
    if ps.descriptors = [] then s.finishBatch c p b 0 sendError
    else s.setPull c { p with phase := .sending b }

/-- `asyncio.wait` of a pull returns without a completed task. -/
def timeout (s : Sender ReqId TransferId) (c : Nat) (p : Pull ReqId TransferId) (sendError : Option String) :
    Sender ReqId TransferId :=
  let response : XferResponse ReqId :=
    { status := .FINISH
      errReqs := p.pendingReqs.map (·.1)
      errMsg := some "Timeout waiting for P side ready." }
  s.setPull c (p.respond response sendError)

end Sender

/-! ## Runs -/

/-- What happens in the sender loop; `sendError` is the exception of sending its response, if any. -/
inductive Event (ReqId TransferId : Type)
  | record (now : Nat) (reqsToSend : List (ReqId × TransferId × List (List Int))) (reqsNotProcessed : List TransferId)
  | fetch (now : Nat)
  | pull (m : XferMetadata ReqId TransferId)
  | collect (c : Nat) (done : List (ReqId × Nat)) (sendError : Option String)
  | timeout (c : Nat) (sendError : Option String)
  | transferred (c : Nat) (retValue : Int) (sendError : Option String)
  | transferRaised (c : Nat) (msg : String)

/-- One event; `none` when the sender loop cannot take it. -/
def step (w : Worker ReqId TransferId) (s : Sender ReqId TransferId) :
    Event ReqId TransferId → Option (Sender ReqId TransferId)
  | .record now reqsToSend reqsNotProcessed => some (s.recordSendReqs w now reqsToSend reqsNotProcessed)
  | .fetch now => some (s.fetchFinishedSendingReqs now)
  | .pull m => some (s.startPull w m)
  | .collect c done sendError =>
    match s.pulls[c]? with
    | some p =>
      match p.phase with
      | .waiting =>
        -- any of the tasks whose event is set may have run by now
        if done ≠ [] ∧ done.Nodup ∧ ∀ task ∈ done, task ∈ p.pendingReqs ∧ (s.heap task.2).ready = true then
          some (s.collect w c p done sendError)
        else none
      | _ => none
    | none => none
  | .timeout c sendError =>
    match s.pulls[c]? with
    | some p =>
      match p.phase with
      | .waiting => some (s.timeout c p sendError)
      | _ => none
    | none => none
  | .transferred c retValue sendError =>
    match s.pulls[c]? with
    | some p =>
      match p.phase with
      | .sending b => some (s.finishBatch c p b retValue sendError)
      | _ => none
    | none => none
  | .transferRaised c msg =>
    match s.pulls[c]? with
    | some p =>
      match p.phase with
      | .sending _ => some (s.setPull c (p.fail msg))
      | _ => none
    | none => none

def run (w : Worker ReqId TransferId) (s : Sender ReqId TransferId) (es : List (Event ReqId TransferId)) :
    Option (Sender ReqId TransferId) :=
  runFrom (step w) s es

/-- A new sender loop; `heap` is what unused entries hold. -/
def Sender.initial (heap : Nat → SendBlockMeta ReqId TransferId) : Sender ReqId TransferId := { heap := heap }

end

end VllmHcu.Mooncake
