import VllmHcu.Lib.Scatter
import VllmHcu.Lib.Run
import Mathlib.Algebra.GroupWithZero.Nat

/-!
# The host mirror of `num_computed_tokens`

The device counts a request's computed tokens in a slot. The host repeats the
two places that change the count: `add_requests` sets it, and a sampled batch
adds its query lengths less the rejected drafts. The second is recorded when the
batch is sampled and applied at the next metadata build, when slots may already
have gone to other requests.
-/

namespace VllmHcu.Runner

/-- `np.diff` -/
def npDiff : List Int → List Int
  | a :: b :: l => (b - a) :: npDiff (b :: l)
  | _ => []

structure InputBatch where
  /-- the object, for `is` -/
  object : Nat
  idxMapping : List Nat
  queryStartLoc : List Int
  numReqsAfterPadding : Nat
  numDraftTokens : Nat
  /-- on the device, filled by `prepare_inputs` -/
  seqLens : List Int
  seqLensCpu : Option (List Int)
  numComputedTokensCpu : Option (List Int)

def InputBatch.numReqs (b : InputBatch) : Nat := b.idxMapping.length

def InputBatch.queryLens (b : InputBatch) : List Int := npDiff (b.queryStartLoc.take (b.numReqs + 1))

/-- The `_hsl_` fields of the runner. -/
structure HostMirror where
  exact : Nat → Int
  fresh : Nat → Bool
  rejected : Nat → Int
  pending : Option (List Nat × List Int × Bool)
  batch : Option Nat

namespace HostMirror

def init : HostMirror := ⟨fun _ => 0, fun _ => false, fun _ => 0, none, none⟩

/-- `values[idx] += delta` -/
def addAt (values : Nat → Int) (ps : List (Nat × Int)) : Nat → Int :=
  scatter values (ps.map fun p => (p.1, values p.1 + p.2))

/-- The deltas of a pending correction, with the pinned rejected counts taken off. -/
def deltas (m : HostMirror) (idx : List Nat) (delta : List Int) (hasRejected : Bool) : List Int :=
  if hasRejected then List.zipWith (· - ·) delta ((List.range idx.length).map m.rejected) else delta

def resolve (m : HostMirror) : HostMirror :=
  match m.pending with
  | none => { m with fresh := fun _ => false }
  | some (idx, delta, hasRejected) =>
    let keep := (idx.zip (m.deltas idx delta hasRejected)).filter fun p => !m.fresh p.1
    { m with exact := addAt m.exact keep, pending := none, fresh := fun _ => false }

def record (m : HostMirror) (b : InputBatch) (numRejected : Option (List Int)) : HostMirror :=
  let m := m.resolve
  let hasRejected := decide (b.numDraftTokens > 0) && numRejected.isSome
  { m with
    rejected := if hasRejected then writeSlice m.rejected 0 ((numRejected.getD []).take b.numReqs) else m.rejected
    pending := some (b.idxMapping, b.queryLens, hasRejected) }

/-- What an attachment leaves on the batch, and the rows that the check reports. -/
structure Attached where
  numComputedTokensCpu : List Int
  seqLensCpu : List Int
  reported : List Nat

/-- `check` is `_CHECK_HOST_SEQ_LENS`. -/
def attach (check : Bool) (m : HostMirror) (b : InputBatch) : HostMirror × Attached :=
  let n := b.numReqs
  let nPad := b.numReqsAfterPadding
  let padding := List.replicate (nPad - n) 0
  let computed := b.idxMapping.map m.exact
  let seqLens := List.zipWith (· + ·) computed b.queryLens ++ padding
  let ref := b.seqLens.take nPad
  if check && ref != seqLens then
    let bad := (List.range nPad).filter fun i => ref.getD i 0 ≠ seqLens.getD i 0
    let resynced := List.zipWith (· - ·) (ref.take n) b.queryLens
    ({ m with exact := scatter m.exact (b.idxMapping.zip resynced) }, ⟨resynced ++ padding, ref, bad⟩)
  else (m, ⟨computed ++ padding, seqLens, []⟩)

/-- One request of `scheduled_new_reqs`. -/
def addRequest (m : HostMirror) (reqIndex : Nat) (numComputedTokens : Int) : HostMirror :=
  { m with
    exact := Function.update m.exact reqIndex numComputedTokens
    fresh := Function.update m.fresh reqIndex true }

end HostMirror

/-! ## The runner -/

/-- An attachment beside the device values of that moment. -/
structure Attachment where
  slots : List Nat
  numComputed : Nat → Int
  seqLens : List Int
  host : HostMirror.Attached

structure RunnerState where
  /-- `req_states.req_id_to_index` -/
  reqIdToIndex : List (Nat × Nat)
  /-- `req_states.num_computed_tokens` on the device -/
  numComputed : Nat → Int
  mirror : HostMirror
  nextObject : Nat
  attached : List Attachment

/-- The two places that build attention metadata: `model_state.prepare_attn` for the full batch, the
microbatch runner's `prepare` otherwise. -/
inductive Hook
  | prepareAttn
  | ubatchPrepare

structure NewRequest where
  reqId : Nat
  /-- the slot that the base runner gives it -/
  reqIndex : Nat
  numComputedTokens : Int

structure ScheduledRow where
  reqId : Nat
  queryLen : Nat
  numDraftTokens : Nat

structure Execution where
  rows : List ScheduledRow
  numReqsAfterPadding : Nat
  hooks : List Hook
  numRejected : Option (List Nat)

/-- One call of the runner. Without an execution no token is scheduled. -/
structure Step where
  finished : List Nat
  newReqs : List NewRequest
  execution : Option Execution

/-- A sampler rejects at most the drafts of a row. -/
def Execution.wellFormed (e : Execution) : Bool :=
  decide (e.rows.map ScheduledRow.reqId).Nodup && decide (e.rows.length ≤ e.numReqsAfterPadding) &&
  match e.numRejected with
  | none => true
  | some rejected => rejected.length == e.rows.length &&
      (List.zipWith (fun k r => decide (k ≤ ScheduledRow.numDraftTokens r)) rejected e.rows).all id

namespace RunnerState

def finishRequests (s : RunnerState) (finished : List Nat) : RunnerState :=
  { s with reqIdToIndex := s.reqIdToIndex.filter fun p => p.1 ∉ finished }

/-- The base runner: a new request takes a free slot and its device count is set. -/
def addToSlot (s : RunnerState) (r : NewRequest) : Option RunnerState :=
  if r.reqId ∈ s.reqIdToIndex.map Prod.fst ∨ r.reqIndex ∈ s.reqIdToIndex.map Prod.snd then none
  else some { s with
    reqIdToIndex := (r.reqId, r.reqIndex) :: s.reqIdToIndex
    numComputed := Function.update s.numComputed r.reqIndex r.numComputedTokens }

def addRequests (s : RunnerState) (newReqs : List NewRequest) : Option RunnerState := do
  let s ← newReqs.foldlM addToSlot s
  let mirror ← newReqs.foldlM (fun m r => do
    let reqIndex ← s.reqIdToIndex.lookup r.reqId
    return m.addRequest reqIndex r.numComputedTokens) s.mirror
  return { s with mirror := mirror }

/-- `cumsum` of the scheduled tokens, from 0. -/
def startLocs (acc : Int) : List ScheduledRow → List Int
  | [] => [acc]
  | r :: rows => acc :: startLocs (acc + r.queryLen) rows

def prepareInputs (s : RunnerState) (e : Execution) : Option (RunnerState × InputBatch) := do
  let idxMapping ← e.rows.mapM fun r => s.reqIdToIndex.lookup r.reqId
  let seqLens := List.zipWith (fun slot r => s.numComputed slot + ScheduledRow.queryLen r) idxMapping e.rows
  let b : InputBatch := {
    object := s.nextObject
    idxMapping := idxMapping
    queryStartLoc := startLocs 0 e.rows
    numReqsAfterPadding := e.numReqsAfterPadding
    numDraftTokens := (e.rows.map ScheduledRow.numDraftTokens).sum
    seqLens := seqLens ++ List.replicate (e.numReqsAfterPadding - idxMapping.length) 0
    seqLensCpu := none
    numComputedTokensCpu := none }
  return ({ s with mirror := { s.mirror with batch := some b.object }, nextObject := s.nextObject + 1 }, b)

/-- Either hook: the batch of the mirror is resolved and attached once. -/
def buildMetadata (check : Bool) (s : RunnerState) (b : InputBatch) (_ : Hook) : RunnerState × InputBatch :=
  if s.mirror.batch = some b.object ∧ b.seqLensCpu = none then
    let (mirror, host) := s.mirror.resolve.attach check b
    ({ s with mirror := mirror, attached := s.attached ++ [⟨b.idxMapping, s.numComputed, b.seqLens, host⟩] },
      { b with seqLensCpu := some host.seqLensCpu, numComputedTokensCpu := some host.numComputedTokensCpu })
  else (s, b)

/-- `post_update` on the device: `+= query_len - num_rejected`. -/
def postUpdate (numComputed : Nat → Int) (b : InputBatch) (numRejected : Option (List Int)) : Nat → Int :=
  let deltas := match numRejected with
    | none => b.queryLens
    | some rejected => List.zipWith (· - ·) b.queryLens rejected
  HostMirror.addAt numComputed (b.idxMapping.zip deltas)

def sample (s : RunnerState) (b : InputBatch) (numRejected : Option (List Int)) : RunnerState :=
  let mirror :=
    if s.mirror.batch = some b.object then { s.mirror with batch := none }.record b numRejected else s.mirror
  { s with mirror := mirror, numComputed := postUpdate s.numComputed b numRejected }

def execute (check : Bool) (s : RunnerState) (e : Execution) : Option RunnerState := do
  guard e.wellFormed
  let (s, b) ← s.prepareInputs e
  let (s, b) := e.hooks.foldl (fun p hook => p.1.buildMetadata check p.2 hook) (s, b)
  return s.sample b (e.numRejected.map fun l => l.map Int.ofNat)

def step (check : Bool) (s : RunnerState) (st : Step) : Option RunnerState := do
  let s ← (s.finishRequests st.finished).addRequests st.newReqs
  match st.execution with
  | none => return s
  | some e => s.execute check e

def init (numComputed : Nat → Int) : RunnerState := ⟨[], numComputed, HostMirror.init, 0, []⟩

end RunnerState

end VllmHcu.Runner
