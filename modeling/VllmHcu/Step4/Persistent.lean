import VllmHcu.Lib.Packing
import VllmHcu.Lib.Result
import VllmHcu.Lib.Staging
import VllmHcu.Step4.Summaries

/-!
# Schedules in persistent buffers

A captured graph replays the addresses it recorded, so with `persistent` the decode
and the verify schedule land in buffers that are allocated once. Their host vectors
go through a ring of staging buffers with an event per slot. A replay may read a
wider view than the batch that was scheduled last.
-/

namespace VllmHcu.Step4

open Staging

/-- `_STAGING_DEPTH`. -/
def stagingDepth : Nat := 4

/-- A slot of `_host["pending_in"]`, of `_host["pending_out"]` or of `_spec_host`. -/
inductive StagingBuffer
  | pendingIn (stage : Nat)
  | pendingOut (stage : Nat)
  | spec (stage : Nat)
deriving DecidableEq

/-- A slot of `_stage_ev` or of `_spec_ev`. -/
inductive StagingEvent
  | decode (stage : Nat)
  | spec (stage : Nat)
deriving DecidableEq

def StagingBuffer.event : StagingBuffer → StagingEvent
  | .pendingIn stage => .decode stage
  | .pendingOut stage => .decode stage
  | .spec stage => .spec stage

/-- The vectors of `_buf`, the constant `starts` apart; a slot is `none` where the source has `-1`. -/
structure DecodeBuffers where
  counts : Nat → Nat
  slots : Nat → Option Nat
  live : Nat → Bool
  head : Nat → Nat
  tail : Nat → Nat
  nscore : Nat → Nat
  pendingIn : Nat → Nat
  pendingOut : Nat → Nat

/-- `_spec_raw`, `_spec_i32` and `_spec_table`. -/
structure SpecBuffers where
  raw : Nat → Nat
  counts : Nat → Nat
  tokSeq : Nat → Nat
  tokNscore : Nat → Nat
  table : Nat → Nat → Nat

/-- The device, with what each replay of a graph has found in the buffers. -/
structure GraphDevice where
  decode : DecodeBuffers
  spec : SpecBuffers
  replayed : List (DecodeBuffers × SpecBuffers)

abbrev GraphOp := HostOp StagingBuffer StagingEvent (Nat → Nat) GraphDevice

/-- What stays fixed: `max_num_reqs`, `num_kv_groups`, whether host memory is pinned, and
`_HOT_CONTEXT_EAGER_FALLBACK`. -/
structure GraphLimits where
  maxNumReqs : Nat
  numKvGroups : Nat
  pinned : Bool
  hotContextEagerFallback : Bool

/-- `specPages` is the width of `_spec_table`, `none` before it is allocated. -/
structure GraphState where
  pending : Step4PendingTable
  completedSlots : List Nat
  graphRegions : Nat
  stage : Nat
  specStage : Nat
  specPages : Option Nat

/-! ## The packed verify schedule -/

inductive SpecField
  | head | tail | pendingIn | pendingOut | tailReg
  | counts | slots | live | keepRows
  | tokBuf | tokReq | tokSeq | tokNscore
deriving DecidableEq

/-- The order of the fields in `_spec_fields`. -/
def SpecField.all : List SpecField :=
  [.head, .tail, .pendingIn, .pendingOut, .tailReg, .counts, .slots, .live, .keepRows, .tokBuf, .tokReq, .tokSeq,
    .tokNscore]

section
variable (g : Step4DSAGeometry) (limits : GraphLimits)

/-- `max_num_reqs * q_max`. -/
def maxTokens : Nat := limits.maxNumReqs * max g.specQueryLen 1

def SpecField.size : SpecField → Nat
  | .head | .tail | .pendingIn | .pendingOut | .tailReg => limits.maxNumReqs
  | .counts | .slots | .live | .keepRows => limits.maxNumReqs * g.nrm
  | .tokBuf | .tokReq | .tokSeq | .tokNscore => maxTokens g limits

/-- The offset of a field. -/
def SpecField.start (f : SpecField) : Nat := Packing.base (fun _ => 1) (SpecField.size g limits) SpecField.all f

/-- What the host vector holds of each field over its whole capacity. -/
def SpecSchedule.field (md : Step4DSAMetadata) (sched : SpecSchedule) : SpecField → Nat → Nat
  | .head => sched.head
  | .tail => sched.tail
  | .pendingIn => sched.pendingIn
  | .pendingOut => sched.pendingOut
  | .tailReg => fun r => if r < sched.numDecodes then sched.tailReg r else 0
  | .counts => sched.counts
  | .slots => sched.slots
  | .live => fun p => (sched.live p).toNat
  | .keepRows => sched.keepRows
  | .tokBuf => sched.tokBuf
  | .tokReq => scatter (fun _ => 0) ((batchTokens md.verifyRows).map fun k => (k.1, k.2.1.row))
  | .tokSeq => sched.tokSeq
  | .tokNscore => sched.tokNscore

/-- The vector `h`. -/
def specHost (md : Step4DSAMetadata) (sched : SpecSchedule) : Nat → Nat :=
  scatter (fun _ => 0) (SpecField.all.flatMap fun f =>
    (List.range (f.size g limits)).map fun i => (f.start g limits + i, sched.field md f i))

/-! ## Landing a schedule -/

/-- `dst[n:].fill_(fill)` and `dst[:n].copy_(value)` on a vector of `size` entries. -/
def fillOut {α : Type} (size n : Nat) (fill : α) (value dst : Nat → α) : Nat → α :=
  let dst := fun i => if n ≤ i ∧ i < size then fill else dst i
  fun i => if i < n then value i else dst i

def onDecode (f : DecodeBuffers → DecodeBuffers) : GraphOp := .enqueue (.launch fun b => { b with decode := f b.decode })

def onSpec (f : SpecBuffers → SpecBuffers) : GraphOp := .enqueue (.launch fun b => { b with spec := f b.spec })

/-- A copy from a staging buffer; without pinned memory it blocks. -/
def upload (b : StagingBuffer) (land : (Nat → Nat) → GraphDevice → GraphDevice) : List GraphOp :=
  .enqueue (.copy b land) :: if limits.pinned then [] else [.finish]

/-- The calls of `out` in `_decode_schedule`. -/
def decodeOut (sched : DecodeSchedule) : List GraphOp :=
  let size := limits.maxNumReqs
  let nd := sched.numDecodes
  [onDecode fun b => { b with counts := fillOut size nd 0 sched.counts b.counts },
   onDecode fun b => { b with slots := fillOut size nd none sched.slots b.slots },
   onDecode fun b => { b with live := fillOut size nd false sched.live b.live },
   onDecode fun b => { b with head := fillOut size nd 0 sched.head b.head },
   onDecode fun b => { b with tail := fillOut size nd 0 sched.tail b.tail },
   onDecode fun b => { b with nscore := fillOut size nd 0 sched.nscore b.nscore }]

def decodeOps (trash stage : Nat) (sched : DecodeSchedule) : List GraphOp :=
  let nd := sched.numDecodes
  decodeOut limits sched ++
  (if limits.pinned then [.synchronize (.decode stage)] else []) ++
  [.write (.pendingIn stage) fun i => if i < nd then sched.pendingIn i else trash,
   .write (.pendingOut stage) fun i => if i < nd then sched.pendingOut i else trash] ++
  upload limits (.pendingIn stage) (fun v b => { b with decode := { b.decode with pendingIn := v } }) ++
  upload limits (.pendingOut stage) (fun v b => { b with decode := { b.decode with pendingOut := v } }) ++
  if limits.pinned then [.record (.decode stage)] else []

/-- `dev_i32` and the block-table rows of the tokens. -/
def specOut (md : Step4DSAMetadata) (sched : SpecSchedule) : List GraphOp :=
  let regions := sched.numDecodes * sched.nrm
  let ndt := sched.numTokens
  let dev := fun (b : SpecBuffers) (f : SpecField) i => b.raw (f.start g limits + i)
  [onSpec fun b => { b with counts := fillOut (limits.maxNumReqs * g.nrm) regions 0 (dev b .counts) b.counts },
   onSpec fun b => { b with tokSeq := fillOut (maxTokens g limits) ndt 0 (dev b .tokSeq) b.tokSeq },
   onSpec fun b => { b with tokNscore := fillOut (maxTokens g limits) ndt 0 (dev b .tokNscore) b.tokNscore },
   onSpec fun b => { b with
    table := fillOut (maxTokens g limits) ndt (fun _ => 0) (fun t => md.blockTable (dev b .tokReq t)) b.table }]

def specOps (md : Step4DSAMetadata) (stage : Nat) (sched : SpecSchedule) : List GraphOp :=
  (if limits.pinned then [.synchronize (.spec stage)] else []) ++
  [.write (.spec stage) (specHost g limits md sched)] ++
  upload limits (.spec stage) (fun v b => { b with spec := { b.spec with raw := v } }) ++
  (if limits.pinned then [.record (.spec stage)] else []) ++
  specOut g limits md sched

/-- The buffers that `_ensure_spec_buffers` allocates, their events recorded once. -/
def allocateSpec : List GraphOp :=
  onSpec (fun _ => ⟨fun _ => 0, fun _ => 0, fun _ => 0, fun _ => 0, fun _ _ => 0⟩) ::
    if limits.pinned then (List.range stagingDepth).map fun stage => .record (.spec stage) else []

/-! ## The persistent calls -/

def decodeTooLarge (nd maxNumReqs : Nat) : String :=
  s!"Step-4 DSA: decode batch of {nd} exceeds max_num_reqs " ++
  s!"{maxNumReqs}; the persistent schedule buffers are sized " ++
  "from the scheduler's own limit, so this should be unreachable."

def verifyTooLarge (nd ndt maxNumReqs qMax : Nat) : String :=
  s!"Step-4 DSA: verify batch of {nd} requests / {ndt} tokens " ++
  s!"exceeds the persistent buffers ({maxNumReqs} x {qMax})."

def tooWide (widest graphRegions : Nat) : String :=
  s!"Step-4 DSA: a request needs {widest} region scores but the " ++
  s!"captured decode width is {graphRegions}. Raise " ++
  "VLLM_STEP4_DSA_GRAPH_REGIONS or --max-model-len; the width " ++
  "is a graph constant and cannot be grown per step."

def scorePoolTooSmall (ndt scoreRows : Nat) : String :=
  s!"Step-4 DSA: {ndt} verify rows overflow the score pool " ++
  s!"({scoreRows} group-major rows)."

def tableWidthChanged (allocated pages : Nat) : String :=
  "Step-4 DSA: block table width changed from " ++
  s!"{allocated} to {pages} pages after the " ++
  "verify schedule buffers were allocated; captured graphs " ++
  "still point at the old ones."

def unallocatedAtCapture : String :=
  "Step-4 DSA: verify schedule buffers are still unallocated at CUDA " ++
  "graph capture time; the capture warmup must build one eagerly."

/-- `_trim_graph_width`. -/
def trimmedWidth (md : Step4DSAMetadata) (s : GraphState) : Nat := min s.graphRegions (md.numPages * g.regionsPerPage)

def persistentDecodeSchedule (md : Step4DSAMetadata) (s : GraphState) :
    Except String (DecodeSchedule × List GraphOp × GraphState) := do
  ensure (md.numDecodes ≤ limits.maxNumReqs) (decodeTooLarge md.numDecodes limits.maxNumReqs)
  let graphRegions := trimmedWidth g md s
  let (sched, pending) ← decodeSchedule g md s.completedSlots s.pending
  let widest := ((md.decodeRows g).map (·.firstRegion g)).foldl max 0
  ensure (widest ≤ graphRegions ∨ limits.hotContextEagerFallback = true) (tooWide widest graphRegions)
  return (sched, decodeOps limits s.pending.capacity s.stage sched, { s with
    pending := pending
    completedSlots := sched.completedSlots
    graphRegions := graphRegions
    stage := (s.stage + 1) % stagingDepth })

def ensureSpecBuffers (md : Step4DSAMetadata) (capturing : Bool) (s : GraphState) :
    Except String (List GraphOp × GraphState) :=
  match s.specPages with
  | some pages => do
    ensure (pages = md.numPages) (tableWidthChanged pages md.numPages)
    return ([], s)
  | none => do
    ensure (capturing = false) unallocatedAtCapture
    return (allocateSpec limits, { s with specPages := some md.numPages, specStage := 0 })

def persistentSpecSchedule (md : Step4DSAMetadata) (capturing : Bool) (s : GraphState) :
    Except String (SpecSchedule × List GraphOp × GraphState) := do
  let qMax := max g.specQueryLen 1
  let longest := (md.verifyRows.map (·.qlen)).foldl max 0
  ensure (longest ≤ qMax) (verifyTooLong longest qMax)
  ensure (md.numDecodes ≤ limits.maxNumReqs ∧ md.numDecodeTokens ≤ maxTokens g limits)
    (verifyTooLarge md.numDecodes md.numDecodeTokens limits.maxNumReqs qMax)
  let graphRegions := trimmedWidth g md s
  let (allocated, s) ← ensureSpecBuffers limits md capturing s
  let (sched, pending) ← specDecodeSchedule g md s.completedSlots s.pending
  let widest := ((List.range md.numDecodeTokens).map sched.tokNscore).foldl max 0
  ensure (widest ≤ graphRegions ∨ limits.hotContextEagerFallback = true) (tooWide widest graphRegions)
  let scoreRows := limits.numKvGroups * (limits.maxNumReqs * g.specQueryLen)
  ensure (limits.numKvGroups * md.numDecodeTokens ≤ scoreRows) (scorePoolTooSmall md.numDecodeTokens scoreRows)
  return (sched, allocated ++ specOps g limits md s.specStage sched, { s with
    pending := pending
    completedSlots := sched.completedSlots
    graphRegions := graphRegions
    specStage := (s.specStage + 1) % stagingDepth })

/-- A graph replay reads the buffers when the stream gets to it. -/
def replay : GraphOp := .enqueue (.launch fun b => { b with replayed := b.replayed ++ [(b.decode, b.spec)] })

inductive GraphSchedule
  | decode (s : DecodeSchedule)
  | spec (s : SpecSchedule)

/-- A step: an eager one, whose schedule is not persistent, or one of the two persistent calls and the
replay that follows it. -/
inductive GraphCall
  | general (md : Step4DSAMetadata)
  | decode (md : Step4DSAMetadata)
  | spec (md : Step4DSAMetadata) (capturing : Bool)

def GraphCall.run (s : GraphState) : GraphCall → Except String (List GraphSchedule × List GraphOp × GraphState)
  | .general md => do
    let (sched, pending) ← generalSchedule g md s.completedSlots s.pending
    return ([], [], { s with pending := pending, completedSlots := sched.completedSlots })
  | .decode md => do
    let (sched, ops, s) ← persistentDecodeSchedule g limits md s
    return ([.decode sched], ops ++ [replay], s)
  | .spec md capturing => do
    let (sched, ops, s) ← persistentSpecSchedule g limits md capturing s
    return ([.spec sched], ops ++ [replay], s)

/-- The persistent schedules of a sequence of calls, and its host program. -/
def runCalls : List GraphCall → GraphState → Except String (List GraphSchedule × List GraphOp × GraphState)
  | [], s => .ok ([], [], s)
  | c :: cs, s => do
    let (scheds, ops, s) ← c.run g limits s
    let (scheds', ops', s) ← runCalls cs s
    return (scheds ++ scheds', ops ++ ops', s)

/-! ## What a captured graph reads -/

/-- The schedule a graph captured with `n` rows reads. -/
def DecodeBuffers.view (b : DecodeBuffers) (n : Nat) : DecodeSchedule where
  numDecodes := n
  counts := b.counts
  slots := b.slots
  live := b.live
  head := b.head
  tail := b.tail
  nscore := b.nscore
  pendingIn := b.pendingIn
  pendingOut := b.pendingOut
  completedSlots := []

/-- The schedule a graph captured with `nd` requests and `ndt` tokens reads; `query_start_loc` is a vector
of the runner. -/
def SpecBuffers.view (b : SpecBuffers) (nd ndt : Nat) (queryStartLoc : Nat → Nat) : SpecSchedule :=
  let field := fun (f : SpecField) i => b.raw (f.start g limits + i)
  { numDecodes := nd
    numTokens := ndt
    nrm := g.nrm
    head := field .head
    tail := field .tail
    pendingIn := field .pendingIn
    pendingOut := field .pendingOut
    tailReg := field .tailReg
    counts := b.counts
    slots := field .slots
    live := fun p => field .live p != 0
    keepRows := field .keepRows
    tokBuf := field .tokBuf
    tokSeq := b.tokSeq
    tokNscore := b.tokNscore
    queryStartLoc := queryStartLoc
    completedSlots := [] }

end

end VllmHcu.Step4
