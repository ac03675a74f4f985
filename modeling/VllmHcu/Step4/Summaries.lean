import VllmHcu.Step4.Schedule

/-!
# The summary update of one layer

Every region that closes is compressed from a buffer that joins the head kept in
a pending row with the tokens of this step. What does not fill a region, and the
regions a rollback may reopen, go back to pending rows. `updateSummaries` is one
layer's update; the schedule it follows is the same for all layers.
-/

namespace VllmHcu.Step4

/-- The tensors of one layer: a token carries its key and gate values. -/
structure LayerTensors (κ σ : Type) where
  pending : Nat × Nat → κ
  summary : Nat → σ

section
variable {κ σ : Type} (g : Step4DSAGeometry) (zero : κ) (compress : List κ → σ)

/-- `csa_compress_regions` on the region that starts at `start`, of which `count` tokens count. -/
def compressAt (buffer : Nat → κ) (start count : Nat) : σ :=
  compress ((List.range count).map fun i => buffer (start + i))

/-- The writes `pending[row, :len(vals)] = vals`. -/
def rowWrites (row : Nat) (vals : List κ) : List ((Nat × Nat) × κ) :=
  vals.zipIdx.map fun p => ((row, p.2), p.1)

/-! ## The chunk-shaped update -/

def generalBuffer (sched : GeneralSchedule) (pending : Nat × Nat → κ) (index : Nat → κ) : Nat → κ :=
  sched.requests.foldl (fun buffer plan =>
    let buffer := writeSlice buffer plan.bufStart
      ((List.range plan.head).map fun i => pending (plan.pendingRowIn.getD 0, i))
    writeSlice buffer (plan.bufStart + plan.head)
      ((List.range plan.qlen).map fun i => index (plan.tokStart + i))) fun _ => zero

def generalWrites (buffer : Nat → κ) (plan : RequestPlan) : List ((Nat × Nat) × κ) :=
  (plan.keepRows.flatMap fun k => rowWrites k.1 ((List.range g.regionSize).map fun i => buffer (k.2 + i))) ++
  rowWrites (plan.pendingRowOut.getD 0) ((List.range plan.tail).map fun i =>
    buffer (plan.bufStart + plan.head + plan.qlen - plan.tail + i))

def updateSummariesGeneral (sched : GeneralSchedule) (index : Nat → κ) (T : LayerTensors κ σ) :
    LayerTensors κ σ :=
  let buffer := generalBuffer zero sched T.pending index
  { summary := scatter T.summary ((sched.regions.filter BufferRegion.live).map fun r =>
      (r.slot, compressAt compress buffer r.start r.count))
    pending := scatter T.pending (sched.requests.flatMap (generalWrites g buffer)) }

/-! ## One token per row -/

/-- The buffer of a decode step, by row and position: the head, the token scattered in after it. -/
def decodeBuffer (sched : DecodeSchedule) (pending : Nat × Nat → κ) (index : Nat → κ) (r i : Nat) : κ :=
  if i = sched.head r then index r
  else if i < sched.head r then pending (sched.pendingIn r, i)
  else zero

def updateSummariesDecode (sched : DecodeSchedule) (index : Nat → κ) (T : LayerTensors κ σ) :
    LayerTensors κ σ :=
  let buffer := decodeBuffer zero sched T.pending index
  let rows := List.range sched.numDecodes
  { summary := scatter T.summary ((rows.filter sched.live).map fun r =>
      -- a live row has a slot
      ((sched.slots r).getD 0, compressAt compress (buffer r) 0 (sched.counts r)))
    pending := scatter T.pending (rows.flatMap fun r =>
      rowWrites (sched.pendingOut r) ((List.range g.regionSize).map fun i =>
        if i < sched.tail r then buffer r i else T.pending (sched.pendingOut r, i))) }

/-! ## Up to `spec_query_len` tokens per row -/

/-- The buffer of a verify step: `nrm` regions a row, the heads first, then `index_copy_`. -/
def specBuffer (sched : SpecSchedule) (pending : Nat × Nat → κ) (index : Nat → κ) : Nat → κ :=
  let span := sched.nrm * g.regionSize
  let heads := fun x =>
    if x < sched.numDecodes * span ∧ x % span < g.regionSize ∧ x % span < sched.head (x / span) then
      pending (sched.pendingIn (x / span), x % span)
    else zero
  scatter heads ((List.range sched.numTokens).map fun t => (sched.tokBuf t, index t))

def updateSummariesSpecUnfused (sched : SpecSchedule) (index : Nat → κ) (T : LayerTensors κ σ) :
    LayerTensors κ σ :=
  let buffer := specBuffer g zero sched T.pending index
  let regions := List.range (sched.numDecodes * sched.nrm)
  let region := fun r => (List.range g.regionSize).map fun i => buffer (r * g.regionSize + i)
  { summary := scatter T.summary ((regions.filter sched.live).map fun r =>
      (sched.slots r, compressAt compress buffer (r * g.regionSize) (sched.counts r)))
    pending := scatter
      (scatter T.pending ((List.range sched.numDecodes).flatMap fun r =>
        rowWrites (sched.pendingOut r) ((List.range g.regionSize).map fun i =>
          if i < sched.tail r then buffer (sched.tailReg r * g.regionSize + i)
          else T.pending (sched.pendingOut r, i))))
      (regions.flatMap fun r => rowWrites (sched.keepRows r) (region r)) }

/-- What program `p` of the fused kernel gathers for position `i` of its region. -/
def kernelKey (sched : SpecSchedule) (pending : Nat × Nat → κ) (index : Nat → κ) (p i : Nat) : κ :=
  let req := p / sched.nrm
  let head := sched.head req
  let qStart := sched.queryStartLoc req
  let qLen := sched.queryStartLoc (req + 1) - qStart
  let off := p % sched.nrm * g.regionSize + i
  if head ≤ off ∧ off - head < qLen ∧ qStart + (off - head) < sched.numTokens then index (qStart + (off - head))
  else if off < head then pending (sched.pendingIn req, off)
  else zero

/-- One program of `_spec_summaries_kernel`, for buffer region `p`. -/
def specSummariesProgram (sched : SpecSchedule) (index : Nat → κ) (trash : Nat) (T : LayerTensors κ σ) (p : Nat) :
    LayerTensors κ σ :=
  let req := p / sched.nrm
  let key := kernelKey g zero sched T.pending index p
  let pOut := sched.pendingOut req
  let keep := sched.keepRows p
  { summary :=
      if sched.live p then
        Function.update T.summary (sched.slots p) (compressAt compress key 0 (sched.counts p))
      else T.summary
    pending := scatter T.pending (
      (if p = sched.tailReg req ∧ pOut ≠ trash then rowWrites pOut ((List.range (sched.tail req)).map key) else []) ++
      if keep ≠ trash then rowWrites keep ((List.range g.regionSize).map key) else []) }

/-- `_spec_summaries_kernel`, its programs run in order. -/
def updateSummariesSpecFused (sched : SpecSchedule) (index : Nat → κ) (trash : Nat) (T : LayerTensors κ σ) :
    LayerTensors κ σ :=
  (List.range (sched.numDecodes * sched.nrm)).foldl (specSummariesProgram g zero compress sched index trash) T

/-- `fused` is `_SPEC_FUSED_SUMMARIES`. -/
def updateSummariesSpec (fused : Bool) (sched : SpecSchedule) (index : Nat → κ) (trash : Nat)
    (T : LayerTensors κ σ) : LayerTensors κ σ :=
  if fused then updateSummariesSpecFused g zero compress sched index trash T
  else updateSummariesSpecUnfused g zero compress sched index T

def updateSummaries (fused : Bool) (index : Nat → κ) (trash : Nat) (T : LayerTensors κ σ) :
    Step4DSASchedule → LayerTensors κ σ
  | .general s => updateSummariesGeneral g zero compress s index T
  | .decode s => updateSummariesDecode g zero compress s index T
  | .spec s => updateSummariesSpec g zero compress fused s index trash T

end

/-! ## What a query scores -/

/-- How many regions the `i`-th query of `row` is scored against. The prefill selector bounds each query
by its own position; the decode and verify scorers read their `nscore` vectors. -/
def Step4DSASchedule.visible (g : Step4DSAGeometry) (row i : Nat) : Step4DSASchedule → Nat
  | .general s =>
    match s.requests.find? fun p => p.row == row with
    | some p => min p.nscore ((p.past + i) / g.regionSize)
    | none => 0
  | .decode s => s.nscore row
  | .spec s => s.tokNscore (s.queryStartLoc row + i)

end VllmHcu.Step4
