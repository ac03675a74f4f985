import VllmHcu.Step4.Forward

/-!
# The Step-4 schedules of two microbatches

Microbatch 0 builds its schedule as an unsplit step does. Microbatch 1 builds its
own on the table as it finds it, with `end_step` and `begin_step` switched off, and
hands its completed slots to the schedule of microbatch 0, where `finish_layer`
drops them.
-/

namespace VllmHcu.Dbo

open Step4

/-! ## Slices of the metadata -/

section
variable (md : Step4DSAMetadata) (cut : Nat)

def numReqs : Nat := md.numDecodes + md.numPrefills

-- `np.searchsorted` on the query starts
def requestStop (endToken : Nat) : Nat := (List.range (numReqs md + 1)).countP fun i => md.queryStartLoc i < endToken

def requestStart : Nat := ((List.range (numReqs md + 1)).countP fun i => md.queryStartLoc i ≤ cut) - 1

/-- The tokens before `cut`. The builder counts the decodes of a microbatch anew. -/
def microbatch0 (numDecodes numDecodeTokens : Nat) : Step4DSAMetadata where
  numDecodes := numDecodes
  numPrefills := requestStop md cut - numDecodes
  numDecodeTokens := numDecodeTokens
  queryStartLoc i := min (md.queryStartLoc i) cut
  seqLens i :=
    -- only the last request can have tokens past the end
    if i + 1 = requestStop md cut then md.seqLens i - (md.queryStartLoc (requestStop md cut) - cut) else md.seqLens i
  blockTable := md.blockTable
  blockTableNp := md.blockTableNp
  numPages := md.numPages

/-- The tokens from `cut` on. -/
def microbatch1 (numDecodes numDecodeTokens : Nat) : Step4DSAMetadata where
  numDecodes := numDecodes
  numPrefills := requestStop md (md.queryStartLoc (numReqs md)) - requestStart md cut - numDecodes
  numDecodeTokens := numDecodeTokens
  queryStartLoc i := md.queryStartLoc (requestStart md cut + i) - cut
  seqLens i := md.seqLens (requestStart md cut + i)
  blockTable i := md.blockTable (requestStart md cut + i)
  blockTableNp := md.blockTableNp.map fun table i => table (requestStart md cut + i)
  numPages := md.numPages

end

/-! ## Schedules -/

section
variable (g : Step4DSAGeometry)

/-- `_general_schedule` with `end_step` and `begin_step` doing nothing. -/
def secondSchedule (md : Step4DSAMetadata) (t : Step4PendingTable) : Except String (GeneralSchedule × Step4PendingTable) := do
  let (heads, t) ← protectHeads g md.generalRows t
  planRows g md (md.generalRows.zip heads) ⟨[], 0, [], []⟩ t

def withoutPrefillRows (uid : Nat) (md : Step4DSAMetadata) : String :=
  "HCU DBO: Step-4 DSA microbatch without prefill rows " ++
  s!"(ubatch {uid}, num_prefills={md.numPrefills}, " ++
  s!"num_decodes={md.numDecodes})"

/-- A step under way: the table, what `finish_layer` works on, how many microbatches have their rows, and what was
dropped, each slot with that number at the time. -/
structure StepRun where
  pending : Step4PendingTable
  completedSlots : List Nat
  layersDone : Nat
  scheduled : Nat
  dropped : List (Nat × Nat)

namespace StepRun

def endStep (r : StepRun) : StepRun :=
  { r with
    pending := Step4.endStep g r.completedSlots r.pending
    completedSlots := []
    dropped := r.dropped ++ r.completedSlots.map fun slot => (slot, r.scheduled) }

def finishLayer (numLayers : Nat) (r : StepRun) : StepRun :=
  if numLayers ≤ r.layersDone + 1 then { r with layersDone := r.layersDone + 1 }.endStep g
  else { r with layersDone := r.layersDone + 1 }

def finishLayers (numLayers : Nat) : Nat → StepRun → StepRun
  | 0, r => r
  | n + 1, r => finishLayers numLayers n (r.finishLayer g numLayers)

/-- The step a schedule starts. -/
def start (r : GeneralSchedule × Step4PendingTable) : StepRun := ⟨r.2, r.1.completedSlots, 0, 1, []⟩

/-- Microbatch 1's completed slots join those of the step's schedule. -/
def join (r : StepRun) (q : GeneralSchedule × Step4PendingTable) : StepRun :=
  { r with
    pending := q.2
    completedSlots := r.completedSlots ++ q.1.completedSlots
    scheduled := r.scheduled + 1 }

end StepRun

def schedule0 (md : Step4DSAMetadata) (completed : List Nat) (t : Step4PendingTable) :
    Except String (GeneralSchedule × Step4PendingTable) :=
  if md.numPrefills = 0 then .error (withoutPrefillRows 0 md) else generalSchedule g md completed t

def schedule1 (md : Step4DSAMetadata) (t : Step4PendingTable) : Except String (GeneralSchedule × Step4PendingTable) :=
  if md.numPrefills = 0 then .error (withoutPrefillRows 1 md) else secondSchedule g md t

variable {ι κ σ : Type} (zero : κ) (compress : List κ → σ)

/-- A split step. Microbatch 0 reaches each layer first, and has finished `ahead` of them when microbatch 1 builds its
schedule. -/
def dboStep (md₀ md₁ : Step4DSAMetadata) (cut numLayers ahead : Nat) (index : ι → Nat → κ) (s : Step4DSAState ι κ σ) :
    Except String (StepRun × (ι → LayerTensors κ σ)) := do
  let r₀ ← schedule0 g md₀ s.completedSlots s.pending
  let run := (StepRun.start r₀).finishLayers g numLayers ahead
  let r₁ ← schedule1 g md₁ run.pending
  let run := (run.join r₁).finishLayers g numLayers (2 * numLayers - ahead)
  return (run, fun l => updateSummariesGeneral g zero compress r₁.1 (fun i => index l (cut + i))
    (updateSummariesGeneral g zero compress r₀.1 (index l) (s.tensors l)))

/-! ## Reachable states -/

/-- The states that steps of at most `maxNumSeqs` requests lead to, split or not. -/
inductive Reachable (fused : Bool) (maxNumSeqs : Nat) : Step4DSAState ι κ σ → Prop
  | initial (tensors : ι → LayerTensors κ σ) : Reachable fused maxNumSeqs ⟨{ capacity := 2 * maxNumSeqs + 16 }, [], tensors⟩
  | forward {md : Step4DSAMetadata} {index : ι → Nat → κ} {s s' : Step4DSAState ι κ σ} {sched : Step4DSASchedule}
    (h : Reachable fused maxNumSeqs s) (hbatch : numReqs md ≤ maxNumSeqs)
    (hstep : forward g zero compress fused md index s = .ok (sched, s')) : Reachable fused maxNumSeqs s'
  | split {md : Step4DSAMetadata} {cut d₀ dt₀ d₁ dt₁ numLayers ahead : Nat} {index : ι → Nat → κ}
    {s : Step4DSAState ι κ σ} {run : StepRun} {tensors : ι → LayerTensors κ σ} (h : Reachable fused maxNumSeqs s)
    (hbatch : numReqs md ≤ maxNumSeqs)
    (hstep : dboStep g zero compress (microbatch0 md cut d₀ dt₀) (microbatch1 md cut d₁ dt₁) cut numLayers ahead index s =
      .ok (run, tensors)) :
    Reachable fused maxNumSeqs ⟨run.pending, run.completedSlots, tensors⟩

end

end VllmHcu.Dbo
