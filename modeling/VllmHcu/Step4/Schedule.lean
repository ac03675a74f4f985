import VllmHcu.Lib.Scatter
import VllmHcu.Step4.Pending

/-!
# The schedule of one step

Three ways to plan the same thing: which regions of each row close, where their
summaries go, and which pending rows hold the head, the tail and the regions a
rejected draft may reopen. `generalSchedule` takes any batch, `decodeSchedule`
one token per row, `specDecodeSchedule` up to `spec_query_len` tokens per row.
-/

namespace VllmHcu.Step4

/-- What the schedules read of the geometry and of `Step4DSAState`. -/
structure Step4DSAGeometry where
  regionSize : Nat
  regionsPerPage : Nat
  specQueryLen : Nat
  two_le_regionSize : 2 ≤ regionSize
  regionsPerPage_pos : 0 < regionsPerPage

/-- The metadata of a step. A vector of the batch is a function of its index; `blockTableNp` is the
host mirror, `none` when it is missing or too short, and `numPages` the width of the block table. -/
structure Step4DSAMetadata where
  numDecodes : Nat
  numPrefills : Nat
  numDecodeTokens : Nat
  queryStartLoc : Nat → Nat
  seqLens : Nat → Nat
  blockTable : Nat → Nat → Nat
  blockTableNp : Option (Nat → Nat → Nat) := none
  numPages : Nat

def Step4DSAMetadata.hostTable (md : Step4DSAMetadata) : Nat → Nat → Nat :=
  md.blockTableNp.getD md.blockTable

/-- One row of a batch, as the loops over the rows see it. -/
structure BatchRow where
  row : Nat
  tokStart : Nat
  qlen : Nat
  seqLen : Nat
  pages : Nat → Nat

namespace BatchRow

variable (g : Step4DSAGeometry) (v : BatchRow)

def past : Nat := v.seqLen - v.qlen

def head : Nat := v.past % g.regionSize

def firstRegion : Nat := v.past / g.regionSize

def nbuf : Nat := v.head g + v.qlen

def nregions : Nat := (v.nbuf g + g.regionSize - 1) / g.regionSize

def slotOf (regionId : Nat) : Nat :=
  v.pages (regionId / g.regionsPerPage) * g.regionsPerPage + regionId % g.regionsPerPage

/-- The slot of the row's `j`-th region in this step. -/
def slot (j : Nat) : Nat := v.slotOf g (v.firstRegion g + j)

def tail : Nat := v.nbuf g % g.regionSize

def lastSlot : Nat := v.slot g (v.nregions g - 1)

/-- The head's region fills up in this step. -/
def ClosesHead : Prop := v.head g ≠ 0 ∧ g.regionSize ≤ v.nbuf g

/-- The regions `for j in range(nregions)` visits before it breaks at one that is not full. -/
def closedRegions : List Nat :=
  (List.range (v.nregions g)).takeWhile fun j => g.regionSize ≤ v.nbuf g - j * g.regionSize

/-- A verify row: the regions it closes are kept for a rollback. -/
def Keeps : Prop := 1 < v.qlen ∧ v.qlen ≤ g.specQueryLen

instance : Decidable (v.ClosesHead g) := inferInstanceAs (Decidable (_ ∧ _))

instance : Decidable (v.Keeps g) := inferInstanceAs (Decidable (_ ∧ _))

end BatchRow

section
variable (g : Step4DSAGeometry)

/-! ## Loops the schedules share -/

/-- Every resumed head is read before any row is recycled. -/
def protectHeads : List BatchRow → Step4PendingTable → Except String (List (Option Nat) × Step4PendingTable)
  | [], t => .ok ([], t)
  | v :: vs, t =>
    if v.qlen ≠ 0 ∧ v.head g ≠ 0 then do
      let (row, t) ← t.get (v.slot g 0)
      let (rows, t) ← protectHeads vs t
      return (some row :: rows, t)
    else do
      let (rows, t) ← protectHeads vs t
      return (none :: rows, t)

/-- The rows that keep the closed regions `js`, by region, and the slots added to `completed_slots`. -/
def keepRegions (v : BatchRow) (pendingIn : Option Nat) :
    List Nat → Step4PendingTable → Except String (List (Nat × Nat) × List Nat × Step4PendingTable)
  | [], t => .ok ([], [], t)
  | j :: js, t =>
    if j = 0 ∧ v.head g ≠ 0 then do
      -- already listed in `completed_slots`
      let (keep, done, t) ← keepRegions v pendingIn js t
      return ((j, pendingIn.getD t.capacity) :: keep, done, t)
    else do
      let (row, t) ← t.acquire (v.slot g j)
      let (keep, done, t) ← keepRegions v pendingIn js t
      return ((j, row) :: keep, v.slot g j :: done, t)

def keepRows (v : BatchRow) (pendingIn : Option Nat) (t : Step4PendingTable) :
    Except String (List (Nat × Nat) × List Nat × Step4PendingTable) :=
  if v.Keeps g then keepRegions g v pendingIn (v.closedRegions g) t else .ok ([], [], t)

/-- The row for the tokens past the last full region. -/
def tailRow (v : BatchRow) (t : Step4PendingTable) : Except String (Option Nat × Step4PendingTable) :=
  if v.tail g ≠ 0 then do
    let (row, t) ← t.acquire (v.lastSlot g)
    return (some row, t)
  else .ok (none, t)

def closedHead (v : BatchRow) : List Nat := if v.ClosesHead g then [v.slot g 0] else []

/-- `end_step` on the slots listed by the previous schedule. -/
def endStep (completed : List Nat) (t : Step4PendingTable) : Step4PendingTable :=
  completed.foldl (if 1 < g.specQueryLen then Step4PendingTable.retire else Step4PendingTable.release) t

/-! ## The chunk-shaped schedule -/

/-- A `_RequestPlan`; a pending row is `none` where the source has `-1`. -/
structure RequestPlan where
  row : Nat
  past : Nat
  qlen : Nat
  tokStart : Nat
  head : Nat
  bufStart : Nat
  pendingRowIn : Option Nat
  pendingRowOut : Option Nat
  tail : Nat
  nscore : Nat
  scoreSlots : List Nat
  keepRows : List (Nat × Nat)

/-- A region of the compression buffer: where it starts, how many tokens count, its summary slot. -/
structure BufferRegion where
  start : Nat
  count : Nat
  slot : Nat

def BufferRegion.live (r : BufferRegion) : Bool := 0 < r.count

structure GeneralSchedule where
  requests : List RequestPlan
  bufLen : Nat
  regions : List BufferRegion
  completedSlots : List Nat

def Step4DSAMetadata.generalRow (md : Step4DSAMetadata) (i : Nat) : BatchRow where
  row := i
  tokStart := md.queryStartLoc i
  qlen := md.queryStartLoc (i + 1) - md.queryStartLoc i
  seqLen := md.seqLens i
  pages := md.hostTable i

def Step4DSAMetadata.generalRows (md : Step4DSAMetadata) : List BatchRow :=
  (List.range (md.numDecodes + md.numPrefills)).map md.generalRow

/-- The summary slots a row's last query scores, read from the device table. -/
def Step4DSAMetadata.scoreSlots (md : Step4DSAMetadata) (row nscore : Nat) : List Nat :=
  (List.range nscore).map fun i =>
    md.blockTable row (i / g.regionsPerPage) * g.regionsPerPage + i % g.regionsPerPage

def bufferRegions (v : BatchRow) (bufOff : Nat) : List BufferRegion :=
  (List.range (v.nregions g)).map fun j =>
    let filled := min g.regionSize (v.nbuf g - j * g.regionSize)
    { start := bufOff + j * g.regionSize
      count := if filled = g.regionSize then g.regionSize else 0
      slot := v.slot g j }

/-- The second loop of `_general_schedule`, over the rows and their heads. -/
def planRows (md : Step4DSAMetadata) :
    List (BatchRow × Option Nat) → GeneralSchedule → Step4PendingTable →
    Except String (GeneralSchedule × Step4PendingTable)
  | [], sched, t => .ok (sched, t)
  | (v, pendingIn) :: rows, sched, t =>
    if v.qlen = 0 then planRows md rows sched t
    else do
      let bufOff := sched.bufLen
      let (pendingOut, t) ← tailRow g v t
      let (keep, done, t) ← keepRows g v pendingIn t
      let nscore := (v.past + v.qlen - 1) / g.regionSize
      let plan : RequestPlan := {
        row := v.row
        past := v.past
        qlen := v.qlen
        tokStart := v.tokStart
        head := v.head g
        bufStart := bufOff
        pendingRowIn := pendingIn
        pendingRowOut := pendingOut
        tail := v.tail g
        nscore := nscore
        scoreSlots := md.scoreSlots g v.row nscore
        keepRows := keep.map fun k => (k.2, bufOff + k.1 * g.regionSize) }
      planRows md rows {
        requests := sched.requests ++ [plan]
        bufLen := bufOff + v.nbuf g
        regions := sched.regions ++ bufferRegions g v bufOff
        completedSlots := sched.completedSlots ++ closedHead g v ++ done } t

def generalSchedule (md : Step4DSAMetadata) (completed : List Nat) (t : Step4PendingTable) :
    Except String (GeneralSchedule × Step4PendingTable) := do
  let t := (endStep g completed t).beginStep
  let (heads, t) ← protectHeads g md.generalRows t
  planRows g md (md.generalRows.zip heads) ⟨[], 0, [], []⟩ t

/-! ## One token per row -/

/-- The vectors of `_decode_schedule`, by row; a slot is `none` where the source has `-1`. -/
structure DecodeSchedule where
  numDecodes : Nat
  counts : Nat → Nat
  slots : Nat → Option Nat
  live : Nat → Bool
  head : Nat → Nat
  tail : Nat → Nat
  nscore : Nat → Nat
  pendingIn : Nat → Nat
  pendingOut : Nat → Nat
  completedSlots : List Nat

/-- Row `i` of a decode batch under the given copy of the block table. -/
def Step4DSAMetadata.decodeRow (md : Step4DSAMetadata) (table : Nat → Nat → Nat) (i : Nat) : BatchRow where
  row := i
  tokStart := i
  qlen := 1
  seqLen := md.seqLens i
  pages := table i

/-- `(seq_len > 0) & (page > 0)`: the row is not padding. -/
def BatchRow.Real (v : BatchRow) : Prop := 0 < v.seqLen ∧ 0 < v.pages (v.firstRegion g / g.regionsPerPage)

instance (v : BatchRow) : Decidable (v.Real g) := inferInstanceAs (Decidable (_ ∧ _))

/-- The rows `_decode_slots_host` gives a slot. -/
def Step4DSAMetadata.decodeRows (md : Step4DSAMetadata) : List BatchRow :=
  ((List.range md.numDecodes).map (md.decodeRow md.hostTable)).filter fun v => v.Real g

/-- The second host loop of `_decode_schedule`: the rows given to the tails, and the closed slots. -/
def decodeTails : List BatchRow → Step4PendingTable →
    Except String (List (Nat × Nat) × List Nat × Step4PendingTable)
  | [], t => .ok ([], [], t)
  | v :: vs, t =>
    if v.head g = g.regionSize - 1 then do
      let (rowsOut, done, t) ← decodeTails vs t
      return (rowsOut, v.slot g 0 :: done, t)
    else do
      let (row, t) ← t.acquire (v.slot g 0)
      let (rowsOut, done, t) ← decodeTails vs t
      return ((v.row, row) :: rowsOut, done, t)

/-- The entries of `rows_in`. -/
def headEntries (rows : List BatchRow) (heads : List (Option Nat)) : List (Nat × Nat) :=
  (rows.zip heads).filterMap fun p => p.2.map fun row => (p.1.row, row)

def decodeSchedule (md : Step4DSAMetadata) (completed : List Nat) (t : Step4PendingTable) :
    Except String (DecodeSchedule × Step4PendingTable) := do
  let trash := t.capacity
  -- the device half, from the device copy of the block table
  let dev := md.decodeRow md.blockTable
  let real := fun r => decide ((dev r).Real g)
  let closes := fun r => real r && decide ((dev r).head g = g.regionSize - 1)
  let head := fun r => if real r then (dev r).head g else 0
  -- the host half, from the mirror
  let t := (endStep g completed t).beginStep
  let (heads, t) ← protectHeads g (md.decodeRows g) t
  let (rowsOut, done, t) ← decodeTails g (md.decodeRows g) t
  return ({
    numDecodes := md.numDecodes
    counts := fun r => if closes r then g.regionSize else 0
    slots := fun r => if real r then some ((dev r).slot g 0) else none
    live := closes
    head := head
    tail := fun r => if closes r then 0 else head r + if real r then 1 else 0
    nscore := fun r => if real r then (dev r).firstRegion g else 0
    pendingIn := scatter (fun _ => trash) (headEntries (md.decodeRows g) heads)
    pendingOut := scatter (fun _ => trash) rowsOut
    completedSlots := done }, t)

/-! ## Up to `spec_query_len` tokens per row -/

/-- The vectors of `_spec_decode_schedule`: by row, by region `row * nrm + j`, by token. -/
structure SpecSchedule where
  numDecodes : Nat
  numTokens : Nat
  nrm : Nat
  head : Nat → Nat
  tail : Nat → Nat
  pendingIn : Nat → Nat
  pendingOut : Nat → Nat
  tailReg : Nat → Nat
  counts : Nat → Nat
  slots : Nat → Nat
  live : Nat → Bool
  keepRows : Nat → Nat
  tokBuf : Nat → Nat
  tokSeq : Nat → Nat
  tokNscore : Nat → Nat
  queryStartLoc : Nat → Nat
  completedSlots : List Nat

/-- `nrm = ceil((region - 1 + q_max) / region)`. -/
def Step4DSAGeometry.nrm : Nat :=
  (g.regionSize - 1 + max g.specQueryLen 1 + g.regionSize - 1) / g.regionSize

/-- The rows of a verify batch, padding included; `query_start_loc` differences are clamped at 0. -/
def Step4DSAMetadata.verifyRows (md : Step4DSAMetadata) : List BatchRow :=
  (List.range md.numDecodes).map md.generalRow

/-- The mask `alive`. -/
def BatchRow.Alive (numPages : Nat) (v : BatchRow) : Prop :=
  0 < v.qlen ∧ 0 < v.seqLen ∧ v.qlen ≤ v.seqLen ∧
    0 < v.pages (min (v.firstRegion g / g.regionsPerPage) (numPages - 1))

instance (numPages : Nat) (v : BatchRow) : Decidable (v.Alive g numPages) :=
  inferInstanceAs (Decidable (_ ∧ _))

def Step4DSAMetadata.aliveRows (md : Step4DSAMetadata) : List BatchRow :=
  md.verifyRows.filter fun v => v.Alive g md.numPages

/-- What the host loop writes for one alive row. -/
structure SpecPlan where
  row : BatchRow
  pendingIn : Option Nat
  keep : List (Nat × Nat)
  pendingOut : Option Nat

def specPlans : List (BatchRow × Option Nat) → Step4PendingTable →
    Except String (List SpecPlan × List Nat × Step4PendingTable)
  | [], t => .ok ([], [], t)
  | (v, pendingIn) :: rows, t => do
    let (keep, done, t) ← keepRows g v pendingIn t
    let (pendingOut, t) ← tailRow g v t
    let (plans, completed, t) ← specPlans rows t
    return (⟨v, pendingIn, keep, pendingOut⟩ :: plans, closedHead g v ++ done ++ completed, t)

def verifyTooLong (longest qMax : Nat) : String :=
  s!"Step-4 DSA: a verify row has {longest} query tokens, " ++
  s!"more than spec_query_len = {qMax}."

/-- The tokens of a batch: `(t, row, i)` for the `i`-th token of a row. -/
def batchTokens (rows : List BatchRow) : List (Nat × BatchRow × Nat) :=
  rows.flatMap fun v => (List.range v.qlen).map fun i => (v.tokStart + i, v, i)

/-- The regions of a row that are full after this step. -/
def BatchRow.fullRegions (v : BatchRow) : List Nat :=
  (List.range (v.nregions g)).filter fun j => (j + 1) * g.regionSize ≤ v.nbuf g

def specVectors (md : Step4DSAMetadata) (trash : Nat) (plans : List SpecPlan) (completed : List Nat) :
    SpecSchedule :=
  let nrm := g.nrm
  let span := nrm * g.regionSize
  let alive := fun v : BatchRow => v.Alive g md.numPages
  let tokens := batchTokens md.verifyRows
  { numDecodes := md.numDecodes
    numTokens := md.numDecodeTokens
    nrm := nrm
    head := scatter (fun _ => 0) (plans.map fun p => (p.row.row, p.row.head g))
    tail := scatter (fun _ => 0) (plans.map fun p => (p.row.row, p.row.tail g))
    pendingIn := scatter (fun _ => trash) (plans.filterMap fun p => p.pendingIn.map (p.row.row, ·))
    pendingOut := scatter (fun _ => trash) (plans.filterMap fun p => p.pendingOut.map (p.row.row, ·))
    tailReg := scatter (fun r => r * nrm)
      (plans.map fun p => (p.row.row, p.row.row * nrm + p.row.nregions g - 1))
    counts := scatter (fun _ => 0) (plans.flatMap fun p =>
      (p.row.fullRegions g).map fun j => (p.row.row * nrm + j, g.regionSize))
    slots := scatter (fun _ => 0) (plans.flatMap fun p =>
      (List.range (p.row.nregions g)).map fun j => (p.row.row * nrm + j, p.row.slot g j))
    live := scatter (fun _ => false) (plans.flatMap fun p =>
      (p.row.fullRegions g).map fun j => (p.row.row * nrm + j, true))
    keepRows := scatter (fun _ => trash) (plans.flatMap fun p =>
      p.keep.map fun k => (p.row.row * nrm + k.1, k.2))
    tokBuf := scatter (fun t => md.numDecodes * nrm * g.regionSize + t)
      (tokens.map fun k => (k.1, k.2.1.row * span + (if alive k.2.1 then k.2.1.head g else 0) + k.2.2))
    tokSeq := scatter (fun _ => 0)
      (tokens.map fun k => (k.1, if alive k.2.1 then k.2.1.past + k.2.2 + 1 else 0))
    tokNscore := scatter (fun _ => 0)
      (tokens.map fun k => (k.1, if alive k.2.1 then (k.2.1.past + k.2.2) / g.regionSize else 0))
    queryStartLoc := md.queryStartLoc
    completedSlots := completed }

def specDecodeSchedule (md : Step4DSAMetadata) (completed : List Nat) (t : Step4PendingTable) :
    Except String (SpecSchedule × Step4PendingTable) := do
  let trash := t.capacity
  let qMax := max g.specQueryLen 1
  let longest := (md.verifyRows.map (·.qlen)).foldl max 0
  if qMax < longest then .error (verifyTooLong longest qMax)
  else do
    let t := (endStep g completed t).beginStep
    let (heads, t) ← protectHeads g (md.aliveRows g) t
    let (plans, completed, t) ← specPlans g ((md.aliveRows g).zip heads) t
    return (specVectors g md trash plans completed, t)

/-! ## Dispatch -/

inductive Step4DSASchedule
  | general (s : GeneralSchedule)
  | decode (s : DecodeSchedule)
  | spec (s : SpecSchedule)

def Step4DSASchedule.completedSlots : Step4DSASchedule → List Nat
  | .general s => s.completedSlots
  | .decode s => s.completedSlots
  | .spec s => s.completedSlots

def schedule (md : Step4DSAMetadata) (completed : List Nat) (t : Step4PendingTable) :
    Except String (Step4DSASchedule × Step4PendingTable) :=
  if md.numPrefills = 0 ∧ md.numDecodes < md.numDecodeTokens then
    (specDecodeSchedule g md completed t).map fun p => (.spec p.1, p.2)
  else if md.numPrefills = 0 ∧ 0 < md.numDecodes then
    (decodeSchedule g md completed t).map fun p => (.decode p.1, p.2)
  else
    (generalSchedule g md completed t).map fun p => (.general p.1, p.2)

end

end VllmHcu.Step4
