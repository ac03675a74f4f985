import VllmHcu.Pcp.Partition
import VllmHcu.Lib.Bounds

/-!
# Rank-local prefill rows

The prefill loop cuts the global query rows into chunks. `local_query_rows`
finds the rows of a chunk that the rank owns and `local_query_runs` joins them
into runs that are consecutive in the rank-local layout. `_run_local_prefill`
calls the kernel either once on gathered rows or once a run on slices of the
local tensors.
-/

namespace VllmHcu.Pcp

/-! ## Owned rows of a chunk -/

def ownedRows (segs : List BatchSegment) : List Nat :=
  segs.flatMap fun s => List.range' s.globalStart (s.globalStop - s.globalStart)

def localRows (segs : List BatchSegment) : List Nat :=
  segs.flatMap fun s => List.range' s.localStart s.numActualTokens

/-- `local_query_rows`: the rows of the chunk and their rank-local positions. The Boolean
mask is the filter on the global row. -/
def localQueryRows (segs : List BatchSegment) (start stop : Nat) : List Nat × List Nat :=
  let mask := fun row => decide (start ≤ row) && decide (row < stop)
  (((ownedRows segs).filter mask).map (· - start),
    (((ownedRows segs).zip (localRows segs)).filter fun c => mask c.1).map Prod.snd)

/-- One `(row, local, length)` triple. -/
structure QueryRun where
  row : Nat
  localRow : Nat
  length : Nat

/-- `np.flatnonzero(np.diff(local) != 1)`. -/
def breaks (rows : List Nat) : List Nat :=
  (List.range (rows.length - 1)).filter fun i => (rows.getD (i + 1) 0 : Int) - rows.getD i 0 != 1

def runBounds (rows : List Nat) : List Nat := 0 :: ((breaks rows).map (· + 1) ++ [rows.length])

def localQueryRuns (segs : List BatchSegment) (start stop : Nat) : List QueryRun :=
  let rows := (localQueryRows segs start stop).2
  let bounds := runBounds rows
  ((bounds.dropLast.zip bounds.tail).filter fun p => decide (p.2 > p.1)).map fun p =>
    ⟨p.1, rows.getD p.1 0, p.2 - p.1⟩

/-! ## Kernel calls -/

section
variable {Q I L O : Type*}

/-- The arguments of one kernel call that go by row, and the rows of the output
tensor that its results are stored to. -/
structure KernelCall (Q I L : Type*) where
  q : List Q
  indices : List I
  topkLength : List L
  output : List Nat

/-- The `(query row, indices row, length)` triples that the kernel sees. -/
def KernelCall.triples (c : KernelCall Q I L) : List (Q × I × L) := c.q.zip (c.indices.zip c.topkLength)

/-- A kernel that computes every output row from its own triple. -/
def KernelCall.run (kernel : Q → I → L → O) (c : KernelCall Q I L) (output : Nat → O) : Nat → O :=
  scatter output (c.output.zip (c.triples.map fun t => kernel t.1 t.2.1 t.2.2))

/-- One chunk of the prefill loop: `start` is the row of `root_q` where its `q` begins. -/
structure PrefillChunk (Q I L : Type*) where
  start : Nat
  rows : Nat
  q : Nat → Q
  indices : Nat → I
  topkLength : Nat → L

def selectRows {α : Type*} (x : Nat → α) (rows : List Nat) : List α := rows.map x

variable (segs : List BatchSegment) (decodeTokens : Nat)

/-- `batch.local_query_rows(start + decode_tokens, start + decode_tokens + q.shape[0])`. -/
def chunkQueryRows (c : PrefillChunk Q I L) : List Nat × List Nat :=
  localQueryRows segs (c.start + decodeTokens) (c.start + decodeTokens + c.rows)

def chunkRuns (c : PrefillChunk Q I L) : List QueryRun :=
  localQueryRuns segs (c.start + decodeTokens) (c.start + decodeTokens + c.rows)

/-- One call for each run, on slices of the local query and output. -/
def sliceCalls (localQ : Nat → Q) (c : PrefillChunk Q I L) : List (KernelCall Q I L) :=
  let indices := selectRows c.indices (chunkQueryRows segs decodeTokens c).1
  let topkLength := selectRows c.topkLength (chunkQueryRows segs decodeTokens c).1
  if (chunkQueryRows segs decodeTokens c).1.isEmpty then []
  else
    (chunkRuns segs decodeTokens c).map fun run =>
      { q := (List.range' run.localRow run.length).map localQ
        indices := sliceAt indices run.row run.length
        topkLength := sliceAt topkLength run.row run.length
        output := List.range' run.localRow run.length }

/-- One call on the gathered local query, whose output is copied to the local rows. -/
def gatherCalls (localQ : Nat → Q) (c : PrefillChunk Q I L) : List (KernelCall Q I L) :=
  let (selected, rows) := chunkQueryRows segs decodeTokens c
  if selected.isEmpty then []
  else
    [{ q := selectRows localQ rows
       indices := selectRows c.indices selected
       topkLength := selectRows c.topkLength selected
       output := rows }]

/-- Without local tensors the rows of the chunk's own query and output are used. -/
def fullCalls (c : PrefillChunk Q I L) : List (KernelCall Q I L) :=
  let selected := (chunkQueryRows segs decodeTokens c).1
  if selected.isEmpty then []
  else
    [{ q := selectRows c.q selected
       indices := selectRows c.indices selected
       topkLength := selectRows c.topkLength selected
       output := selected }]

/-- The calls made when there is a local query; `slices` is the switch with its contiguity check. -/
def localCalls (slices : Bool) (localQ : Nat → Q) (c : PrefillChunk Q I L) : List (KernelCall Q I L) :=
  if slices then sliceCalls segs decodeTokens localQ c else gatherCalls segs decodeTokens localQ c

/-- `_run_local_prefill`. `output` is the local output when there is a local query, else
the output of the chunk. -/
def runLocalPrefill (kernel : Q → I → L → O) (zero : O) (slices : Bool) (localQ : Option (Nat → Q))
    (c : PrefillChunk Q I L) (output : Nat → O) : Nat → O :=
  match localQ with
  | none => (fullCalls segs decodeTokens c).foldl (fun out call => call.run kernel out) fun _ => zero
  | some q => (localCalls segs decodeTokens slices q c).foldl (fun out call => call.run kernel out) output

/-- The chunks of a prefill loop, all writing into one local output. -/
def prefillChunks (kernel : Q → I → L → O) (zero : O) (slices : Bool) (localQ : Nat → Q)
    (chunks : List (PrefillChunk Q I L)) (output : Nat → O) : Nat → O :=
  chunks.foldl (fun out c => runLocalPrefill segs decodeTokens kernel zero slices (some localQ) c out) output

end

end VllmHcu.Pcp
