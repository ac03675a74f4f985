import VllmHcu.Pcp.LocalRows
import VllmHcu.Pcp.PartitionSound
import VllmHcu.Lib.Result

/-!
# Local slices equal the gathered rows

The owned rows and their local positions are the two projections of the cells
of the rank. The bounds of the runs cut the local positions at every break, so
a run is a slice of the local layout and the slices of all runs put together
are the gathered rows. Every cell falls into one chunk of a cut.
-/

namespace VllmHcu.Pcp

/-! ## Cells of a chunk -/

theorem ownedRows_eq (segs : List BatchSegment) : ownedRows segs = (localCells segs).map Prod.snd := by
  simp only [localCells, rankCells, List.map_flatMap, segCells_snd]
  rfl

theorem localRows_eq (segs : List BatchSegment) : localRows segs = (localCells segs).map Prod.fst := by
  simp only [localCells, rankCells, List.map_flatMap, segCells_fst, Nat.zero_mul, Nat.zero_add]
  rfl

/-- The local rows whose token lies in the chunk. -/
def chunkCells (segs : List BatchSegment) (start stop : Nat) : List (Nat × Nat) :=
  (localCells segs).filter fun c => decide (start ≤ c.2) && decide (c.2 < stop)

section
variable (segs : List BatchSegment) (start stop : Nat)

theorem localQueryRows_fst :
    (localQueryRows segs start stop).1 = (chunkCells segs start stop).map fun c => c.2 - start := by
  simp only [localQueryRows, ownedRows_eq, List.filter_map, List.map_map, chunkCells]
  rfl

theorem localQueryRows_snd : (localQueryRows segs start stop).2 = (chunkCells segs start stop).map Prod.fst := by
  simp only [localQueryRows, ownedRows_eq, localRows_eq, List.zip_map', List.filter_map, List.map_map, chunkCells]
  rfl

theorem localQueryRows_length : (localQueryRows segs start stop).1.length = (localQueryRows segs start stop).2.length := by
  rw [localQueryRows_fst, localQueryRows_snd, List.length_map, List.length_map]

theorem mem_chunkCells {j t : Nat} :
    (j, t) ∈ chunkCells segs start stop ↔ (j, t) ∈ localCells segs ∧ start ≤ t ∧ t < stop := by
  simp [chunkCells]

end

/-! ## Runs -/

section
variable (rows : List Nat)

theorem mem_breaks {i : Nat} (hi : i + 1 < rows.length) : i ∈ breaks rows ↔ rows.getD (i + 1) 0 ≠ rows.getD i 0 + 1 := by
  simp only [breaks, List.mem_filter, List.mem_range, bne_iff_ne, ne_eq]
  omega

theorem runBounds_sorted : (runBounds rows).Pairwise (· ≤ ·) := by
  unfold runBounds
  have hbreaks : ((breaks rows).map (· + 1)).Pairwise (· ≤ ·) := by
    apply List.Pairwise.map
    · intro a b h
      exact h
    · exact (List.pairwise_lt_range.filter _).imp fun h => Nat.succ_le_succ (Nat.le_of_lt h)
  apply List.Pairwise.cons
  · intro x _
    exact Nat.zero_le x
  · apply List.pairwise_append.mpr
    refine ⟨hbreaks, List.pairwise_singleton _ _, ?_⟩
    intro x hx y hy
    obtain ⟨i, hi, rfl⟩ := List.mem_map.mp hx
    rw [List.mem_singleton] at hy
    subst hy
    have := List.mem_range.mp (List.mem_filter.mp hi).1
    omega

/-- The runs of a list of local rows. -/
def runsOf : List QueryRun :=
  ((intervals 0 ((breaks rows).map (· + 1) ++ [rows.length])).filter fun p => decide (p.2 > p.1)).map fun p =>
    ⟨p.1, rows.getD p.1 0, p.2 - p.1⟩

theorem localQueryRuns_eq (segs : List BatchSegment) (start stop : Nat) :
    localQueryRuns segs start stop = runsOf (localQueryRows segs start stop).2 := by
  unfold localQueryRuns runsOf runBounds
  simp only [zip_tail_eq_intervals]

/-- The slices of the runs put together give the list back. -/
theorem flatMap_runsOf {α : Type*} {xs : List α} (hlen : xs.length = rows.length) :
    ((runsOf rows).flatMap fun r => sliceAt xs r.row r.length) = xs := by
  have hcut := flatMap_intervals xs (runBounds_sorted rows)
  rw [List.getLastD_concat, Nat.sub_zero, ← hlen, sliceAt_all, hlen] at hcut
  unfold runsOf
  rw [List.flatMap_map]
  refine Eq.trans ?_ hcut
  apply flatMap_filter_of_nil (f := fun p : Nat × Nat => sliceAt xs p.1 (p.2 - p.1))
  intro p _ hp
  have hle : p.2 - p.1 = 0 := by
    simp only [gt_iff_lt, decide_eq_false_iff_not] at hp
    omega
  rw [hle, sliceAt_zero]

/-- A run is a nonempty slice of consecutive local rows. -/
theorem runsOf_consecutive {r : QueryRun} (hr : r ∈ runsOf rows) :
    0 < r.length ∧ r.row + r.length ≤ rows.length ∧
      sliceAt rows r.row r.length = List.range' r.localRow r.length := by
  obtain ⟨⟨x, y⟩, hm, rfl⟩ := List.mem_map.mp hr
  obtain ⟨hm, hlt⟩ := List.mem_filter.mp hm
  have hxy : x < y := of_decide_eq_true hlt
  have hgap : ∀ z ∈ (breaks rows).map (· + 1) ++ [rows.length], z ≤ x ∨ y ≤ z := by
    intro z hz
    exact intervals_gap (runBounds_sorted rows) hm hz
  have hy : y ≤ rows.length := intervals_le_last (runBounds_sorted rows) hm (by simp)
  dsimp only
  refine ⟨by omega, by omega, ?_⟩
  apply sliceAt_consecutive
  · rw [List.getD_eq_getElem?_getD, List.getElem?_eq_getElem (by omega)]
    rfl
  · omega
  · intro i hi hi'
    by_contra hne
    have hbreak : i ∈ breaks rows := (mem_breaks rows (by omega)).mpr hne
    have := hgap (i + 1) (List.mem_append_left _ (List.mem_map.mpr ⟨i, hbreak, rfl⟩))
    omega

theorem runsOf_tile : ((runsOf rows).flatMap fun r => List.range' r.row r.length) = List.range rows.length := by
  have hslices := flatMap_runsOf rows (@List.length_range rows.length)
  rw [← hslices]
  apply List.flatMap_congr
  intro r hr
  exact (sliceAt_range (runsOf_consecutive rows hr).2.1).symm

end

/-! ## Kernel calls -/

section
variable {Q I L O : Type*}

theorem sliceAt_triples {q : List Q} {indices : List I} {topkLength : List L} {start length : Nat} :
    (sliceAt q start length).zip ((sliceAt indices start length).zip (sliceAt topkLength start length)) =
      sliceAt (q.zip (indices.zip topkLength)) start length := by
  rw [sliceAt_zip, sliceAt_zip]

/-- Kernel calls one after another write their rows one after another. -/
theorem foldl_run (kernel : Q → I → L → O) (calls : List (KernelCall Q I L)) (output : Nat → O) :
    calls.foldl (fun out call => call.run kernel out) output =
      scatter output (calls.flatMap fun c => c.output.zip (c.triples.map fun t => kernel t.1 t.2.1 t.2.2)) :=
  foldl_scatter (fun out : Nat → O => out) _ _ (fun _ _ => rfl) calls output

variable (segs : List BatchSegment) (decodeTokens : Nat) (localQ : Nat → Q) (c : PrefillChunk Q I L)

/-- The triples of the gathered call. -/
def chunkTriples : List (Q × I × L) :=
  (selectRows localQ (chunkQueryRows segs decodeTokens c).2).zip
    ((selectRows c.indices (chunkQueryRows segs decodeTokens c).1).zip (selectRows c.topkLength (chunkQueryRows segs decodeTokens c).1))

theorem chunkTriples_length : (chunkTriples segs decodeTokens localQ c).length = (chunkQueryRows segs decodeTokens c).2.length := by
  have hlen := localQueryRows_length segs (c.start + decodeTokens) (c.start + decodeTokens + c.rows)
  simp only [chunkTriples, selectRows, List.length_zip, List.length_map, chunkQueryRows, hlen, Nat.min_self]

theorem chunkRows_isEmpty : (chunkQueryRows segs decodeTokens c).1.isEmpty = true ↔ (chunkQueryRows segs decodeTokens c).2 = [] := by
  have hlen := localQueryRows_length segs (c.start + decodeTokens) (c.start + decodeTokens + c.rows)
  rw [List.isEmpty_iff_length_eq_zero, ← List.length_eq_zero_iff]
  unfold chunkQueryRows
  rw [hlen]

theorem gatherCalls_flatMap {β : Type*} (f : KernelCall Q I L → List β)
    (hf : ∀ call : KernelCall Q I L, call.output = [] → call.triples = [] → f call = []) :
    (gatherCalls segs decodeTokens localQ c).flatMap f =
      f ⟨selectRows localQ (chunkQueryRows segs decodeTokens c).2, selectRows c.indices (chunkQueryRows segs decodeTokens c).1,
        selectRows c.topkLength (chunkQueryRows segs decodeTokens c).1, (chunkQueryRows segs decodeTokens c).2⟩ := by
  unfold gatherCalls
  by_cases he : (chunkQueryRows segs decodeTokens c).1.isEmpty = true
  · have hrows := (chunkRows_isEmpty segs decodeTokens c).mp he
    dsimp only
    rw [if_pos he, hf _ hrows]
    · rfl
    · unfold KernelCall.triples
      rw [hrows]
      rfl
  · dsimp only
    rw [if_neg he, List.flatMap_singleton]

/-- The call of one run is the slice of the gathered call at the run. -/
theorem sliceCalls_flatMap {β : Type*} (f : KernelCall Q I L → List β) {xs : List β}
    (hlen : xs.length = (chunkQueryRows segs decodeTokens c).2.length)
    (hf : ∀ call : KernelCall Q I L, ∀ r ∈ chunkRuns segs decodeTokens c,
      call.output = sliceAt (chunkQueryRows segs decodeTokens c).2 r.row r.length →
      call.triples = sliceAt (chunkTriples segs decodeTokens localQ c) r.row r.length → f call = sliceAt xs r.row r.length) :
    (sliceCalls segs decodeTokens localQ c).flatMap f = xs := by
  have hruns : chunkRuns segs decodeTokens c = runsOf (chunkQueryRows segs decodeTokens c).2 := localQueryRuns_eq ..
  unfold sliceCalls
  by_cases he : (chunkQueryRows segs decodeTokens c).1.isEmpty = true
  · dsimp only
    rw [(chunkRows_isEmpty segs decodeTokens c).mp he, List.length_nil, List.length_eq_zero_iff] at hlen
    rw [if_pos he, hlen]
    rfl
  · dsimp only
    rw [if_neg he, List.flatMap_map]
    refine Eq.trans ?_ (flatMap_runsOf _ hlen)
    rw [← hruns]
    apply List.flatMap_congr
    intro r hr
    have hlocal := (runsOf_consecutive _ (hruns ▸ hr)).2.2
    apply hf _ r hr
    · exact hlocal.symm
    · unfold KernelCall.triples chunkTriples
      dsimp only
      rw [← sliceAt_triples, ← hlocal]
      unfold selectRows
      rw [sliceAt_map localQ]

theorem localCalls_triples (slices : Bool) :
    (localCalls segs decodeTokens slices localQ c).flatMap KernelCall.triples = chunkTriples segs decodeTokens localQ c := by
  cases slices with
  | true => exact sliceCalls_flatMap segs decodeTokens localQ c _ (chunkTriples_length ..) fun _ _ _ _ ht => ht
  | false => exact gatherCalls_flatMap segs decodeTokens localQ c _ fun _ _ ht => ht

theorem localCalls_output (slices : Bool) :
    (localCalls segs decodeTokens slices localQ c).flatMap KernelCall.output = (chunkQueryRows segs decodeTokens c).2 := by
  cases slices with
  | true => exact sliceCalls_flatMap segs decodeTokens localQ c _ rfl fun _ _ _ ho _ => ho
  | false => exact gatherCalls_flatMap segs decodeTokens localQ c _ fun _ ho _ => ho

/-- Both paths store the same kernel result to the same local row. -/
theorem localCalls_writes (kernel : Q → I → L → O) (slices : Bool) :
    (localCalls segs decodeTokens slices localQ c).flatMap
        (fun call => call.output.zip (call.triples.map fun t => kernel t.1 t.2.1 t.2.2)) =
      (chunkQueryRows segs decodeTokens c).2.zip
        ((chunkTriples segs decodeTokens localQ c).map fun t => kernel t.1 t.2.1 t.2.2) := by
  cases slices with
  | true =>
    apply sliceCalls_flatMap segs decodeTokens localQ c
    · rw [List.length_zip, List.length_map, chunkTriples_length, Nat.min_self]
    · intro call r _ ho ht
      rw [ho, ht, ← sliceAt_map, sliceAt_zip]
  | false =>
    apply gatherCalls_flatMap segs decodeTokens localQ c
    intro call ho _
    rw [ho]
    rfl

theorem runLocalPrefill_slices (kernel : Q → I → L → O) (zero : O) (output : Nat → O) :
    runLocalPrefill segs decodeTokens kernel zero true (some localQ) c output =
      runLocalPrefill segs decodeTokens kernel zero false (some localQ) c output := by
  unfold runLocalPrefill
  dsimp only
  rw [foldl_run, foldl_run, localCalls_writes, localCalls_writes]

theorem prefillChunks_slices (kernel : Q → I → L → O) (zero : O) (chunks : List (PrefillChunk Q I L)) (output : Nat → O) :
    prefillChunks segs decodeTokens kernel zero true localQ chunks output =
      prefillChunks segs decodeTokens kernel zero false localQ chunks output := by
  unfold prefillChunks
  induction chunks generalizing output with
  | nil => rfl
  | cons c chunks ih => rw [List.foldl_cons, List.foldl_cons, runLocalPrefill_slices, ih]

end

/-! ## Tokens of a rank -/

theorem pair_sublist_range {a b n : Nat} (hab : a < b) (hb : b < n) : List.Sublist [a, b] (List.range n) := by
  have hrange : List.Sublist (List.range (b + 1)) (List.range n) := List.range_sublist.mpr hb
  have ha : List.Sublist [a] (List.range b) := List.singleton_sublist.mpr (List.mem_range.mpr hab)
  rw [List.range_succ] at hrange
  exact (ha.append (List.Sublist.refl [b])).trans hrange

/-- The head and the tail chunk of a rank are two of the chunks that tile the request. -/
theorem requestTokens_sublist (b : InputBatch) {P : Nat} (r : Fin P) (i : Nat) (q : Request) :
    ((requestSegments b r i q).flatMap segTokens).Sublist (List.range' (b.queryStartLoc i) q.numScheduledTokens) := by
  rw [requestSegments_tokens]
  by_cases hp : q.isPrefilling = true
  · rw [if_pos hp, ← chunkTokens_tile (b.queryStartLoc i) q.numScheduledTokens P r.pos]
    have hpair : List.Sublist [r.val, 2 * P - 1 - r.val] (List.range (2 * P)) := by
      apply pair_sublist_range <;> omega
    have := hpair.flatMap (chunkTokens (b.queryStartLoc i) q.numScheduledTokens P)
    simpa using this
  · rw [if_neg hp]

section
variable (useMla : Bool) (b : InputBatch) {P : Nat} (r : Fin P)

theorem localTokens_perm :
    ((localCells (layoutSegments useMla b r)).map Prod.snd).Perm
      (b.reqs.zipIdx.flatMap fun qi => (requestSegments b r qi.2 qi.1).flatMap segTokens) := by
  simp only [localCells, rankCells, List.map_flatMap, segCells_snd]
  apply layoutSegments_flatMap_perm useMla b r
  · intro s a c
    rfl
  · intro s hs
    simp [segTokens, hs]

theorem localTokens_sublist :
    (b.reqs.zipIdx.flatMap fun qi => (requestSegments b r qi.2 qi.1).flatMap segTokens).Sublist (List.range b.numTokens) := by
  rw [← zipIdx_flatMap_range']
  exact List.Sublist.flatMap_right _ fun qi _ => requestTokens_sublist b r qi.2 qi.1

/-- A rank owns a token at most once. -/
theorem localTokens_nodup : ((localCells (layoutSegments useMla b r)).map Prod.snd).Nodup :=
  (localTokens_perm useMla b r).nodup_iff.mpr ((localTokens_sublist b r).nodup List.nodup_range)

theorem localTokens_lt {j t : Nat} (h : (j, t) ∈ localCells (layoutSegments useMla b r)) : t < b.numTokens := by
  have hmem : t ∈ (localCells (layoutSegments useMla b r)).map Prod.snd := List.mem_map.mpr ⟨(j, t), h, rfl⟩
  exact List.mem_range.mp ((localTokens_sublist b r).subset ((localTokens_perm useMla b r).mem_iff.mp hmem))

end

/-! ## Chunks of a cut -/

/-- The chunks follow each other from row `a` to row `stop`. -/
def Consecutive {Q I L : Type*} : Nat → List (PrefillChunk Q I L) → Nat → Prop
  | a, [], stop => a = stop
  | a, c :: chunks, stop => c.start = a ∧ Consecutive (a + c.rows) chunks stop

theorem chunkCells_split (segs : List BatchSegment) {a c stop : Nat} (hac : a ≤ c) (hc : c ≤ stop) :
    (chunkCells segs a c ++ chunkCells segs c stop).Perm (chunkCells segs a stop) := by
  have hsplit := List.filter_append_perm (fun x : Nat × Nat => decide (x.2 < c)) (chunkCells segs a stop)
  refine List.Perm.trans (List.Perm.of_eq ?_) hsplit
  unfold chunkCells
  rw [List.filter_filter, List.filter_filter]
  congr 1
  · apply List.filter_congr
    intro x _
    rw [Bool.eq_iff_iff]
    simp only [Bool.and_eq_true, decide_eq_true_eq]
    omega
  · apply List.filter_congr
    intro x _
    rw [Bool.eq_iff_iff]
    simp only [Bool.and_eq_true, Bool.not_eq_true', decide_eq_true_eq, decide_eq_false_iff_not]
    omega

section
variable {Q I L : Type*} {segs : List BatchSegment} (decodeTokens : Nat)

theorem Consecutive.le {a stop : Nat} {chunks : List (PrefillChunk Q I L)} (h : Consecutive a chunks stop) : a ≤ stop := by
  induction chunks generalizing a with
  | nil => exact Nat.le_of_eq h
  | cons c chunks ih => exact (Nat.le_add_right _ _).trans (ih h.2)

/-- Every cell is in one chunk of a cut. -/
theorem Consecutive.cells {a stop : Nat} {chunks : List (PrefillChunk Q I L)} (h : Consecutive a chunks stop) :
    (chunks.flatMap fun c => chunkCells segs (c.start + decodeTokens) (c.start + decodeTokens + c.rows)).Perm
      (chunkCells segs (a + decodeTokens) (stop + decodeTokens)) := by
  induction chunks generalizing a with
  | nil =>
    rw [show a = stop from h]
    apply List.Perm.of_eq
    symm
    apply List.filter_eq_nil_iff.mpr
    intro x _
    simp
  | cons c chunks ih =>
    obtain ⟨rfl, hrest⟩ := h
    rw [List.flatMap_cons]
    have hmid : c.start + decodeTokens + c.rows = c.start + c.rows + decodeTokens := by omega
    have hle := hrest.le
    rw [hmid]
    refine ((ih hrest).append_left _).trans ?_
    apply chunkCells_split <;> omega

end

/-! ## `_run_local_prefill` on a partitioned batch -/

theorem copyRow_segments {b : InputBatch} {owner : Nat → Option Nat} {lb lb' : LocalBatch} {s : BatchSegment}
    (h : copyRow b owner lb s = .ok lb') : lb'.segments = lb.segments := by
  unfold copyRow at h
  split at h
  · cases h
    rfl
  · dsimp only at h
    split at h
    · cases h
      rfl
    · split at h
      · cases h
      · cases h
        rfl

theorem foldlM_copyRow_segments {b : InputBatch} {owner : Nat → Option Nat} : ∀ {segs : List BatchSegment} {lb lb' : LocalBatch},
    segs.foldlM (copyRow b owner) lb = .ok lb' → lb'.segments = lb.segments
  | [], _, _, h => by
    cases h
    rfl
  | s :: segs, lb, lb', h => by
    rw [List.foldlM_cons] at h
    obtain ⟨lb₁, h₁, h₂⟩ := bind_eq_ok.mp h
    rw [foldlM_copyRow_segments h₂, copyRow_segments h₁]

theorem partitionBatch_segments {m : HcuPCPManager} {b : InputBatch} {padded : Option Nat} {rank : Fin m.pcpSize}
    {lb : LocalBatch} (h : m.partitionBatch b padded rank = .ok lb) :
    lb.segments = localSegments (layoutSegments m.useMla b rank) := by
  unfold HcuPCPManager.partitionBatch at h
  obtain ⟨l, hl, h⟩ := bind_eq_ok.mp h
  obtain ⟨_, hs, _⟩ := buildBatchLayout_spec hl
  dsimp only at h
  split at h
  · cases h
  · split at h
    · cases h
    · rw [hs] at h
      exact foldlM_copyRow_segments h

section
variable {m : HcuPCPManager} {b : InputBatch} {padded : Option Nat} {rank : Fin m.pcpSize} {lb : LocalBatch}
  (h : m.partitionBatch b padded rank = .ok lb)
include h

theorem partition_cells (start stop : Nat) :
    chunkCells lb.segments start stop = chunkCells (layoutSegments m.useMla b rank) start stop := by
  unfold chunkCells
  rw [partitionBatch_segments h, localCells_localSegments]

theorem partition_token_iff (j t : Nat) :
    lb.globalToken j = some t ↔ (j, t) ∈ localCells (layoutSegments m.useMla b rank) := by
  obtain ⟨l, hl, hp⟩ := partitionBatch_spec h
  obtain ⟨_, hs, _⟩ := buildBatchLayout_spec hl
  rw [globalToken_iff hl hp, hs]

theorem partition_rows_nodup : ((localCells (layoutSegments m.useMla b rank)).map Prod.fst).Nodup := by
  obtain ⟨l, hl, _⟩ := partitionBatch_spec h
  obtain ⟨_, hs, _⟩ := buildBatchLayout_spec hl
  have := localCells_fst_nodup hl rank
  rwa [hs] at this

theorem partition_mem_chunk {start stop j t : Nat} :
    (j, t) ∈ chunkCells lb.segments start stop ↔ lb.globalToken j = some t ∧ start ≤ t ∧ t < stop := by
  rw [partition_cells h, mem_chunkCells, partition_token_iff h]

theorem partition_chunk_tokens_nodup (start stop : Nat) : ((chunkCells lb.segments start stop).map Prod.snd).Nodup := by
  rw [partition_cells h]
  exact (List.filter_sublist.map _).nodup (localTokens_nodup m.useMla b rank)

theorem localQueryRows_nodup (start stop : Nat) : (localQueryRows lb.segments start stop).1.Nodup := by
  have hnd := partition_chunk_tokens_nodup h start stop
  rw [localQueryRows_fst, ← Function.comp_def (· - start), ← List.map_map]
  apply List.Nodup.map_on _ hnd
  intro x hx y hy he
  obtain ⟨⟨j, t⟩, hm, rfl⟩ := List.mem_map.mp hx
  obtain ⟨⟨j', t'⟩, hm', rfl⟩ := List.mem_map.mp hy
  have := (partition_mem_chunk h).mp hm
  have := (partition_mem_chunk h).mp hm'
  omega

theorem mem_localQueryRows {start stop x j : Nat} :
    (x, j) ∈ (localQueryRows lb.segments start stop).1.zip (localQueryRows lb.segments start stop).2 ↔
      start + x < stop ∧ lb.globalToken j = some (start + x) := by
  rw [localQueryRows_fst, localQueryRows_snd, List.zip_map', List.mem_map]
  constructor
  · rintro ⟨⟨j', t⟩, hm, he⟩
    obtain ⟨ht, hle, hlt⟩ := (partition_mem_chunk h).mp hm
    simp only [Prod.mk.injEq] at he
    obtain ⟨rfl, rfl⟩ := he
    rw [Nat.add_sub_cancel' hle]
    exact ⟨hlt, ht⟩
  · rintro ⟨hlt, ht⟩
    refine ⟨(j, start + x), (partition_mem_chunk h).mpr ⟨ht, Nat.le_add_right _ _, hlt⟩, ?_⟩
    simp

/-- Over a cut of the prefill rows a real row is written once and a padding row never. -/
theorem count_written {Q I L : Type*} {decodeTokens stop : Nat} {chunks : List (PrefillChunk Q I L)}
    (hcut : Consecutive 0 chunks stop) (hstop : decodeTokens + stop = b.numTokens) (slices : Bool) (localQ : Nat → Q)
    (j : Nat) :
    (chunks.flatMap fun c => (localCalls lb.segments decodeTokens slices localQ c).flatMap KernelCall.output).count j =
      if (lb.globalToken j).any (decodeTokens ≤ ·) then 1 else 0 := by
  have hcells := (@Consecutive.cells _ _ _ lb.segments decodeTokens _ _ _ hcut).map Prod.fst
  rw [List.map_flatMap] at hcells
  have hrows : (chunks.flatMap fun c => (localCalls lb.segments decodeTokens slices localQ c).flatMap KernelCall.output).Perm
      ((chunkCells lb.segments (0 + decodeTokens) (stop + decodeTokens)).map Prod.fst) := by
    refine List.Perm.trans (List.Perm.of_eq ?_) hcells
    apply List.flatMap_congr
    intro c _
    rw [localCalls_output, chunkQueryRows, localQueryRows_snd]
  rw [hrows.count_eq, List.Nodup.count]
  · apply if_congr _ rfl rfl
    rw [Option.any_eq_true]
    simp only [List.mem_map, Prod.exists, exists_and_right, exists_eq_right, decide_eq_true_eq]
    apply exists_congr
    intro t
    rw [partition_mem_chunk h]
    constructor
    · rintro ⟨ht, hle, _⟩
      exact ⟨ht, by omega⟩
    · rintro ⟨ht, hle⟩
      have := localTokens_lt m.useMla b rank ((partition_token_iff h j t).mp ht)
      exact ⟨ht, by omega, by omega⟩
  · rw [partition_cells h]
    exact (List.filter_sublist.map _).nodup (partition_rows_nodup h)

end

/-- What the two paths of `_run_local_prefill` do on the local rows `segs` of a batch. -/
structure SlicesMatch (segs : List BatchSegment) (lb : LocalBatch) (start stop : Nat) : Prop where
  once : (localQueryRows segs start stop).1.Nodup
  paired : (localQueryRows segs start stop).1.length = (localQueryRows segs start stop).2.length
  owned : ∀ x j, (x, j) ∈ (localQueryRows segs start stop).1.zip (localQueryRows segs start stop).2 ↔
    start + x < stop ∧ lb.globalToken j = some (start + x)
  tile : ((localQueryRuns segs start stop).flatMap fun r => List.range' r.row r.length) =
    List.range (localQueryRows segs start stop).2.length
  consecutive : ∀ r ∈ localQueryRuns segs start stop,
    sliceAt (localQueryRows segs start stop).2 r.row r.length = List.range' r.localRow r.length

/-- On every rank of a partitioned batch and for every cut of the prefill rows, the runs of a
chunk tile its owned rows, and the calls on slices see the triples, and write the rows, of the
call on gathered rows. -/
theorem local_slices_equal_gather {Q I L O : Type*} {m : HcuPCPManager} {b : InputBatch} {padded : Option Nat}
    {rank : Fin m.pcpSize} {lb : LocalBatch} (h : m.partitionBatch b padded rank = .ok lb)
    (decodeTokens stop : Nat) (chunks : List (PrefillChunk Q I L)) (hcut : Consecutive 0 chunks stop)
    (hstop : decodeTokens + stop = b.numTokens) (kernel : Q → I → L → O) (zero : O) (localQ : Nat → Q) :
    (∀ c ∈ chunks, SlicesMatch lb.segments lb (c.start + decodeTokens) (c.start + decodeTokens + c.rows)) ∧
      (∀ c ∈ chunks, (localCalls lb.segments decodeTokens true localQ c).flatMap KernelCall.triples =
        (localCalls lb.segments decodeTokens false localQ c).flatMap KernelCall.triples) ∧
      (∀ c ∈ chunks, (localCalls lb.segments decodeTokens true localQ c).flatMap KernelCall.output =
        (localCalls lb.segments decodeTokens false localQ c).flatMap KernelCall.output) ∧
      (∀ c ∈ chunks, ∀ output, runLocalPrefill lb.segments decodeTokens kernel zero true (some localQ) c output =
        runLocalPrefill lb.segments decodeTokens kernel zero false (some localQ) c output) ∧
      (∀ output, prefillChunks lb.segments decodeTokens kernel zero true localQ chunks output =
        prefillChunks lb.segments decodeTokens kernel zero false localQ chunks output) ∧
      ∀ slices j, (chunks.flatMap fun c => (localCalls lb.segments decodeTokens slices localQ c).flatMap
        KernelCall.output).count j = if (lb.globalToken j).any (decodeTokens ≤ ·) then 1 else 0 := by
  refine ⟨fun c _ => ⟨localQueryRows_nodup h _ _, localQueryRows_length .., fun x j => mem_localQueryRows h, ?_, ?_⟩,
    fun c _ => ?_, fun c _ => ?_, fun c _ output => ?_, fun output => ?_, fun slices j => ?_⟩
  · rw [localQueryRuns_eq]
    exact runsOf_tile _
  · intro r hr
    rw [localQueryRuns_eq] at hr
    exact (runsOf_consecutive _ hr).2.2
  · rw [localCalls_triples, localCalls_triples]
  · rw [localCalls_output, localCalls_output]
  · exact runLocalPrefill_slices lb.segments decodeTokens localQ c kernel zero output
  · exact prefillChunks_slices lb.segments decodeTokens localQ kernel zero chunks output
  · exact count_written h hcut hstop slices localQ j

/-- Two requests of three and five tokens on two ranks, their rows cut in two chunks of four. -/
theorem local_slices_two_chunks :
    ∃ lb, (HcuPCPManager.mk 2 (by decide) true 6 64).partitionBatch ⟨[⟨3, 3, true⟩, ⟨5, 0, true⟩]⟩ none 1 = .ok lb ∧
      ∀ j, (([⟨0, 4, id, id, id⟩, ⟨4, 4, id, id, id⟩] : List (PrefillChunk Nat Nat Nat)).flatMap fun c =>
        (localCalls lb.segments 0 true id c).flatMap KernelCall.output).count j =
          if (lb.globalToken j).any (0 ≤ ·) then 1 else 0 := by
  obtain ⟨l, hl⟩ : ∃ l, (HcuPCPManager.mk 2 (by decide) true 6 64).buildBatchLayout
      ⟨[⟨3, 3, true⟩, ⟨5, 0, true⟩]⟩ none = .ok l := by
    refine buildBatchLayout_ok ?_
    intro w hw
    cases hw
  obtain ⟨_, hsegs, _⟩ := buildBatchLayout_spec hl
  have hwidth : l.paddedNumTokens = 5 := (buildBatchLayout_width hl).trans (by decide +kernel)
  have hreqs : (localSegments (l.segmentsByRank 1)).length ≤ 6 := by
    rw [hsegs]
    decide +kernel
  obtain ⟨lb, h⟩ := partitionBatch_ok hl 1 hreqs (by rw [hwidth]; decide)
  have hcut : Consecutive 0 ([⟨0, 4, id, id, id⟩, ⟨4, 4, id, id, id⟩] : List (PrefillChunk Nat Nat Nat)) 8 :=
    ⟨rfl, rfl, rfl⟩
  have hmatch := local_slices_equal_gather h 0 8 _ hcut (by decide) (fun q i l => q + i + l) 0 id
  refine ⟨lb, h, fun j => ?_⟩
  exact hmatch.2.2.2.2.2 true j

end VllmHcu.Pcp
