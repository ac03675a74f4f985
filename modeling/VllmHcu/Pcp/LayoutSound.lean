import VllmHcu.Pcp.Layout
import Mathlib.Data.List.FinRange
import Mathlib.Data.List.Flatten
import Mathlib.Tactic.Ring
import VllmHcu.Lib.Loops

/-!
# The PCP layout keeps every token once

The three index tensors are scattered writes of one list of cells, each cell a
gathered row and the global token that sits in it. The rows of the cells are
distinct because the local slices are consecutive; the tokens of the cells that
write are a permutation of the global batch because the chunks of a request
tile it and sorting and dummy rows do not change the tokens of a rank.
-/

namespace VllmHcu.Pcp

/-! ## Cells -/

/-- The global tokens of a row. -/
def segTokens (s : BatchSegment) : List Nat := List.range' s.globalStart s.numActualTokens

/-- The gathered rows of a row's tokens, each with its token. -/
def segCells (padded rank : Nat) (s : BatchSegment) : List (Nat × Nat) :=
  (List.range' (rank * padded + s.localStart) s.numActualTokens).zip (segTokens s)

/-- Prefill rows are written by their rank, decode rows by rank 0. -/
def ownsRow (b : InputBatch) (rank : Nat) (s : BatchSegment) : Bool :=
  b.isPrefilling s.globalReqIdx || rank == 0

def rankCells (padded rank : Nat) (segs : List BatchSegment) : List (Nat × Nat) :=
  segs.flatMap (segCells padded rank)

def allCells {P : Nat} (padded : Nat) (segs : Fin P → List BatchSegment) : List (Nat × Nat) :=
  (List.finRange P).flatMap fun r : Fin P => rankCells padded r (segs r)

def ownedCells (b : InputBatch) {P : Nat} (padded : Nat) (segs : Fin P → List BatchSegment) :
    List (Nat × Nat) :=
  (List.finRange P).flatMap fun r : Fin P => rankCells padded r ((segs r).filter (ownsRow b r))

theorem zip_replicate_eq_map {α β γ : Type*} (l : List α) (m : List β) (c : γ) (h : l.length = m.length) :
    l.zip (List.replicate l.length c) = (l.zip m).map fun x => (x.1, c) := by
  apply List.ext_getElem
  · simp [h]
  · intro n h₁ h₂
    simp

theorem segCells_of_zero {padded rank : Nat} {s : BatchSegment} (h : s.numActualTokens = 0) :
    segCells padded rank s = [] := by simp [segCells, h]

theorem writeSegment_gather (b : InputBatch) (padded rank : Nat) (t : IndexTensors) (s : BatchSegment) :
    (writeSegment b padded rank t s).paddedGatherIdx =
      scatter t.paddedGatherIdx (segCells padded rank s) := by
  unfold writeSegment
  split
  · rename_i h; rw [segCells_of_zero h, scatter_nil]
  · have : writeSlice t.paddedGatherIdx (rank * padded + s.localStart)
        (List.range' s.globalStart s.numActualTokens) =
        scatter t.paddedGatherIdx (segCells padded rank s) := by
      simp [writeSlice, segCells, segTokens]
    dsimp only
    split <;> exact this

theorem writeSegment_mask (b : InputBatch) (padded rank : Nat) (t : IndexTensors) (s : BatchSegment) :
    (writeSegment b padded rank t s).kvWriteMask = scatter t.kvWriteMask
      (if ownsRow b rank s then (segCells padded rank s).map fun c => (c.1, true) else []) := by
  unfold writeSegment
  split
  · rename_i h; simp [segCells_of_zero h]
  · dsimp only
    rw [Bool.not_not]
    by_cases ho : ownsRow b rank s = true
    · have := zip_replicate_eq_map (List.range' (rank * padded + s.localStart) s.numActualTokens)
        (segTokens s) true (by simp [segTokens])
      simp only [List.length_range'] at this
      rw [if_pos (by simpa [ownsRow] using ho), if_pos ho]
      simp only [writeSlice, List.length_replicate, this, segCells]
    · rw [if_neg (by simpa [ownsRow] using ho), if_neg ho, scatter_nil]

theorem writeSegment_restore (b : InputBatch) (padded rank : Nat) (t : IndexTensors) (s : BatchSegment) :
    (writeSegment b padded rank t s).hiddenRestoreIdx = scatter t.hiddenRestoreIdx
      (if ownsRow b rank s then (segCells padded rank s).map fun c => (c.2, some c.1) else []) := by
  unfold writeSegment
  split
  · rename_i h; simp [segCells_of_zero h]
  · dsimp only
    rw [Bool.not_not]
    by_cases ho : ownsRow b rank s = true
    · have : (List.range' s.globalStart s.numActualTokens).zip
          ((List.range' (rank * padded + s.localStart) s.numActualTokens).map some) =
          (segCells padded rank s).map fun c => (c.2, some c.1) := by
        apply List.ext_getElem
        · simp [segCells, segTokens]
        · intro n h₁ h₂; simp [segCells, segTokens]
      rw [if_pos (by simpa [ownsRow] using ho), if_pos ho]
      simp [writeSlice, this]
    · rw [if_neg (by simpa [ownsRow] using ho), if_neg ho, scatter_nil]

section
variable (b : InputBatch) {P : Nat} (padded : Nat) (segs : Fin P → List BatchSegment)

theorem writeTensors_gather :
    (writeTensors b padded segs).paddedGatherIdx = scatter (fun _ => 0) (allCells padded segs) :=
  foldl_scatter IndexTensors.paddedGatherIdx _ (fun r : Fin P => rankCells padded r (segs r))
    (fun t r => foldl_scatter IndexTensors.paddedGatherIdx _ _ (writeSegment_gather b padded r) _ t) _ _

theorem writeTensors_mask :
    (writeTensors b padded segs).kvWriteMask =
      scatter (fun _ => false) ((ownedCells b padded segs).map fun c => (c.1, true)) := by
  rw [ownedCells, List.map_flatMap]
  refine foldl_scatter IndexTensors.kvWriteMask _ _ (fun t r => ?_) _ _
  rw [foldl_scatter IndexTensors.kvWriteMask _ _ (writeSegment_mask b padded r), map_flatMap_filter,
    rankCells]

theorem writeTensors_restore :
    (writeTensors b padded segs).hiddenRestoreIdx =
      scatter (fun _ => none) ((ownedCells b padded segs).map fun c => (c.2, some c.1)) := by
  rw [ownedCells, List.map_flatMap]
  refine foldl_scatter IndexTensors.hiddenRestoreIdx _ _ (fun t r => ?_) _ _
  rw [foldl_scatter IndexTensors.hiddenRestoreIdx _ _ (writeSegment_restore b padded r),
    map_flatMap_filter, rankCells]

end

/-! ## Rows of the cells -/

theorem segCells_fst (padded rank : Nat) (s : BatchSegment) :
    (segCells padded rank s).map Prod.fst = List.range' (rank * padded + s.localStart) s.numActualTokens :=
  List.map_fst_zip (by simp [segTokens])

theorem segCells_snd (padded rank : Nat) (s : BatchSegment) :
    (segCells padded rank s).map Prod.snd = segTokens s :=
  List.map_snd_zip (by simp [segTokens])

theorem segmentTokens_cons (s : BatchSegment) (segs : List BatchSegment) :
    segmentTokens (s :: segs) = s.numTokens + segmentTokens segs := rfl

theorem range'_sublist_add (a n m : Nat) : (List.range' a n).Sublist (List.range' a (n + m)) := by
  rw [← List.range'_append_1]
  exact List.sublist_append_left _ _

/-- Placed rows take consecutive rows of their rank, so their cells do not collide. -/
theorem rankCells_place_sublist (padded rank : Nat) : ∀ (segs : List BatchSegment) (off : Nat),
    ((rankCells padded rank (place off segs)).map Prod.fst).Sublist
      (List.range' (rank * padded + off) (segmentTokens segs))
  | [], off => by simp [rankCells, place]
  | s :: segs, off => by
    rw [segmentTokens_cons, ← List.range'_append_1, place, rankCells, List.flatMap_cons, List.map_append]
    refine List.Sublist.append ?_ ?_
    · rw [segCells_fst]
      exact range'_sublist_add _ _ _
    · have := rankCells_place_sublist padded rank segs (off + s.numTokens)
      rwa [← Nat.add_assoc] at this

theorem range_flatMap_range' (n w : Nat) :
    ((List.range n).flatMap fun r => List.range' (r * w) w) = List.range (n * w) := by
  induction n with
  | zero => simp
  | succ n ih =>
    rw [List.range_succ, List.flatMap_append, ih, Nat.succ_mul]
    simp [List.range_add, List.range'_eq_map_range]

theorem finRange_flatMap_range' (P w : Nat) :
    ((List.finRange P).flatMap fun r : Fin P => List.range' (r * w) w) = List.range (P * w) := by
  rw [← range_flatMap_range', ← List.map_coe_finRange_eq_range, List.flatMap_map]

section
variable {P padded : Nat} {segs : Fin P → List BatchSegment}

theorem allCells_fst_sublist (hs : ∀ r, ∃ l, segs r = place 0 l ∧ segmentTokens l ≤ padded) :
    ((allCells padded segs).map Prod.fst).Sublist (List.range (P * padded)) := by
  rw [allCells, List.map_flatMap, ← finRange_flatMap_range']
  refine List.Sublist.flatMap_right _ fun r _ => ?_
  obtain ⟨l, hl, hw⟩ := hs r
  rw [hl]
  obtain ⟨d, rfl⟩ := Nat.exists_eq_add_of_le hw
  exact (rankCells_place_sublist _ r l 0).trans (range'_sublist_add _ _ _)

theorem ownedCells_sublist (b : InputBatch) :
    (ownedCells b padded segs).Sublist (allCells padded segs) := by
  refine List.Sublist.flatMap_right _ fun r _ => ?_
  induction segs r with
  | nil => exact List.Sublist.refl _
  | cons s l ih =>
    by_cases h : ownsRow b r s = true
    · simpa [rankCells, h] using List.Sublist.append (List.Sublist.refl (segCells padded r s)) ih
    · simpa [rankCells, h] using ih.trans (List.sublist_append_right _ _)

theorem allCells_fst_nodup (hs : ∀ r, ∃ l, segs r = place 0 l ∧ segmentTokens l ≤ padded) :
    ((allCells padded segs).map Prod.fst).Nodup :=
  (allCells_fst_sublist hs).nodup List.nodup_range

end

/-! ## Tokens of the cells -/

theorem flatMap_place {β : Type*} (f : BatchSegment → List β)
    (hf : ∀ s a c, f { s with localStart := a, localStop := c } = f s) :
    ∀ (l : List BatchSegment) (off : Nat), (place off l).flatMap f = l.flatMap f
  | [], _ => rfl
  | s :: l, off => by rw [place, List.flatMap_cons, List.flatMap_cons, flatMap_place f hf l, hf]

theorem sortByFlag_perm {α : Type*} (key : α → Bool) (l : List α) : (sortByFlag key l).Perm l :=
  List.perm_append_comm.trans (List.filter_append_perm key l)

theorem reorderSegments_flatMap_perm {β : Type*} (b : InputBatch) (f : BatchSegment → List β)
    (hf : ∀ s a c, f { s with localStart := a, localStop := c } = f s) (l : List BatchSegment) :
    ((reorderSegments b l).flatMap f).Perm (l.flatMap f) := by
  rw [reorderSegments, flatMap_place f hf]
  exact (sortByFlag_perm _ l).flatMap_right f

theorem segmentsForRank_flatMap_perm {β : Type*} (b : InputBatch) {P : Nat} (r : Fin P)
    (f : BatchSegment → List β) (hf : ∀ s a c, f { s with localStart := a, localStop := c } = f s) :
    ((segmentsForRank b r).flatMap f).Perm
      (b.reqs.zipIdx.flatMap fun qi => (requestSegments b r qi.2 qi.1).flatMap f) := by
  refine (reorderSegments_flatMap_perm b f hf _).trans ?_
  rw [flatMap_place f hf, List.flatMap_assoc]

theorem equalizeRequest_append (useMla : Bool) (b : InputBatch) {P : Nat}
    (segs : Fin P → List BatchSegment) (i : Nat) (q : Request) (r : Fin P) :
    ∃ pads, equalizeRequest useMla b segs i q r = segs r ++ pads ∧
      ∀ s ∈ pads, s.numActualTokens = 0 := by
  unfold equalizeRequest
  split
  · exact ⟨[], by simp, by simp⟩
  · split
    · exact ⟨[], by simp, by simp⟩
    · refine ⟨_, rfl, ?_⟩
      intro s hs
      obtain ⟨row, _, rfl⟩ := List.mem_map.mp hs
      simp [BatchSegment.numActualTokens]

theorem equalizeRequests_append (useMla : Bool) (b : InputBatch) {P : Nat}
    (segs : Fin P → List BatchSegment) (r : Fin P) :
    ∃ pads, equalizeRequests useMla b segs r = segs r ++ pads ∧ ∀ s ∈ pads, s.numActualTokens = 0 := by
  unfold equalizeRequests
  induction b.reqs.zipIdx generalizing segs with
  | nil => exact ⟨[], by simp, by simp⟩
  | cons qi l ih =>
    obtain ⟨p₁, h₁, hz₁⟩ := equalizeRequest_append useMla b segs qi.2 qi.1 r
    obtain ⟨p₂, h₂, hz₂⟩ := ih (equalizeRequest useMla b segs qi.2 qi.1)
    refine ⟨p₁ ++ p₂, ?_, ?_⟩
    · rw [List.foldl_cons, h₂, h₁, List.append_assoc]
    · intro s hs
      rcases List.mem_append.mp hs with h | h
      · exact hz₁ s h
      · exact hz₂ s h

theorem layoutSegments_flatMap_perm {β : Type*} (useMla : Bool) (b : InputBatch) {P : Nat} (r : Fin P)
    (f : BatchSegment → List β) (hf : ∀ s a c, f { s with localStart := a, localStop := c } = f s)
    (hz : ∀ s, s.numActualTokens = 0 → f s = []) :
    ((layoutSegments useMla b r).flatMap f).Perm
      (b.reqs.zipIdx.flatMap fun qi => (requestSegments b r qi.2 qi.1).flatMap f) := by
  obtain ⟨pads, hp, hpz⟩ := equalizeRequests_append useMla b (segmentsForRank b) r
  refine (reorderSegments_flatMap_perm b f hf _).trans ?_
  have : pads.flatMap f = [] := List.flatMap_eq_nil_iff.mpr fun s hs => hz s (hpz s hs)
  rw [hp, List.flatMap_append, this, List.append_nil]
  exact segmentsForRank_flatMap_perm b r f hf

/-! ## Chunks tile a request -/

theorem segment_stop (n P c : Nat) :
    (segment n P c).stop = (segment n P (c + 1)).start := by
  simp only [segment]
  generalize (n + 2 * P - 1) / (2 * P) = size
  rw [Nat.add_one_mul]
  omega

theorem segment_start_le_stop (n P c : Nat) : (segment n P c).start ≤ (segment n P c).stop := by
  simp only [segment]
  generalize (n + 2 * P - 1) / (2 * P) = size
  omega

theorem segment_start_zero (n P : Nat) : (segment n P 0).start = 0 := by simp [segment]

theorem segment_start_last (n P : Nat) (hP : 0 < P) : (segment n P (2 * P)).start = n := by
  simp only [segment]
  refine Nat.min_eq_right ?_
  have := Nat.div_add_mod (n + 2 * P - 1) (2 * P)
  have := Nat.mod_lt (n + 2 * P - 1) (show 0 < 2 * P by omega)
  omega

/-- The tokens of one chunk of a request whose tokens start at `gs`. -/
def chunkTokens (gs n P c : Nat) : List Nat :=
  List.range' (gs + (segment n P c).start) (segment n P c).numTokens

theorem range_flatMap_chunkTokens (gs n P k : Nat) :
    (List.range k).flatMap (chunkTokens gs n P) = List.range' gs (segment n P k).start := by
  induction k with
  | zero => simp [segment_start_zero]
  | succ k ih =>
    rw [List.range_succ, List.flatMap_append, ih, ← segment_stop]
    have h := segment_start_le_stop n P k
    obtain ⟨d, hd⟩ := Nat.exists_eq_add_of_le h
    simp [chunkTokens, RankSegment.numTokens, hd]

theorem chunkTokens_tile (gs n P : Nat) (hP : 0 < P) :
    (List.range (2 * P)).flatMap (chunkTokens gs n P) = List.range' gs n := by
  rw [range_flatMap_chunkTokens, segment_start_last n P hP]

/-- Ranks `0 .. P` with the symmetric chunk pairs cover the chunks `0 .. 2 P`. -/
theorem symmetric_chunks_perm {β : Type*} (P : Nat) (f : Nat → List β) :
    ((List.finRange P).flatMap fun r : Fin P => f r ++ f (2 * P - 1 - r)).Perm
      ((List.range (2 * P)).flatMap f) := by
  have hval : ∀ g : Nat → List β, ((List.finRange P).flatMap fun r : Fin P => g r) =
      (List.range P).flatMap g := fun g => by
    rw [← List.map_coe_finRange_eq_range, List.flatMap_map]
  refine (List.flatMap_append_perm _ _ _).symm.trans ?_
  rw [hval, hval fun r => f (2 * P - 1 - r), two_mul, List.range_add, List.flatMap_append]
  refine List.Perm.append_left _ ?_
  have hrev : (List.range P).map (fun r => P + P - 1 - r) = ((List.range P).map (P + ·)).reverse := by
    apply List.ext_getElem
    · simp
    · intro i h₁ h₂
      simp only [List.length_map, List.length_range] at h₁
      simp
      omega
  have hmap : ((List.range P).flatMap fun r => f (P + P - 1 - r)) =
      ((List.range P).map fun r => P + P - 1 - r).flatMap f := by rw [List.flatMap_map]
  rw [hmap, hrev]
  exact (List.reverse_perm _).flatMap_right f

theorem filter_nonempty_flatMap (gs i : Nat) (segs : List RankSegment) :
    (((segs.filter fun s => s.numTokens != 0).map fun s =>
      ({ globalReqIdx := i, globalStart := gs + s.start, globalStop := gs + s.stop } : BatchSegment)).flatMap
        segTokens) = segs.flatMap fun s => List.range' (gs + s.start) s.numTokens := by
  induction segs with
  | nil => rfl
  | cons s segs ih =>
    have he : gs + s.stop - (gs + s.start) = s.numTokens := by simp [RankSegment.numTokens]; omega
    by_cases h : s.numTokens = 0
    · simp [h, ih]
    · simp [h, ih, segTokens, BatchSegment.numActualTokens, he]

theorem requestSegments_tokens (b : InputBatch) {P : Nat} (r : Fin P) (i : Nat) (q : Request) :
    (requestSegments b r i q).flatMap segTokens =
      if q.isPrefilling then
        chunkTokens (b.queryStartLoc i) q.numScheduledTokens P r ++
          chunkTokens (b.queryStartLoc i) q.numScheduledTokens P (2 * P - 1 - r)
      else List.range' (b.queryStartLoc i) q.numScheduledTokens := by
  unfold requestSegments
  by_cases h0 : q.numScheduledTokens = 0
  · simp [h0, chunkTokens, segment, RankSegment.numTokens]
  · rw [if_neg h0]
    dsimp only
    rw [filter_nonempty_flatMap]
    by_cases hp : q.isPrefilling = true
    · simp [hp, chunkTokens, rankSegments]
    · simp [hp, RankSegment.numTokens]

theorem requestSegments_reqIdx {b : InputBatch} {P : Nat} {r : Fin P} {i : Nat} {q : Request}
    {s : BatchSegment} (hs : s ∈ requestSegments b r i q) : s.globalReqIdx = i := by
  unfold requestSegments at hs
  split at hs
  · cases hs
  · obtain ⟨_, _, rfl⟩ := List.mem_map.mp hs
    rfl

theorem isPrefilling_of_zipIdx {b : InputBatch} {q : Request} {i : Nat} (h : (q, i) ∈ b.reqs.zipIdx) :
    b.isPrefilling i = q.isPrefilling := by
  rw [List.mem_zipIdx_iff_getElem?] at h
  simp [InputBatch.isPrefilling, h]

/-- Over all ranks, the rows that write hold every token of the request once. -/
theorem request_tokens_perm (b : InputBatch) {P : Nat} (hP : 0 < P) {i : Nat} {q : Request}
    (h : (q, i) ∈ b.reqs.zipIdx) :
    ((List.finRange P).flatMap fun r : Fin P =>
      ((requestSegments b r i q).filter (ownsRow b r)).flatMap segTokens).Perm
      (List.range' (b.queryStartLoc i) q.numScheduledTokens) := by
  have hown : ∀ r : Fin P, (requestSegments b r i q).filter (ownsRow b r) =
      if q.isPrefilling || r.val == 0 then requestSegments b r i q else [] := by
    intro r
    split
    · rename_i hr
      refine List.filter_eq_self.mpr fun s hs => ?_
      rw [ownsRow, requestSegments_reqIdx hs, isPrefilling_of_zipIdx h]
      exact hr
    · rename_i hr
      refine List.filter_eq_nil_iff.mpr fun s hs => ?_
      rw [ownsRow, requestSegments_reqIdx hs, isPrefilling_of_zipIdx h]
      exact hr
  by_cases hp : q.isPrefilling = true
  · simp only [hown, hp, Bool.true_or, ite_true, requestSegments_tokens]
    refine (symmetric_chunks_perm P _).trans ?_
    rw [chunkTokens_tile _ _ _ hP]
  · -- only rank 0 contributes
    obtain ⟨P, rfl⟩ := Nat.exists_eq_succ_of_ne_zero (by omega : P ≠ 0)
    simp only [hown, hp, Bool.false_or]
    rw [List.finRange_succ, List.flatMap_cons, List.flatMap_map]
    have : ((List.finRange P).flatMap fun r : Fin P =>
        (if ((Fin.succ r).val == 0) = true then requestSegments b r.succ i q else []).flatMap segTokens) =
        [] := List.flatMap_eq_nil_iff.mpr fun r _ => by simp
    rw [this]
    simp [requestSegments_tokens, hp]

theorem zipIdx_flatMap_range' (b : InputBatch) :
    (b.reqs.zipIdx.flatMap fun qi => List.range' (b.queryStartLoc qi.2) qi.1.numScheduledTokens) =
      List.range b.numTokens := by
  unfold InputBatch.queryStartLoc InputBatch.numTokens
  induction b.reqs using List.reverseRecOn with
  | nil => rfl
  | append_singleton l q ih =>
    rw [List.zipIdx_append, List.flatMap_append]
    have : (l.zipIdx.flatMap fun qi => List.range'
        (((l ++ [q]).take qi.2).map (·.numScheduledTokens)).sum qi.1.numScheduledTokens) =
        l.zipIdx.flatMap fun qi => List.range'
          ((l.take qi.2).map (·.numScheduledTokens)).sum qi.1.numScheduledTokens := by
      refine List.flatMap_congr fun qi hqi => ?_
      obtain ⟨x, i⟩ := qi
      have hi : i < l.length := (List.mem_zipIdx hqi).2.1.trans_eq (by simp)
      rw [List.take_append_of_le_length (by simpa using hi.le)]
    rw [this, ih]
    simp [List.range_add, List.range'_eq_map_range]

theorem ownedCells_snd (b : InputBatch) {P : Nat} (padded : Nat) (segs : Fin P → List BatchSegment) :
    (ownedCells b padded segs).map Prod.snd =
      (List.finRange P).flatMap fun r : Fin P => ((segs r).filter (ownsRow b r)).flatMap segTokens := by
  rw [ownedCells, List.map_flatMap]
  simp only [rankCells, List.map_flatMap, segCells_snd]

/-- The writing rows of all ranks hold every global token exactly once. -/
theorem ownedCells_tokens_perm (useMla : Bool) (b : InputBatch) {P : Nat} (hP : 0 < P) (padded : Nat) :
    ((ownedCells b padded fun r : Fin P => layoutSegments useMla b r).map Prod.snd).Perm
      (List.range b.numTokens) := by
  rw [ownedCells_snd]
  have hrank : ∀ r : Fin P, (((layoutSegments useMla b r).filter (ownsRow b r)).flatMap segTokens).Perm
      (b.reqs.zipIdx.flatMap fun qi =>
        ((requestSegments b r qi.2 qi.1).filter (ownsRow b r)).flatMap segTokens) := by
    intro r
    simp only [← flatMap_ite_filter]
    refine layoutSegments_flatMap_perm useMla b r _ (fun s a c => ?_) fun s hs => ?_
    · rfl
    · simp [segTokens, hs]
  refine (List.Perm.flatMap_left _ fun r _ => hrank r).trans ?_
  refine (flatMap_comm_perm _ _ _).trans ?_
  refine (List.Perm.flatMap_left _ fun qi hqi => ?_).trans (List.Perm.of_eq (zipIdx_flatMap_range' b))
  exact request_tokens_perm b hP hqi

end VllmHcu.Pcp
