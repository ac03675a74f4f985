import VllmHcu.Pcp.Plan
import VllmHcu.Pcp.PlanSound
import VllmHcu.Pcp.RowSound
import VllmHcu.Pcp.WidthSound

/-!
# Soundness of the local sequence lengths

`writeSeqLens_spec`: the gathered lengths are those the positions give, and every
row gets its own, whatever earlier calls left in the scratch buffers.
-/

namespace VllmHcu.Pcp

/-! ## Buffers -/

section
variable {dst src index : Nat → Nat} {n i : Nat}

theorem copyFirst_of_lt (hi : i < n) : copyFirst dst src n i = src i := by
  unfold copyFirst
  rw [writeSlice_of_lt _ (by simpa using hi)]
  simp

theorem copyFirst_of_ge (hi : n ≤ i) : copyFirst dst src n i = dst i := by
  unfold copyFirst
  exact writeSlice_of_ge _ (by simpa using hi)

theorem indexSelect_of_lt (hi : i < n) : indexSelect dst src index n i = src (index i) := by
  unfold indexSelect
  rw [writeSlice_of_lt _ (by simpa using hi)]
  simp

theorem indexSelect_of_ge (hi : n ≤ i) : indexSelect dst src index n i = dst i := by
  unfold indexSelect
  exact writeSlice_of_ge _ (by simpa using hi)

end

/-! ## The two ways -/

section
variable (device : DeviceBatch) (positions : Nat → Nat) {segs : List BatchSegment} (st : SeqScratch) {i : Nat}

theorem gatherSeqLens_row {s : BatchSegment} (h : segs[i]? = some s) :
    (gatherSeqLens device segs st).seqLens i = device.seqLens s.globalReqIdx := by
  obtain ⟨hi, rfl⟩ := List.getElem?_eq_some_iff.mp h
  unfold gatherSeqLens
  dsimp only
  rw [indexSelect_of_lt hi, copyFirst_of_lt hi, writeSlice_of_lt _ (by simpa using hi), List.getElem_map]

theorem gatherSeqLens_rest (h : segs.length ≤ i) : (gatherSeqLens device segs st).seqLens i = st.seqLens i :=
  indexSelect_of_ge h

/-- What the last copy writes: each row its own length. -/
def rowWrites (positions : Nat → Nat) (segs : List BatchSegment) : List (Nat × Nat) :=
  (actualRows segs).map fun p => (p.2, positions (p.1.localStart + p.1.numActualTokens - 1) + 1)

theorem positionSeqLens_eq : (positionSeqLens positions segs st).seqLens =
    scatter (copyFirst st.seqLens (writeSlice st.cuNumLogitsNp 0 (segs.map (·.paddingTokens))) segs.length)
      (rowWrites positions segs) := by
  unfold positionSeqLens rowWrites
  dsimp only
  split
  · rename_i h
    rw [List.eq_nil_of_length_eq_zero h]
    rfl
  · dsimp only
    congr 1
    apply List.ext_getElem
    · simp
    · intro k hk hk'
      have hrow : k < (actualRows segs).length := by simpa using hk
      rw [List.getElem_map, List.getElem_range, List.getElem_map, copyFirst_of_lt hrow,
        writeSlice_of_lt _ (by simpa using hrow), writeSlice_of_lt _ (by simpa using hrow), List.getElem_map,
        List.getElem_map, List.getElem_range, indexSelect_of_lt hrow, copyFirst_of_lt hrow,
        writeSlice_of_lt _ (by simpa using hrow), List.getElem_map]

theorem mem_actualRows {s : BatchSegment} {k : Nat} : (s, k) ∈ actualRows segs ↔ segs[k]? = some s ∧ 0 < s.numActualTokens := by
  unfold actualRows
  rw [List.mem_filter, List.mem_zipIdx_iff_getElem?]
  simp

theorem rowWrites_nodup : ((rowWrites positions segs).map Prod.fst).Nodup := by
  have hkeys : (rowWrites positions segs).map Prod.fst = (actualRows segs).map Prod.snd := by
    unfold rowWrites
    rw [List.map_map]
    rfl
  rw [hkeys]
  exact (zipIdx_snd_nodup segs).sublist (List.filter_sublist.map _)

theorem positionSeqLens_row {s : BatchSegment} (h : segs[i]? = some s) (hs : 0 < s.numActualTokens) :
    (positionSeqLens positions segs st).seqLens i = positions (s.localStart + s.numActualTokens - 1) + 1 := by
  rw [positionSeqLens_eq]
  apply scatter_of_mem _ (rowWrites_nodup positions)
  exact List.mem_map.mpr ⟨(s, i), mem_actualRows.mpr ⟨h, hs⟩, rfl⟩

theorem rowWrites_other (h : ∀ s, segs[i]? = some s → s.numActualTokens = 0) :
    i ∉ (rowWrites positions segs).map Prod.fst := by
  intro hmem
  obtain ⟨w, hw, rfl⟩ := List.mem_map.mp hmem
  obtain ⟨⟨s, k⟩, hp, rfl⟩ := List.mem_map.mp hw
  obtain ⟨hk, hpos⟩ := mem_actualRows.mp hp
  have := h s hk
  omega

theorem positionSeqLens_padding {s : BatchSegment} (h : segs[i]? = some s) (hs : s.numActualTokens = 0) :
    (positionSeqLens positions segs st).seqLens i = s.paddingTokens := by
  have hother : ∀ s', segs[i]? = some s' → s'.numActualTokens = 0 := by
    intro s' h'
    cases h.symm.trans h'
    exact hs
  obtain ⟨hi, rfl⟩ := List.getElem?_eq_some_iff.mp h
  rw [positionSeqLens_eq, scatter_of_not_mem _ (rowWrites_other positions hother), copyFirst_of_lt hi,
    writeSlice_of_lt _ (by simpa using hi), List.getElem_map]

theorem positionSeqLens_rest (h : segs.length ≤ i) : (positionSeqLens positions segs st).seqLens i = st.seqLens i := by
  have hother : ∀ s, segs[i]? = some s → s.numActualTokens = 0 := by
    intro s hs
    rw [List.getElem?_eq_none h] at hs
    cases hs
  rw [positionSeqLens_eq, scatter_of_not_mem _ (rowWrites_other positions hother), copyFirst_of_ge h]

end

/-! ## Device positions -/

/-- The device length of a request is its last device position plus one; `num_computed_tokens_np` may be larger. -/
def DeviceConsistent (b : InputBatch) (device : DeviceBatch) : Prop := ∀ q i, (q, i) ∈ b.reqs.zipIdx → 0 < q.numScheduledTokens →
  device.seqLens i = device.positions (b.queryStartLoc (i + 1) - 1) + 1

section
variable {m : HcuPCPManager} {b : InputBatch} {padded : Option Nat} {l : BatchLayout m.pcpSize} {rank : Fin m.pcpSize}
  {lb : LocalBatch}

/-- The last local position of a row is the device position of its last token. -/
theorem localPositions_last (hl : m.buildBatchLayout b padded = .ok l) (hp : PartitionSpec m b l rank lb)
    (device : DeviceBatch) {s : BatchSegment} (hmem : s ∈ localSegments (l.segmentsByRank rank)) (hs : 0 < s.numActualTokens) :
    localPositions device lb (s.localStart + s.numActualTokens - 1) = device.positions (s.globalStop - 1) := by
  have hcell : (s.localStart + s.numActualTokens - 1, s.globalStop - 1) ∈ localCells (l.segmentsByRank rank) := by
    rw [← localCells_localSegments]
    apply List.mem_flatMap.mpr
    refine ⟨s, hmem, mem_segCells.mpr ⟨s.numActualTokens - 1, by omega, by omega, ?_⟩⟩
    unfold BatchSegment.numActualTokens at hs ⊢
    omega
  unfold localPositions
  rw [(globalToken_iff hl hp _ _).mpr hcell]
  rfl

theorem full_row_seqLen {device : DeviceBatch} (hdev : DeviceConsistent b device)
    (hl : m.buildBatchLayout b padded = .ok l) {s : BatchSegment} (hmem : s ∈ localSegments (l.segmentsByRank rank))
    (hs : 0 < s.numActualTokens) (hstart : s.globalStart = b.queryStartLoc s.globalReqIdx)
    (hstop : s.globalStop = b.queryStartLoc (s.globalReqIdx + 1)) :
    device.seqLens s.globalReqIdx = device.positions (s.globalStop - 1) + 1 := by
  have hreq : s.globalReqIdx < b.reqs.length := by
    unfold localSegments at hmem
    split at hmem
    · cases List.mem_singleton.mp hmem
      exact absurd hs (Nat.lt_irrefl 0)
    · rw [(buildBatchLayout_spec hl).2.1] at hmem
      exact layoutSegments_reqIdx m.useMla b rank hmem
  have hq : (b.reqs[s.globalReqIdx], s.globalReqIdx) ∈ b.reqs.zipIdx := by
    rw [List.mem_zipIdx_iff_getElem?]
    exact List.getElem?_eq_getElem hreq
  have hnext := queryStartLoc_succ hq
  unfold BatchSegment.numActualTokens at hs
  rw [hstop]
  exact hdev _ _ hq (by omega)

/-- The lengths that one call leaves. -/
structure SeqLensSpec (b : InputBatch) (device : DeviceBatch) (lb : LocalBatch) (segs : List BatchSegment) (st : SeqScratch) :
    Prop where
  fast : fullRequestRows b segs = true → ∀ i,
    (gatherSeqLens device segs st).seqLens i = (positionSeqLens (localPositions device lb) segs st).seqLens i
  actual : ∀ i s, segs[i]? = some s → 0 < s.numActualTokens →
    (writeSeqLens b device lb segs st).seqLens i = device.positions (s.globalStop - 1) + 1
  padding : ∀ i s, segs[i]? = some s → s.numActualTokens = 0 → (writeSeqLens b device lb segs st).seqLens i = s.paddingTokens
  rest : ∀ i, segs.length ≤ i → (writeSeqLens b device lb segs st).seqLens i = st.seqLens i

theorem writeSeqLens_spec {device : DeviceBatch} (hdev : DeviceConsistent b device) (hb : m.buildBatchLayout b padded = .ok l)
    (hlb : m.partitionBatch b padded rank = .ok lb) (st : SeqScratch) :
    SeqLensSpec b device lb (localSegments (l.segmentsByRank rank)) st := by
  obtain ⟨l', hl, hp⟩ := partitionBatch_spec hlb
  cases hl.symm.trans hb
  have hlast : ∀ i s, (localSegments (l.segmentsByRank rank))[i]? = some s → 0 < s.numActualTokens →
      (positionSeqLens (localPositions device lb) (localSegments (l.segmentsByRank rank)) st).seqLens i =
        device.positions (s.globalStop - 1) + 1 := by
    intro i s hi hs
    rw [positionSeqLens_row _ _ hi hs, localPositions_last hl hp device (List.mem_of_getElem? hi) hs]
  have hfast : fullRequestRows b (localSegments (l.segmentsByRank rank)) = true → ∀ i,
      (gatherSeqLens device (localSegments (l.segmentsByRank rank)) st).seqLens i =
        (positionSeqLens (localPositions device lb) (localSegments (l.segmentsByRank rank)) st).seqLens i := by
    intro hfull i
    by_cases hi : i < (localSegments (l.segmentsByRank rank)).length
    · have hget := List.getElem?_eq_getElem hi
      have hmem := List.mem_of_getElem? hget
      have hrow := List.all_eq_true.mp hfull _ hmem
      simp only [Bool.and_eq_true, decide_eq_true_eq, beq_iff_eq] at hrow
      obtain ⟨⟨hs, hstart⟩, hstop⟩ := hrow
      rw [hlast i _ hget hs, gatherSeqLens_row device st hget, full_row_seqLen hdev hl hmem hs hstart hstop]
    · rw [gatherSeqLens_rest _ _ (by omega), positionSeqLens_rest _ _ (by omega)]
  have hwrite : ∀ i, (writeSeqLens b device lb (localSegments (l.segmentsByRank rank)) st).seqLens i =
      (positionSeqLens (localPositions device lb) (localSegments (l.segmentsByRank rank)) st).seqLens i := by
    intro i
    unfold writeSeqLens
    split
    · rename_i hfull
      exact hfast hfull i
    · rfl
  refine ⟨hfast, fun i s hi hs => ?_, fun i s hi hs => ?_, fun i hi => ?_⟩
  · rw [hwrite, hlast i s hi hs]
  · rw [hwrite, positionSeqLens_padding _ _ hi hs]
  · rw [hwrite, positionSeqLens_rest _ _ hi]

end

/-- Rank 1 of two: a padding row for a prefill of one token beside a decode row whose CPU mirror runs ahead of the device. -/
theorem writeSeqLens_spec_padded : ∃ (l : BatchLayout 2) (lb : LocalBatch),
    (HcuPCPManager.mk 2 (by decide) true 6 64).buildBatchLayout ⟨[⟨1, 9, true⟩, ⟨2, 18, false⟩]⟩ none = .ok l ∧
      (HcuPCPManager.mk 2 (by decide) true 6 64).partitionBatch ⟨[⟨1, 9, true⟩, ⟨2, 18, false⟩]⟩ none 1 = .ok lb ∧
      SeqLensSpec ⟨[⟨1, 9, true⟩, ⟨2, 18, false⟩]⟩ ⟨fun t => if t = 0 then 9 else t + 14, fun i => if i = 0 then 10 else 17⟩ lb
        (localSegments (l.segmentsByRank 1)) ⟨fun _ => 7, fun _ => 7, fun _ => 7, fun _ => 7⟩ := by
  obtain ⟨l, hl⟩ : ∃ l, (HcuPCPManager.mk 2 (by decide) true 6 64).buildBatchLayout
      ⟨[⟨1, 9, true⟩, ⟨2, 18, false⟩]⟩ none = .ok l := by
    refine buildBatchLayout_ok ?_
    intro w hw
    cases hw
  obtain ⟨_, hsegs, _⟩ := buildBatchLayout_spec hl
  have hwidth : l.paddedNumTokens = 3 := (buildBatchLayout_width hl).trans (by decide +kernel)
  have hreqs : (localSegments (l.segmentsByRank 1)).length ≤ 6 := by
    rw [hsegs]
    decide +kernel
  obtain ⟨lb, hlb⟩ := partitionBatch_ok hl 1 hreqs (by rw [hwidth]; decide)
  refine ⟨l, lb, hl, hlb, writeSeqLens_spec ?_ hl hlb _⟩
  intro q i hq _
  rcases List.mem_pair.mp hq with h | h
  · cases h
    decide
  · cases h
    decide

end VllmHcu.Pcp
