import VllmHcu.Pcp.Plan
import VllmHcu.Pcp.PartitionSound

/-!
# Soundness of the attention plan

`buildPlan_causal`: between its two offsets every local row of a rank lists, in
sequence order, the gathered rows of its request's new tokens up to its own last
one.
-/

namespace VllmHcu.Pcp

variable {b : InputBatch} {P : Nat}

/-! ## Rows of a request -/

theorem queryStartLoc_succ {q : Request} {i : Nat} (h : (q, i) ∈ b.reqs.zipIdx) :
    b.queryStartLoc (i + 1) = b.queryStartLoc i + q.numScheduledTokens := by
  rw [List.mem_zipIdx_iff_getElem?] at h
  simp [InputBatch.queryStartLoc, List.take_add_one, h]

theorem queryStartLoc_le (i : Nat) : b.queryStartLoc i ≤ b.numTokens := by
  unfold InputBatch.queryStartLoc InputBatch.numTokens
  exact ((List.take_sublist i b.reqs).map _).sum_le_sum fun _ _ => Nat.zero_le _

/-- A row lies in the tokens of its request. -/
structure WithinRequest (b : InputBatch) (s : BatchSegment) : Prop where
  lower : b.queryStartLoc s.globalReqIdx ≤ s.globalStart
  ordered : s.globalStart ≤ s.globalStop
  upper : s.globalStop ≤ b.queryStartLoc (s.globalReqIdx + 1)

theorem requestSegments_within {r : Fin P} {q : Request} {i : Nat} (h : (q, i) ∈ b.reqs.zipIdx) {s : BatchSegment}
    (hs : s ∈ requestSegments b r i q) : WithinRequest b s := by
  have hnext := queryStartLoc_succ h
  unfold requestSegments at hs
  split at hs
  · cases hs
  · obtain ⟨g, hg, rfl⟩ := List.mem_map.mp hs
    have hg := (List.mem_filter.mp hg).1
    have hbounds : g.start ≤ g.stop ∧ g.stop ≤ q.numScheduledTokens := by
      split at hg
      · rcases List.mem_pair.mp hg with rfl | rfl
        · exact ⟨segment_start_le_stop _ _ _, Nat.min_le_right _ _⟩
        · exact ⟨segment_start_le_stop _ _ _, Nat.min_le_right _ _⟩
      · cases List.mem_singleton.mp hg
        exact ⟨Nat.zero_le _, le_refl _⟩
    refine ⟨Nat.le_add_right _ _, Nat.add_le_add_left hbounds.1 _, ?_⟩
    dsimp only
    omega

theorem equalizeRequests_false (segs : Fin P → List BatchSegment) : equalizeRequests false b segs = segs := by
  unfold equalizeRequests
  induction b.reqs.zipIdx with
  | nil => rfl
  | cons x l ih => exact ih

theorem layoutSegments_within {r : Fin P} {s : BatchSegment} (hs : s ∈ layoutSegments false b r) : WithinRequest b s := by
  let ends := fun s : BatchSegment => [(s.globalReqIdx, s.globalStart, s.globalStop)]
  unfold layoutSegments at hs
  rw [equalizeRequests_false] at hs
  have hperm := (reorderSegments_flatMap_perm b ends (fun _ _ _ => rfl) (segmentsForRank b r)).trans
    (segmentsForRank_flatMap_perm b r ends fun _ _ _ => rfl)
  have hmem := hperm.mem_iff.mp (List.mem_flatMap.mpr ⟨s, hs, List.mem_singleton_self _⟩)
  obtain ⟨⟨q, i⟩, hq, hmem⟩ := List.mem_flatMap.mp hmem
  obtain ⟨s', hs', hmem⟩ := List.mem_flatMap.mp hmem
  have hwithin := requestSegments_within hq hs'
  obtain ⟨hreq, hstart, hstop⟩ : s.globalReqIdx = s'.globalReqIdx ∧ s.globalStart = s'.globalStart ∧
      s.globalStop = s'.globalStop := by simpa [ends] using hmem
  exact ⟨by rw [hreq, hstart]; exact hwithin.lower, by rw [hstart, hstop]; exact hwithin.ordered,
    by rw [hreq, hstop]; exact hwithin.upper⟩

theorem localSegments_within {r : Fin P} {s : BatchSegment} (hs : s ∈ localSegments (layoutSegments false b r)) :
    WithinRequest b s := by
  unfold localSegments at hs
  split at hs
  · cases List.mem_singleton.mp hs
    exact ⟨Nat.le_refl 0, Nat.le_refl 0, Nat.zero_le _⟩
  · exact layoutSegments_within hs

/-! ## The rows a part lists -/

section
variable {useMla : Bool} {padded : Option Nat} {l : BatchLayout P}

theorem restoreIdx_slice (start stop : Nat) (hle : stop ≤ b.numTokens) :
    ((restoreIdxNp b l).take stop).drop start = (List.range' start (stop - start)).map l.hiddenRestoreIdx := by
  unfold restoreIdxNp
  rw [← List.map_take, ← List.map_drop, List.take_range, Nat.min_eq_left hle, List.range_eq_range', List.drop_range']
  simp

theorem restore_interval (h : buildBatchLayout useMla b P padded = .ok l) (hP : 0 < P) (start n : Nat)
    (hle : start + n ≤ b.numTokens) :
    ∃ vs : List Nat, (List.range' start n).map l.hiddenRestoreIdx = vs.map some ∧ vs.map l.paddedGatherIdx = List.range' start n := by
  induction n generalizing start with
  | zero => exact ⟨[], rfl, rfl⟩
  | succ n ih =>
    obtain ⟨v, hv⟩ := restore_assigned h hP (show start < b.numTokens by omega)
    obtain ⟨vs, hvs, hgather⟩ := ih (start + 1) (by omega)
    refine ⟨v :: vs, ?_, ?_⟩
    · rw [List.range'_succ, List.map_cons, List.map_cons, hv, hvs]
    · rw [List.range'_succ, List.map_cons, gather_restore h hP hv, hgather]

end

/-- Between offsets `i` and `i + 1` the plan lists, once each and in order, the gathered rows of the request's new tokens up to
the last one of local row `i`. -/
structure CausalPlan (b : InputBatch) (l : BatchLayout P) (segs : List BatchSegment) (plan : PCPPlan) : Prop where
  offsets : plan.newCuKv.length = segs.length + 1
  total : plan.newCuKv.getLast? = some plan.newKvIdx.length
  row : ∀ i s, segs[i]? = some s → WithinRequest b s ∧ ∃ (lo hi : Nat) (vs : List Nat),
    plan.newCuKv[i]? = some lo ∧ plan.newCuKv[i + 1]? = some hi ∧ (plan.newKvIdx.take hi).drop lo = vs.map some ∧
      vs.Nodup ∧ hi = lo + vs.length ∧ vs.length ≤ plan.newMaxKv ∧
      vs.map l.paddedGatherIdx =
        List.range' (b.queryStartLoc s.globalReqIdx) (s.globalStop - b.queryStartLoc s.globalReqIdx)
  longest : ∃ i lo, plan.newCuKv[i]? = some lo ∧ plan.newCuKv[i + 1]? = some (lo + plan.newMaxKv)

theorem localSegments_ne_nil (segs : List BatchSegment) : localSegments segs ≠ [] := by
  unfold localSegments
  split
  · exact List.cons_ne_nil _ _
  · rename_i h
    exact fun hnil => h (by rw [hnil]; rfl)

theorem buildPlan_causal {padded : Option Nat} {l : BatchLayout P} (h : buildBatchLayout false b P padded = .ok l)
    (hprefill : b.hasPrefill = true) {dcp : DcpGroup} (hdcp : 1 < dcp.worldSize) (getDcpLocalSeqLens : DcpLocalSeqLens)
    (rank : Fin P) :
    ∃ plan, buildPlan b l false dcp getDcpLocalSeqLens rank = some plan ∧
      CausalPlan b l (localSegments (l.segmentsByRank rank)) plan := by
  have hsegs := (buildBatchLayout_spec h).2.1
  have hwithin : ∀ s ∈ localSegments (l.segmentsByRank rank), WithinRequest b s := by
    intro s hs
    rw [hsegs] at hs
    exact localSegments_within hs
  have hne := localSegments_ne_nil (l.segmentsByRank rank)
  have hguard : ¬(false = true ∨ dcp.worldSize ≤ 1 ∨ b.hasPrefill = false) := by
    rw [hprefill]
    simp
    omega
  unfold buildPlan
  rw [if_neg hguard]
  refine ⟨_, rfl, ?_⟩
  generalize localSegments (l.segmentsByRank rank) = segs at hwithin hne ⊢
  have hlens : (segs.map (newKvPart b l)).map List.length = segs.map (newKvLen b) := by
    rw [List.map_map]
    apply List.map_congr_left
    intro s hs
    have hupper := (hwithin s hs).upper.trans (queryStartLoc_le _)
    simp [newKvPart, newKvLen, restoreIdx_slice _ _ hupper]
  refine ⟨by simp, ?_, fun i s hi => ?_, ?_⟩
  · rw [List.getLast?_eq_getElem?, offsets_length, Nat.add_sub_cancel, offsets_getElem? (le_refl _), List.take_length,
      List.length_flatten, hlens]
  · have hs := List.mem_of_getElem? hi
    have hin := hwithin s hs
    have hilt : i < segs.length := (List.getElem?_eq_some_iff.mp hi).1
    have hupper := hin.upper.trans (queryStartLoc_le _)
    have hlower := hin.lower.trans hin.ordered
    obtain ⟨vs, hvs, hgather⟩ := restore_interval h rank.pos (b.queryStartLoc s.globalReqIdx)
      (s.globalStop - b.queryStartLoc s.globalReqIdx) (by omega)
    have hlen : vs.length = newKvLen b s := by
      have := congrArg List.length hgather
      simpa [newKvLen] using this
    have hnodup : vs.Nodup := by
      apply List.Nodup.of_map l.paddedGatherIdx
      rw [hgather]
      exact List.nodup_range'
    refine ⟨hin, _, _, vs, offsets_getElem? (by simp; omega), offsets_getElem? (by simp; omega), ?_, hnodup, ?_, ?_, hgather⟩
    · have hslice := flatten_slice (i := i) (p := newKvPart b l s) (show (segs.map (newKvPart b l))[i]? = some _ by simp [hi])
      rw [hlens] at hslice
      rw [hslice, newKvPart, restoreIdx_slice _ _ hupper, hvs]
    · rw [hlen]
      simp [List.take_add_one, hi]
    · rw [hlen]
      exact le_foldr_max (List.mem_map_of_mem hs)
  · have hmax := foldr_max_mem (l := segs.map (newKvLen b)) (by simpa using hne)
    obtain ⟨i, hi, he⟩ := List.getElem_of_mem hmax
    refine ⟨i, _, offsets_getElem? hi.le, ?_⟩
    dsimp only
    rw [offsets_getElem? hi, List.sum_take_succ _ _ hi, he]

/-- Two ranks: a continued prefill of five tokens, whose head and tail rows lie on one rank, before a decode of two. -/
theorem buildPlan_causal_mixed : ∃ (l : BatchLayout 2) (plan : PCPPlan),
    buildBatchLayout false ⟨[⟨5, 3, true⟩, ⟨2, 18, false⟩]⟩ 2 none = .ok l ∧
      buildPlan ⟨[⟨5, 3, true⟩, ⟨2, 18, false⟩]⟩ l false ⟨2, 1, 1⟩ (fun lens size rank interleave => lens.map fun n =>
        n / interleave / size * interleave + min (n % (size * interleave) - rank * interleave) interleave) 1 = some plan ∧
      CausalPlan ⟨[⟨5, 3, true⟩, ⟨2, 18, false⟩]⟩ l (localSegments (l.segmentsByRank 1)) plan := by
  obtain ⟨l, hl⟩ := buildBatchLayout_ok (show ∀ w ∈ (none : Option Nat),
    requiredNumTokens false ⟨[⟨5, 3, true⟩, ⟨2, 18, false⟩]⟩ 2 ≤ w by intro w hw; cases hw)
  obtain ⟨plan, hplan⟩ := buildPlan_causal hl rfl (show 1 < (DcpGroup.mk 2 1 1).worldSize by decide) (fun lens size rank interleave => lens.map fun n =>
    n / interleave / size * interleave + min (n % (size * interleave) - rank * interleave) interleave) 1
  exact ⟨l, plan, hl, hplan⟩

end VllmHcu.Pcp
