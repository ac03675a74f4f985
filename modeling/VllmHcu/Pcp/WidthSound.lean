import Mathlib.Algebra.Order.BigOperators.Group.List
import VllmHcu.Pcp.ShapeSound

/-!
# Widths of the ranks

The width of a rank is the sum over the requests of the tokens of their rows.
`layout_equal_shapes`: with MLA all ranks agree on the rows and on the tokens of
each request, so they agree on the width.

`dispatch_width`: the width that the runner asks for is the one that the layout
needs, in both modes, and the profiled budget covers it.
-/

namespace VllmHcu.Pcp

variable {P : Nat}

/-! ## Whole ranks -/

section
variable (useMla : Bool) (b : InputBatch) (r : Fin P)

theorem segmentsForRank_reqIdx {s : BatchSegment} (hs : s ∈ segmentsForRank b r) : s.globalReqIdx < b.reqs.length := by
  have hperm := segmentsForRank_flatMap_perm b r (fun s => [s.globalReqIdx]) (fun _ _ _ => rfl)
  have hm : s.globalReqIdx ∈ (segmentsForRank b r).flatMap fun s => [s.globalReqIdx] :=
    List.mem_flatMap.mpr ⟨s, hs, List.mem_singleton_self _⟩
  obtain ⟨p, hp, hm⟩ := List.mem_flatMap.mp (hperm.mem_iff.mp hm)
  obtain ⟨s', hs', hm⟩ := List.mem_flatMap.mp hm
  rw [List.mem_singleton.mp hm, requestSegments_reqIdx hs']
  simpa using (List.mem_zipIdx hp).2.1

theorem equalizeRequest_reqIdx {segs : Fin P → List BatchSegment} {n i : Nat} (hi : i < n) (q : Request)
    (h : ∀ r, ∀ s ∈ segs r, s.globalReqIdx < n) {s : BatchSegment} (hs : s ∈ equalizeRequest useMla b segs i q r) :
    s.globalReqIdx < n := by
  unfold equalizeRequest at hs
  split at hs
  · exact h r s hs
  · split at hs
    · exact h r s hs
    · rcases List.mem_append.mp hs with hs | hs
      · exact h r s hs
      · obtain ⟨row, _, rfl⟩ := List.mem_map.mp hs
        exact hi

theorem foldl_reqIdx {n : Nat} {l : List (Request × Nat)} (hl : ∀ p ∈ l, p.2 < n) (segs : Fin P → List BatchSegment)
    (h : ∀ r, ∀ s ∈ segs r, s.globalReqIdx < n) {s : BatchSegment}
    (hs : s ∈ l.foldl (fun segs qi => equalizeRequest useMla b segs qi.2 qi.1) segs r) : s.globalReqIdx < n := by
  induction l generalizing segs with
  | nil => exact h r s hs
  | cons x l ih =>
    apply ih (fun p hp => hl p (List.mem_cons_of_mem _ hp)) _ _ hs
    intro r s hs
    exact equalizeRequest_reqIdx useMla b r (hl x List.mem_cons_self) x.1 h hs

theorem layoutSegments_reqIdx {s : BatchSegment} (hs : s ∈ layoutSegments useMla b r) :
    s.globalReqIdx < b.reqs.length := by
  have hperm := reorderSegments_flatMap_perm b (fun s => [s.globalReqIdx]) (fun _ _ _ => rfl)
    (equalizeRequests useMla b (segmentsForRank b) r)
  have hm : s.globalReqIdx ∈ (layoutSegments useMla b r).flatMap fun s => [s.globalReqIdx] :=
    List.mem_flatMap.mpr ⟨s, hs, List.mem_singleton_self _⟩
  obtain ⟨s', hs', hm⟩ := List.mem_flatMap.mp (hperm.mem_iff.mp hm)
  rw [List.mem_singleton.mp hm]
  refine foldl_reqIdx useMla b r ?_ _ (fun r s hs => segmentsForRank_reqIdx b r hs) hs'
  intro p hp
  simpa using (List.mem_zipIdx hp).2.1

theorem sum_range_reqs {f : Request → Nat} {g : Nat → Nat} (h : ∀ q i, (q, i) ∈ b.reqs.zipIdx → g i = f q) :
    ((List.range b.reqs.length).map g).sum = (b.reqs.map f).sum := by
  congr 1
  apply List.ext_getElem
  · simp
  · intro i h₁ h₂
    have hi : i < b.reqs.length := by simpa using h₂
    have hm : (b.reqs[i], i) ∈ b.reqs.zipIdx := List.mem_zipIdx_iff_getElem?.mpr (List.getElem?_eq_getElem hi)
    simpa using h _ _ hm

theorem segmentTokens_layout {f : Request → Nat}
    (h : ∀ q i, (q, i) ∈ b.reqs.zipIdx → segmentTokens (reqRows (layoutSegments useMla b r) i) = f q) :
    segmentTokens (layoutSegments useMla b r) = (b.reqs.map f).sum := by
  have hidx : ∀ s ∈ layoutSegments useMla b r, s.globalReqIdx < b.reqs.length := fun s => layoutSegments_reqIdx useMla b r
  have hsum := sum_by_request (·.numTokens) hidx
  exact hsum.trans (sum_range_reqs b h)

theorem length_layout {k : Nat} (h : ∀ i, (reqRows (layoutSegments useMla b r) i).length ≤ k) :
    (layoutSegments useMla b r).length ≤ k * b.reqs.length := by
  have hidx : ∀ s ∈ layoutSegments useMla b r, s.globalReqIdx < b.reqs.length := fun s => layoutSegments_reqIdx useMla b r
  have hsum := sum_by_request (fun _ => 1) hidx
  simp only [List.map_const', List.sum_replicate_nat, Nat.mul_one] at hsum
  rw [hsum]
  calc ((List.range b.reqs.length).map fun i => (reqRows (layoutSegments useMla b r) i).length).sum
    _ ≤ ((List.range b.reqs.length).map fun _ => k).sum := List.sum_le_sum fun i _ => h i
    _ = k * b.reqs.length := by simp [Nat.mul_comm]

end

/-- The width of a request on a rank. -/
def requestWidth (useMla : Bool) (r : Fin P) (q : Request) : Nat :=
  if q.isPrefilling then
    if useMla then maxOver fun r : Fin P => rankTokens q.numScheduledTokens r else rankTokens q.numScheduledTokens r
  else q.numScheduledTokens

theorem requestWidth_rows (useMla : Bool) {b : InputBatch} {q : Request} {i : Nat} (hq : (q, i) ∈ b.reqs.zipIdx) (r : Fin P) :
    segmentTokens (reqRows (layoutSegments useMla b r) i) = requestWidth useMla r q := by
  unfold requestWidth
  by_cases hp : q.isPrefilling = true
  · rw [if_pos hp]
    cases useMla with
    | true =>
      obtain ⟨k, _, hall⟩ := prefill_rows r.pos hq hp
      exact (hall r).2
    | false =>
      have hrows := layout_rows_kept false hq r (by simp)
      rw [tokens_congr hrows]
      by_cases hn : q.numScheduledTokens = 0
      · rw [requestSegments_zero hn, hn]
        exact (rankTokens_zero r).symm
      · exact (requestSegments_prefill_shapes hp hn r).2.2
  · rw [if_neg hp]
    have hp : q.isPrefilling = false := by simpa using hp
    have hrows := layout_rows_kept useMla hq r (by simp [hp])
    rw [tokens_congr hrows]
    by_cases hn : q.numScheduledTokens = 0
    · rw [requestSegments_zero hn, hn]
      rfl
    · have hshape := requestSegments_decode (b := b) (i := i) hp hn r
      have hone : (requestSegments b r i q).map rowShape =
          [(⟨i, b.queryStartLoc i, b.queryStartLoc i + q.numScheduledTokens, 0, 0, 0⟩ : BatchSegment)].map rowShape := hshape
      rw [tokens_congr (List.Perm.of_eq hone)]
      simp [segmentTokens, BatchSegment.numTokens, BatchSegment.numActualTokens]

theorem layout_width (useMla : Bool) (b : InputBatch) (r : Fin P) :
    segmentTokens (layoutSegments useMla b r) = (b.reqs.map (requestWidth useMla r)).sum :=
  segmentTokens_layout useMla b r fun _ _ hq => requestWidth_rows useMla hq r

/-- All ranks bring one shape to the collectives. -/
structure EqualShapes (b : InputBatch) (l : BatchLayout P) : Prop where
  prefillRows : ∀ q i, (q, i) ∈ b.reqs.zipIdx → q.isPrefilling = true → ∀ r r',
    (reqRows (l.segmentsByRank r) i).length = (reqRows (l.segmentsByRank r') i).length
  prefillTokens : ∀ q i, (q, i) ∈ b.reqs.zipIdx → q.isPrefilling = true → ∀ r r',
    segmentTokens (reqRows (l.segmentsByRank r) i) = segmentTokens (reqRows (l.segmentsByRank r') i)
  decodeRows : ∀ q i, (q, i) ∈ b.reqs.zipIdx → q.isPrefilling = false → ∀ r r',
    (reqRows (l.segmentsByRank r) i).map rowShape = (reqRows (l.segmentsByRank r') i).map rowShape
  maxRows : ∀ i r, (reqRows (l.segmentsByRank r) i).length ≤ 3
  tokens : ∀ r r', l.perRankNumTokens r = l.perRankNumTokens r'

theorem reqRows_length_le (b : InputBatch) (i : Nat) (r : Fin P) : (reqRows (layoutSegments true b r) i).length ≤ 3 := by
  by_cases hi : i < b.reqs.length
  · have hq : (b.reqs[i], i) ∈ b.reqs.zipIdx := List.mem_zipIdx_iff_getElem?.mpr (List.getElem?_eq_getElem hi)
    by_cases hp : b.reqs[i].isPrefilling = true
    · obtain ⟨k, hk, hall⟩ := prefill_rows r.pos hq hp
      rw [(hall r).1]
      exact hk
    · have hrows := congrArg List.length (decode_rows true hq (by simpa using hp) r)
      rw [List.length_map] at hrows
      rw [hrows]
      split
      · exact Nat.zero_le 3
      · exact Nat.le_of_ble_eq_true rfl
  · have hnil : reqRows (layoutSegments true b r) i = [] := by
      apply List.filter_eq_nil_iff.mpr
      intro s hs
      have := layoutSegments_reqIdx true b r hs
      simp
      omega
    rw [hnil]
    exact Nat.zero_le 3

/-- The layout gives every rank one shape for each request, whatever the batch. -/
theorem layout_equal_shapes (b : InputBatch) (P : Nat) :
    (∀ pre q i post, b.reqs.zipIdx = pre ++ (q, i) :: post → ∀ r : Fin P,
      missingRowsAssert (pre.foldl (fun segs qi => equalizeRequest true b segs qi.2 qi.1) (segmentsForRank b)) i r = true) ∧
    ∀ padded (l : BatchLayout P), buildBatchLayout true b P padded = .ok l →
      EqualShapes b l ∧ ∀ maxNumSeqs, b.reqs.length ≤ maxNumSeqs → ∀ r, (l.segmentsByRank r).length ≤ 3 * maxNumSeqs := by
  constructor
  · intro pre q i post _ r
    exact missingRows_ok _ i r
  · intro padded l h
    have hsegs := (buildBatchLayout_spec h).2.1
    have htokens : ∀ r, l.perRankNumTokens r = segmentTokens (layoutSegments true b r) := by
      unfold buildBatchLayout at h
      dsimp only at h
      split at h
      · cases h
      · cases h
        exact fun r => rfl
    refine ⟨⟨?_, ?_, ?_, ?_, ?_⟩, ?_⟩
    · intro q i hq hp r r'
      obtain ⟨k, _, hall⟩ := prefill_rows r.pos hq hp
      rw [hsegs, (hall r).1, (hall r').1]
    · intro q i hq hp r r'
      obtain ⟨k, _, hall⟩ := prefill_rows r.pos hq hp
      rw [hsegs, (hall r).2, (hall r').2]
    · intro q i hq hp r r'
      rw [hsegs, decode_rows true hq hp r, decode_rows true hq hp r']
    · intro i r
      rw [hsegs]
      exact reqRows_length_le b i r
    · intro r r'
      rw [htokens, htokens, layout_width, layout_width]
      rfl
    · intro m hm r
      have hlen := length_layout true b r fun i => reqRows_length_le b i r
      rw [hsegs]
      exact hlen.trans (Nat.mul_le_mul_left 3 hm)

/-- A partial last chunk: rank 0 gets a third row for its missing token. -/
theorem layout_equal_shapes_mixed :
    ∃ l : BatchLayout 2, buildBatchLayout true ⟨[⟨7, 0, true⟩, ⟨1, 5, false⟩]⟩ 2 none = .ok l ∧
      EqualShapes ⟨[⟨7, 0, true⟩, ⟨1, 5, false⟩]⟩ l ∧ ∀ r, (l.segmentsByRank r).length ≤ 3 * 2 := by
  obtain ⟨hshapes, hrows⟩ := (layout_equal_shapes ⟨[⟨7, 0, true⟩, ⟨1, 5, false⟩]⟩ 2).2 none _ rfl
  exact ⟨_, rfl, hshapes, hrows 2 (by decide)⟩

/-! ## Two formulas for one width -/

theorem foldl_max_eq (f : Fin P → Nat) :
    (List.finRange P).foldl (fun largest r => max largest (f r)) 0 = maxOver f := by
  unfold maxOver
  rw [← List.foldl_map]
  cases hl : (List.finRange P).map f with
  | nil => rfl
  | cons a l =>
    rw [List.max?_cons', List.foldl_cons, Nat.zero_max]
    rfl

theorem getNumTokensForDispatch_eq (useMla : Bool) (b : InputBatch) (hP : 0 < P) :
    getNumTokensForDispatch useMla b P = requiredNumTokens useMla b P := by
  unfold requiredNumTokens
  simp only [layout_width]
  cases useMla with
  | true =>
    unfold getNumTokensForDispatch
    rw [if_pos rfl]
    exact (maxOver_const hP fun r => rfl).symm
  | false => exact foldl_max_eq fun r : Fin P => (b.reqs.map (requestWidth false r)).sum

/-! ## The budget -/

theorem rankTokens_le (n : Nat) (r : Fin P) : rankTokens n r ≤ n ∧ P * rankTokens n r ≤ n + P * 2 := by
  have hP := r.pos
  obtain ⟨_, hhi⟩ := chunkSize_spec (n := n) hP
  have hr := r.isLt
  unfold rankTokens rankSegments
  simp only [segment_numTokens]
  generalize (n + 2 * P - 1) / (2 * P) = c at *
  have h1 : r.val * c + c ≤ (2 * P - 1 - r.val) * c := by
    rw [← Nat.add_one_mul]
    apply Nat.mul_le_mul_right
    omega
  constructor
  · omega
  · have h2 : min (r.val * c + c) n - min (r.val * c) n + (min ((2 * P - 1 - r.val) * c + c) n - min ((2 * P - 1 - r.val) * c) n) ≤ 2 * c := by
      omega
    have h3 := Nat.mul_le_mul_left P h2
    have h4 : P * (2 * c) = 2 * P * c := by ring
    omega

theorem maxOver_mem (hP : 0 < P) (f : Fin P → Nat) : ∃ r, maxOver f = f r := by
  unfold maxOver
  cases hm : ((List.finRange P).map f).max? with
  | none =>
    have hlen := congrArg List.length (List.max?_eq_none_iff.mp hm)
    simp at hlen
    omega
  | some a =>
    obtain ⟨r, _, rfl⟩ := List.mem_map.mp (List.max?_eq_some_iff.mp hm).1
    exact ⟨r, rfl⟩

theorem requestWidth_le (useMla : Bool) (r : Fin P) {q : Request} {d : Nat}
    (hd : q.isPrefilling = false → q.numScheduledTokens ≤ d) :
    requestWidth useMla r q ≤ q.numScheduledTokens ∧
      P * requestWidth useMla r q ≤ q.numScheduledTokens + P * max d 2 := by
  have hchunk : ∀ r : Fin P, rankTokens q.numScheduledTokens r ≤ q.numScheduledTokens ∧
      P * rankTokens q.numScheduledTokens r ≤ q.numScheduledTokens + P * max d 2 := by
    intro r
    obtain ⟨h1, h2⟩ := rankTokens_le q.numScheduledTokens r
    have := Nat.mul_le_mul_left P (Nat.le_max_right d 2)
    exact ⟨h1, by omega⟩
  unfold requestWidth
  split
  · split
    · -- the widest rank is one of the ranks
      obtain ⟨r', hr'⟩ := maxOver_mem r.pos fun r : Fin P => rankTokens q.numScheduledTokens r
      rw [hr']
      exact hchunk r'
    · exact hchunk r
  · rename_i hp
    have hq := hd (by simpa using hp)
    refine ⟨le_refl _, ?_⟩
    have := Nat.mul_le_mul_left P (hq.trans (Nat.le_max_left d 2))
    omega

theorem widths_le (useMla : Bool) (r : Fin P) {d : Nat} {reqs : List Request}
    (hd : ∀ q ∈ reqs, q.isPrefilling = false → q.numScheduledTokens ≤ d) :
    (reqs.map (requestWidth useMla r)).sum ≤ (reqs.map (·.numScheduledTokens)).sum ∧
      P * (reqs.map (requestWidth useMla r)).sum ≤
        (reqs.map (·.numScheduledTokens)).sum + P * (reqs.length * max d 2) := by
  induction reqs with
  | nil => simp
  | cons q reqs ih =>
    obtain ⟨h1, h2⟩ := requestWidth_le useMla r (hd q List.mem_cons_self)
    obtain ⟨h3, h4⟩ := ih fun q hq => hd q (List.mem_cons_of_mem _ hq)
    simp only [List.map_cons, List.sum_cons, List.length_cons, Nat.mul_add, Nat.add_mul, Nat.one_mul]
    constructor
    · omega
    · omega

theorem width_le_budget (c : ProfileConfig) (hP : 1 < c.pcpSize) {N k W : Nat} (hk : k ≤ c.maxNumReqs)
    (hN : N ≤ c.maxNumTokens) (h1 : W ≤ N) (h2 : c.pcpSize * W ≤ N + c.pcpSize * (k * max c.decodeQueryLen 2)) :
    W ≤ c.targetBudget := by
  unfold ProfileConfig.targetBudget
  split
  · omega
  · have hdiv : (c.maxNumTokens + c.pcpSize - 1) / c.pcpSize ≤
        (c.maxNumTokens + c.pcpSize - 1) / c.pcpSize * 9 / 8 := by omega
    have hrep : k * max c.decodeQueryLen 2 ≤ c.maxNumReqs * max c.decodeQueryLen 2 := Nat.mul_le_mul_right _ hk
    have hpart : W - k * max c.decodeQueryLen 2 ≤ (c.maxNumTokens + c.pcpSize - 1) / c.pcpSize := by
      apply (Nat.le_div_iff_mul_le (by omega)).mpr
      rw [Nat.mul_comm, Nat.mul_sub]
      omega
    dsimp only
    omega

/-- The runner's width is the layout's width, and the profile run reserves it. -/
theorem dispatch_width (c : ProfileConfig) (hP : 1 < c.pcpSize) (useMla : Bool) (b : InputBatch) :
    getNumTokensForDispatch useMla b c.pcpSize = requiredNumTokens useMla b c.pcpSize ∧
    (∀ padded, getNumTokensForDispatch useMla b c.pcpSize ≤ padded →
      ∃ l : BatchLayout c.pcpSize, buildBatchLayout useMla b c.pcpSize (some padded) = .ok l) ∧
    (b.reqs.length ≤ c.maxNumReqs → b.numTokens ≤ c.maxNumTokens →
      (∀ q ∈ b.reqs, q.isPrefilling = false → q.numScheduledTokens ≤ c.decodeQueryLen) →
      getNumTokensForDispatch useMla b c.pcpSize ≤ c.targetBudget) := by
  have heq := getNumTokensForDispatch_eq useMla b (show 0 < c.pcpSize by omega)
  refine ⟨heq, ?_, ?_⟩
  · intro padded hle
    apply buildBatchLayout_ok
    intro w hw
    cases hw
    rw [← heq]
    exact hle
  · intro hk hN hd
    rw [heq]
    apply maxOver_le
    intro r
    rw [layout_width]
    obtain ⟨h1, h2⟩ := widths_le useMla r hd
    exact width_le_budget c hP hk hN h1 h2

/-- Two ranks, a prefill of seven tokens and a decode of one, padded to eight. -/
theorem dispatch_width_mixed :
    (∃ l : BatchLayout 2, buildBatchLayout true ⟨[⟨7, 0, true⟩, ⟨1, 5, false⟩]⟩ 2 (some 8) = .ok l) ∧
      getNumTokensForDispatch true ⟨[⟨7, 0, true⟩, ⟨1, 5, false⟩]⟩ 2 ≤
        ProfileConfig.targetBudget ⟨2, 16, 2, 1, false⟩ := by
  obtain ⟨_, hlayout, hbudget⟩ := dispatch_width ⟨2, 16, 2, 1, false⟩ (by decide) true ⟨[⟨7, 0, true⟩, ⟨1, 5, false⟩]⟩
  exact ⟨hlayout 8 (by decide), hbudget (by decide) (by decide) (by decide)⟩

end VllmHcu.Pcp
