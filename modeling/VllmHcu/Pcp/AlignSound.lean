import VllmHcu.Pcp.RowSound

/-!
# Where the decode rows of a rank sit

The rows of a rank begin with the rows that do not start a sequence, in request
order: the decode rows and the leading tokens of the prefills. A decode row has
the same local row on two ranks exactly when the prefills before it have equally
many leading tokens on both.
-/

namespace VllmHcu.Pcp

/-! ## Leading rows -/

/-- The tokens of one interval that sort before the rows starting at position 0. -/
def segLead (q : Request) (s : RankSegment) : Nat :=
  if q.numComputedTokens + s.start = 0 then 0 else s.numTokens

/-- The tokens of `q` on rank `r` that sort before the rows starting at position 0. -/
def leadTokens {P : Nat} (r : Fin P) (q : Request) : Nat :=
  if q.isPrefilling then
    segLead q (rankSegments q.numScheduledTokens r).1 + segLead q (rankSegments q.numScheduledTokens r).2
  else 0

def leadSum {P : Nat} (r : Fin P) (qs : List Request) : Nat := (qs.map (leadTokens r)).sum

/-- Before every decode request, all ranks hold equally many leading prefill tokens. -/
def DecodeRowsAligned (b : InputBatch) (P : Nat) : Prop :=
  ∀ i q, b.reqs[i]? = some q → q.isPrefilling = false →
    ∀ r r' : Fin P, leadSum r (b.reqs.take i) = leadSum r' (b.reqs.take i)

/-- The decode flags of the leading rows of `q`. -/
def leadFlags {P : Nat} (r : Fin P) (q : Request) : List Bool :=
  if q.isPrefilling then List.replicate (leadTokens r q) false
  else List.replicate q.numScheduledTokens true

def leadRows (b : InputBatch) {P : Nat} (r : Fin P) : List Row :=
  b.reqs.zipIdx.flatMap fun qi =>
    ((requestSegments b r qi.2 qi.1).filter fun s => !isPurePrefill b s).flatMap (segRows b)

theorem rowsOf_filter_place (b : InputBatch) (p : BatchSegment → Bool)
    (hp : ∀ s a c, p { s with localStart := a, localStop := c } = p s) (off : Nat) (segs : List BatchSegment) :
    rowsOf b ((place off segs).filter p) = rowsOf b (segs.filter p) := by
  simp only [rowsOf, ← flatMap_ite_filter]
  exact flatMap_place _ (fun s a c => by rw [hp]; rfl) segs off

theorem sortByFlag_filter_not {α : Type*} (key : α → Bool) (l : List α) :
    (sortByFlag key l).filter (fun a => !key a) = l.filter fun a => !key a := by
  have : (l.filter key).filter (fun a => !key a) = [] := by
    rw [List.filter_filter]
    exact List.filter_eq_nil_iff.mpr fun a _ => by simp
  rw [sortByFlag, List.filter_append, List.filter_filter, this]
  simp

theorem isDecode_of_rowsOf_pure {b : InputBatch} {segs : List BatchSegment} {c : Row}
    (hc : c ∈ rowsOf b (segs.filter (isPurePrefill b))) : c.isDecode = false := by
  obtain ⟨s, hs, hr⟩ := List.mem_flatMap.mp hc
  have hpure := (List.mem_filter.mp hs).2
  have hd : isDecodeRow b s = false := by
    simp only [isPurePrefill, Bool.and_eq_true] at hpure
    simp [isDecodeRow, hpure.1]
  rcases List.mem_append.mp hr with h | h
  · obtain ⟨t, _, rfl⟩ := List.mem_map.mp h
    exact hd
  · rw [List.eq_of_mem_replicate h]; rfl

theorem isDecode_of_rowsOf_pads {b : InputBatch} {segs : List BatchSegment}
    (hz : ∀ s ∈ segs, s.numActualTokens = 0) {c : Row} (hc : c ∈ rowsOf b segs) : c.isDecode = false := by
  obtain ⟨s, hs, hr⟩ := List.mem_flatMap.mp hc
  simp only [segRows, segTokens, hz s hs, List.range'_zero, List.map_nil, List.nil_append] at hr
  rw [List.eq_of_mem_replicate hr]
  rfl

/-- The rows of a rank: the leading rows, then rows that are not decode rows. -/
theorem rankRows_split {m : HcuPCPManager} {b : InputBatch} {padded : Option Nat}
    {l : BatchLayout m.pcpSize} (hl : m.buildBatchLayout b padded = .ok l) (r : Fin m.pcpSize) :
    ∃ rest, rankRows b l r = leadRows b r ++ rest ∧ ∀ c ∈ rest, c.isDecode = false := by
  have hpl : ∀ s a c, isPurePrefill b { s with localStart := a, localStop := c } = isPurePrefill b s :=
    fun _ _ _ => rfl
  obtain ⟨pads, hp, hz⟩ := equalizeRequests_append m.useMla b (segmentsForRank b) r
  have hlead : rowsOf b ((segmentsForRank b r).filter fun s => !isPurePrefill b s) = leadRows b r := by
    rw [segmentsForRank, reorderSegments, rowsOf_filter_place b _ (fun s a c => by rw [hpl]),
      sortByFlag_filter_not, rowsOf_filter_place b _ (fun s a c => by rw [hpl]), List.filter_flatMap, rowsOf,
      List.flatMap_assoc]
    rfl
  obtain ⟨_, hs, _⟩ := buildBatchLayout_spec hl
  have hrows : rowsOf b (l.segmentsByRank r) =
      leadRows b r ++ (rowsOf b (pads.filter fun s => !isPurePrefill b s) ++
        rowsOf b ((segmentsForRank b r ++ pads).filter (isPurePrefill b))) := by
    rw [hs]
    dsimp only [layoutSegments]
    rw [reorderSegments, rowsOf_place, hp, sortByFlag, List.filter_append, ← hlead]
    simp only [rowsOf, List.flatMap_append, List.append_assoc]
  refine ⟨_, by rw [rankRows, hrows, List.append_assoc], ?_⟩
  intro c hc
  rcases List.mem_append.mp hc with hc | hc
  · rcases List.mem_append.mp hc with hc | hc
    · exact isDecode_of_rowsOf_pads (fun s hs => hz s (List.mem_filter.mp hs).1) hc
    · exact isDecode_of_rowsOf_pure hc
  · rw [List.eq_of_mem_replicate hc]; rfl

theorem numComputed_of_zipIdx {b : InputBatch} {q : Request} {i : Nat} (h : (q, i) ∈ b.reqs.zipIdx) :
    b.numComputedTokens i = q.numComputedTokens := by
  rw [List.mem_zipIdx_iff_getElem?] at h
  simp [InputBatch.numComputedTokens, h]

/-- The flags of one interval's rows, once the rows starting a sequence are removed. -/
theorem interval_flags {b : InputBatch} {q : Request} {i : Nat} (h : (q, i) ∈ b.reqs.zipIdx)
    (s : RankSegment) :
    ((if isPurePrefill b
          { globalReqIdx := i, globalStart := b.queryStartLoc i + s.start,
            globalStop := b.queryStartLoc i + s.stop } then []
      else segRows b
          { globalReqIdx := i, globalStart := b.queryStartLoc i + s.start,
            globalStop := b.queryStartLoc i + s.stop }).map Row.isDecode) =
      if q.isPrefilling then List.replicate (segLead q s) false
      else List.replicate s.numTokens true := by
  have hlen : b.queryStartLoc i + s.stop - (b.queryStartLoc i + s.start) = s.numTokens := by
    simp [RankSegment.numTokens]; omega
  have hpure : isPurePrefill b
      { globalReqIdx := i, globalStart := b.queryStartLoc i + s.start,
        globalStop := b.queryStartLoc i + s.stop } =
      (q.isPrefilling && q.numComputedTokens + s.start == 0) := by
    simp [isPurePrefill, isPrefilling_of_zipIdx h, numComputed_of_zipIdx h]
  have hrows : (segRows b
      { globalReqIdx := i, globalStart := b.queryStartLoc i + s.start,
        globalStop := b.queryStartLoc i + s.stop }).map Row.isDecode =
      List.replicate s.numTokens (!q.isPrefilling) := by
    simp [segRows, segTokens, BatchSegment.numActualTokens, hlen, isDecodeRow, isPrefilling_of_zipIdx h,
      Row.isDecode, Function.comp_def]
  rw [hpure]
  by_cases hq : q.isPrefilling = true
  · by_cases h0 : q.numComputedTokens + s.start = 0
    · simp [hq, h0, segLead]
    · simp only [hq, Bool.true_and, beq_iff_eq, h0, ite_false, ite_true, segLead]
      simpa [hq] using hrows
  · simp only [hq, Bool.false_and, Bool.false_eq_true, ite_false]
    simpa [hq] using hrows

theorem request_flags {b : InputBatch} {P : Nat} (r : Fin P) {q : Request} {i : Nat}
    (h : (q, i) ∈ b.reqs.zipIdx) :
    ((((requestSegments b r i q).filter fun s => !isPurePrefill b s).flatMap (segRows b)).map
      Row.isDecode) = leadFlags r q := by
  rw [← flatMap_ite_filter, List.map_flatMap]
  unfold requestSegments
  by_cases h0 : q.numScheduledTokens = 0
  · simp [h0, leadFlags, leadTokens, segLead, rankSegments, segment, RankSegment.numTokens]
  · rw [if_neg h0]
    dsimp only
    rw [List.flatMap_map]
    have hdrop : ∀ (segs : List RankSegment),
        ((segs.filter fun s => s.numTokens != 0).flatMap fun s =>
          (if (!isPurePrefill b
                { globalReqIdx := i, globalStart := b.queryStartLoc i + s.start,
                  globalStop := b.queryStartLoc i + s.stop }) = true then
            segRows b { globalReqIdx := i, globalStart := b.queryStartLoc i + s.start,
                        globalStop := b.queryStartLoc i + s.stop } else []).map Row.isDecode) =
        segs.flatMap fun s => if q.isPrefilling then List.replicate (segLead q s) false
          else List.replicate s.numTokens true := by
      intro segs
      rw [← flatMap_ite_filter]
      refine List.flatMap_congr fun s _ => ?_
      by_cases hn : s.numTokens = 0
      · simp [hn, segLead]
      · rw [if_pos (by simpa using hn), ← interval_flags h s]
        congr 1
        by_cases hp : isPurePrefill b
            { globalReqIdx := i, globalStart := b.queryStartLoc i + s.start,
              globalStop := b.queryStartLoc i + s.stop } = true <;> simp [hp]
    rw [hdrop]
    by_cases hq : q.isPrefilling = true
    · simp [hq, leadFlags, leadTokens, List.replicate_append_replicate]
    · simp [hq, leadFlags, RankSegment.numTokens]

theorem leadRows_flags (b : InputBatch) {P : Nat} (r : Fin P) :
    (leadRows b r).map Row.isDecode = b.reqs.flatMap (leadFlags r) := by
  rw [leadRows, List.map_flatMap]
  have : (b.reqs.zipIdx.flatMap fun qi => leadFlags r qi.1) = b.reqs.flatMap (leadFlags r) := by
    conv_rhs => rw [← List.zipIdx_map_fst 0 b.reqs, List.flatMap_map]
  rw [← this]
  exact List.flatMap_congr fun qi hqi => request_flags r hqi

theorem leadRows_some {b : InputBatch} {P : Nat} {r : Fin P} {c : Row} (hc : c ∈ leadRows b r) :
    ∃ t d, c = some (t, d) := by
  obtain ⟨qi, _, hqi⟩ := List.mem_flatMap.mp hc
  obtain ⟨s, hs, hr⟩ := List.mem_flatMap.mp hqi
  have hpad : s.paddingTokens = 0 := by
    have := (List.mem_filter.mp hs).1
    unfold requestSegments at this
    split at this
    · cases this
    · obtain ⟨_, _, rfl⟩ := List.mem_map.mp this
      rfl
  simp only [segRows, hpad, List.replicate_zero, List.append_nil] at hr
  obtain ⟨t, _, rfl⟩ := List.mem_map.mp hr
  exact ⟨t, _, rfl⟩

/-! ## Masks and the falses before a true -/

/-- How many entries `false` stand before the `k`-th entry `true`. -/
def falsesBefore : List Bool → Nat → Nat
  | [], _ => 0
  | false :: l, k => falsesBefore l k + 1
  | true :: _, 0 => 0
  | true :: l, k + 1 => falsesBefore l k

theorem falsesBefore_replicate_false (n k : Nat) (l : List Bool) :
    falsesBefore (List.replicate n false ++ l) k = falsesBefore l k + n := by
  induction n with
  | zero => rfl
  | succ n ih => rw [List.replicate_succ, List.cons_append, falsesBefore, ih]; omega

theorem falsesBefore_replicate_true_lt {n k : Nat} (l : List Bool) (h : k < n) :
    falsesBefore (List.replicate n true ++ l) k = 0 := by
  induction n generalizing k with
  | zero => cases h
  | succ n ih =>
    cases k with
    | zero => rfl
    | succ k => exact ih (by omega)

theorem falsesBefore_replicate_true_add (n k : Nat) (l : List Bool) :
    falsesBefore (List.replicate n true ++ l) (n + k) = falsesBefore l k := by
  induction n with
  | zero => simp
  | succ n ih => rw [List.replicate_succ, List.cons_append, Nat.add_right_comm]; exact ih

/-- Two masks with the same rows before each decode row are the same mask. -/
theorem eq_of_falsesBefore : ∀ {l₁ l₂ : List Bool}, l₁.length = l₂.length →
    l₁.count true = l₂.count true →
    (∀ k < l₁.count true, falsesBefore l₁ k = falsesBefore l₂ k) → l₁ = l₂
  | [], [], _, _, _ => rfl
  | false :: l₁, false :: l₂, hn, hc, h => by
    simp only [List.count_cons, beq_iff_eq, Bool.false_eq_true, ite_false, Nat.add_zero] at hc h
    rw [eq_of_falsesBefore (Nat.succ.inj hn) hc fun k hk => Nat.succ.inj (h k hk)]
  | true :: l₁, true :: l₂, hn, hc, h => by
    simp only [List.count_cons, beq_self_eq_true, ite_true] at hc h
    rw [eq_of_falsesBefore (Nat.succ.inj hn) (by omega) fun k hk => h (k + 1) (by omega)]
  | true :: l₁, false :: l₂, _, _, h => by
    have := h 0 (by simp)
    simp [falsesBefore] at this
  | false :: l₁, true :: l₂, _, hc, h => by
    have := h 0 (by rw [hc]; simp)
    simp [falsesBefore] at this

/-- The number of decode tokens. -/
def decodeCount (qs : List Request) : Nat :=
  (qs.map fun q => if q.isPrefilling then 0 else q.numScheduledTokens).sum

theorem decodeCount_cons (q : Request) (qs : List Request) :
    decodeCount (q :: qs) = (if q.isPrefilling then 0 else q.numScheduledTokens) + decodeCount qs := by
  rw [decodeCount, List.map_cons, List.sum_cons, decodeCount]

theorem leadFlags_count {P : Nat} (r : Fin P) (qs : List Request) :
    (qs.flatMap (leadFlags r)).count true = decodeCount qs := by
  induction qs with
  | nil => rfl
  | cons q qs ih =>
    rw [List.flatMap_cons, List.count_append, ih, decodeCount_cons]
    congr 1
    by_cases hq : q.isPrefilling = true
    · simp [leadFlags, hq, List.count_replicate]
    · simp [leadFlags, hq]

/-- The `k`-th decode token belongs to one request, the same on every rank. -/
theorem falsesBefore_lead {P : Nat} (tail : Fin P → List Bool) : ∀ (qs : List Request) (k : Nat),
    k < decodeCount qs → ∃ i q, qs[i]? = some q ∧ q.isPrefilling = false ∧
      ∀ r : Fin P, falsesBefore (qs.flatMap (leadFlags r) ++ tail r) k = leadSum r (qs.take i)
  | [], k, hk => by cases hk
  | q :: qs, k, hk => by
    rw [decodeCount, List.map_cons, List.sum_cons] at hk
    by_cases hq : q.isPrefilling = true
    · obtain ⟨i, q', hi, hd, hf⟩ := falsesBefore_lead tail qs k (by simpa [hq, decodeCount] using hk)
      refine ⟨i + 1, q', hi, hd, fun r => ?_⟩
      rw [List.flatMap_cons, List.append_assoc, leadFlags, if_pos hq, falsesBefore_replicate_false, hf r]
      simp [leadSum]; omega
    · have hlead : ∀ r : Fin P, leadTokens r q = 0 := fun r => by simp [leadTokens, hq]
      by_cases hk' : k < q.numScheduledTokens
      · refine ⟨0, q, rfl, by simpa using hq, fun r => ?_⟩
        rw [List.flatMap_cons, List.append_assoc, leadFlags, if_neg hq,
          falsesBefore_replicate_true_lt _ hk']
        rfl
      · obtain ⟨j, rfl⟩ := Nat.exists_eq_add_of_le (Nat.le_of_not_lt hk')
        obtain ⟨i, q', hi, hd, hf⟩ := falsesBefore_lead tail qs j (by
          simp only [hq, Bool.false_eq_true, ite_false] at hk
          simp only [decodeCount]; omega)
        refine ⟨i + 1, q', hi, hd, fun r => ?_⟩
        rw [List.flatMap_cons, List.append_assoc, leadFlags, if_neg hq, falsesBefore_replicate_true_add,
          hf r]
        simp [leadSum, hlead r]

/-- The first token of a nonempty decode request has the leading tokens before it. -/
theorem lead_falsesBefore {P : Nat} (tail : Fin P → List Bool) : ∀ (qs : List Request) (i : Nat) (q : Request),
    qs[i]? = some q → q.isPrefilling = false → 0 < q.numScheduledTokens → ∃ k < decodeCount qs,
      ∀ r : Fin P, falsesBefore (qs.flatMap (leadFlags r) ++ tail r) k = leadSum r (qs.take i)
  | q :: qs, 0, q', hi, hd, hpos => by
    cases hi
    refine ⟨0, by simp [decodeCount, hd]; omega, fun r => ?_⟩
    rw [List.flatMap_cons, List.append_assoc, leadFlags, if_neg (by simp [hd]),
      falsesBefore_replicate_true_lt _ hpos]
    rfl
  | q :: qs, i + 1, q', hi, hd, hpos => by
    obtain ⟨k, hk, hf⟩ := lead_falsesBefore tail qs i q' hi hd hpos
    by_cases hq : q.isPrefilling = true
    · refine ⟨k, by simpa [decodeCount, hq] using hk, fun r => ?_⟩
      rw [List.flatMap_cons, List.append_assoc, leadFlags, if_pos hq, falsesBefore_replicate_false, hf r]
      simp [leadSum]; omega
    · refine ⟨q.numScheduledTokens + k, by simpa [decodeCount, hq] using hk, fun r => ?_⟩
      have hlead : leadTokens r q = 0 := by simp [leadTokens, hq]
      rw [List.flatMap_cons, List.append_assoc, leadFlags, if_neg hq, falsesBefore_replicate_true_add, hf r]
      simp [leadSum, hlead]

/-! ## Equal masks -/

def rankMask (b : InputBatch) {P : Nat} (l : BatchLayout P) (r : Fin P) : List Bool :=
  (rankRows b l r).map Row.isDecode

section
variable {m : HcuPCPManager} {b : InputBatch} {padded : Option Nat} {l : BatchLayout m.pcpSize}
  (hl : m.buildBatchLayout b padded = .ok l)
include hl

theorem rankMask_split (r : Fin m.pcpSize) :
    ∃ n, rankMask b l r = b.reqs.flatMap (leadFlags r) ++ List.replicate n false := by
  obtain ⟨rest, he, hr⟩ := rankRows_split hl r
  refine ⟨rest.length, ?_⟩
  rw [rankMask, he, List.map_append, leadRows_flags]
  congr 1
  rw [← List.map_const']
  exact List.map_congr_left hr

theorem rankMask_count (r : Fin m.pcpSize) : (rankMask b l r).count true = decodeCount b.reqs := by
  obtain ⟨n, hn⟩ := rankMask_split hl r
  rw [hn, List.count_append, leadFlags_count]
  simp [List.count_replicate]

theorem masks_equal_iff_aligned (hpos : ∀ q ∈ b.reqs, 0 < q.numScheduledTokens) :
    (∀ r r', rankMask b l r = rankMask b l r') ↔ DecodeRowsAligned b m.pcpSize := by
  choose n hn using rankMask_split hl
  constructor
  · intro hm i q hi hd r r'
    obtain ⟨k, _, hf⟩ := lead_falsesBefore (P := m.pcpSize) (fun r => List.replicate (n r) false) b.reqs i q
      hi hd (hpos q (List.mem_of_getElem? hi))
    rw [← hf r, ← hf r', ← hn r, ← hn r', hm r r']
  · intro ha r r'
    refine eq_of_falsesBefore ?_ ?_ fun k hk => ?_
    · simp [rankMask, rankRows_length hl]
    · rw [rankMask_count hl, rankMask_count hl]
    · rw [rankMask_count hl] at hk
      obtain ⟨i, q, hi, hd, hf⟩ :=
        falsesBefore_lead (P := m.pcpSize) (fun r => List.replicate (n r) false) b.reqs k hk
      rw [hn r, hn r', hf r, hf r']
      exact ha i q hi hd r r'

end

end VllmHcu.Pcp
