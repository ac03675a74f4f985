import Mathlib.Algebra.BigOperators.Group.List.Basic
import VllmHcu.Pcp.Plan
import VllmHcu.Pcp.PartitionSound

/-!
# Equal shapes on every rank

The padding loop treats one request after another, and the rows that it appends
belong to the request. So the rows of a request in the layout are those of its
chunks with the padding of its own round, and every rank ends with the rows and
the tokens of the widest one.
-/

namespace VllmHcu.Pcp

variable {P : Nat}

/-! ## Rows by request -/

def reqRows (segs : List BatchSegment) (i : Nat) : List BatchSegment := segs.filter (·.globalReqIdx == i)

theorem sum_range_ite {n k : Nat} (h : k < n) (x : Nat) : ((List.range n).map fun i => if k = i then x else 0).sum = x := by
  induction n with
  | zero => cases h
  | succ n ih =>
    rw [List.range_succ, List.map_append, List.sum_append]
    by_cases hk : k = n
    · have hz : ((List.range n).map fun i => if k = i then x else 0).sum = 0 := by
        apply List.sum_eq_zero
        intro y hy
        obtain ⟨i, hi, rfl⟩ := List.mem_map.mp hy
        have := List.mem_range.mp hi
        exact if_neg (by omega)
      rw [hz, hk]
      simp
    · rw [ih (by omega)]
      simp [hk]

theorem sum_by_request (f : BatchSegment → Nat) {n : Nat} {segs : List BatchSegment}
    (h : ∀ s ∈ segs, s.globalReqIdx < n) :
    (segs.map f).sum = ((List.range n).map fun i => ((reqRows segs i).map f).sum).sum := by
  induction segs with
  | nil => simp [reqRows]
  | cons s segs ih =>
    have hrow : ∀ i, ((reqRows (s :: segs) i).map f).sum = (if s.globalReqIdx = i then f s else 0) + ((reqRows segs i).map f).sum := by
      intro i
      by_cases hi : s.globalReqIdx = i
      · simp [reqRows, hi]
      · simp [reqRows, hi]
    simp only [hrow, List.sum_map_add, List.map_cons, List.sum_cons]
    rw [sum_range_ite (h s List.mem_cons_self), ih fun s hs => h s (List.mem_cons_of_mem _ hs)]

/-- What a row is, apart from its place on the rank. -/
def rowShape (s : BatchSegment) : Nat × Nat × Nat × Nat := (s.globalReqIdx, s.globalStart, s.globalStop, s.paddingTokens)

theorem map_rowShape_place (segs : List BatchSegment) (off : Nat) : (place off segs).map rowShape = segs.map rowShape := by
  induction segs generalizing off with
  | nil => rfl
  | cons s segs ih =>
    rw [place, List.map_cons, List.map_cons, ih]
    rfl

theorem reqRows_map (segs segs' : List BatchSegment) (i : Nat) (h : (segs.map rowShape).Perm (segs'.map rowShape)) :
    ((reqRows segs i).map rowShape).Perm ((reqRows segs' i).map rowShape) := by
  have hfilter : ∀ l : List BatchSegment, (reqRows l i).map rowShape = (l.map rowShape).filter fun x => x.1 == i := by
    intro l
    rw [List.filter_map]
    rfl
  rw [hfilter, hfilter]
  exact h.filter _

theorem reqRows_reorder (b : InputBatch) (segs : List BatchSegment) (i : Nat) :
    ((reqRows (reorderSegments b segs) i).map rowShape).Perm ((reqRows segs i).map rowShape) := by
  apply reqRows_map
  rw [reorderSegments, map_rowShape_place]
  exact (sortByFlag_perm _ segs).map _

theorem map_congr_shape {β : Type} (f : BatchSegment → β) (g : Nat × Nat × Nat × Nat → β) (hf : ∀ s, f s = g (rowShape s))
    {segs segs' : List BatchSegment} (h : (segs.map rowShape).Perm (segs'.map rowShape)) :
    (segs.map f).Perm (segs'.map f) := by
  have : ∀ l : List BatchSegment, l.map f = (l.map rowShape).map g := by
    intro l
    rw [List.map_map]
    exact List.map_congr_left fun s _ => hf s
  rw [this, this]
  exact h.map g

theorem tokens_congr {segs segs' : List BatchSegment} (h : (segs.map rowShape).Perm (segs'.map rowShape)) :
    segmentTokens segs = segmentTokens segs' :=
  (map_congr_shape (·.numTokens) (fun x => x.2.2.1 - x.2.1 + x.2.2.2) (fun _ => rfl) h).sum_eq

theorem length_congr {segs segs' : List BatchSegment} (h : (segs.map rowShape).Perm (segs'.map rowShape)) :
    segs.length = segs'.length := by
  simpa using h.length_eq

theorem filter_requestSegments (b : InputBatch) (r : Fin P) (q : Request) (i j : Nat) :
    reqRows (requestSegments b r j q) i = if j = i then requestSegments b r j q else [] := by
  unfold reqRows
  by_cases h : j = i
  · rw [if_pos h]
    apply List.filter_eq_self.mpr
    intro s hs
    simp [requestSegments_reqIdx hs, h]
  · rw [if_neg h]
    apply List.filter_eq_nil_iff.mpr
    intro s hs
    simp [requestSegments_reqIdx hs, h]

theorem zipIdx_snd_nodup {α : Type*} (l : List α) : (l.zipIdx.map Prod.snd).Nodup := by
  rw [List.zipIdx_map_snd]
  exact List.nodup_range'

theorem reqRows_segments (b : InputBatch) (r : Fin P) {q : Request} {i : Nat} (hq : (q, i) ∈ b.reqs.zipIdx) :
    ((reqRows (segmentsForRank b r) i).map rowShape).Perm ((requestSegments b r i q).map rowShape) := by
  refine (reqRows_reorder b _ i).trans ?_
  refine (reqRows_map _ _ i (List.Perm.of_eq (map_rowShape_place _ 0))).trans ?_
  have hrows : reqRows (b.reqs.zipIdx.flatMap fun p => requestSegments b r p.2 p.1) i = requestSegments b r i q := by
    unfold reqRows
    rw [List.filter_flatMap]
    calc (b.reqs.zipIdx.flatMap fun p => (requestSegments b r p.2 p.1).filter (·.globalReqIdx == i))
      _ = b.reqs.zipIdx.flatMap fun p => if p.2 = i then requestSegments b r p.2 p.1 else [] := by
        apply List.flatMap_congr
        intro p _
        exact filter_requestSegments b r p.1 i p.2
      _ = requestSegments b r i q :=
        flatMap_ite_one (fun p => requestSegments b r p.2 p.1) (zipIdx_snd_nodup b.reqs) hq
  exact List.Perm.of_eq (congrArg (List.map rowShape) hrows)

/-! ## One round of the padding loop -/

section
variable {segs segs' : Fin P → List BatchSegment} {i : Nat}

theorem reqRows_append (l m : List BatchSegment) (i : Nat) : reqRows (l ++ m) i = reqRows l i ++ reqRows m i :=
  List.filter_append ..

theorem reqRows_paddingRows (gs j : Nat) (r : Fin P) :
    reqRows (paddingRows segs j gs r) i = if j = i then paddingRows segs j gs r else [] := by
  unfold reqRows paddingRows
  rw [List.filter_map]
  by_cases h : j = i
  · simp [h, Function.comp_def]
  · simp [h, Function.comp_def]

theorem reqRows_equalizeRequest (useMla : Bool) (b : InputBatch) {j : Nat} (h : j ≠ i) (q : Request) (r : Fin P) :
    reqRows (equalizeRequest useMla b segs j q r) i = reqRows (segs r) i := by
  unfold equalizeRequest
  split
  · rfl
  · split
    · rfl
    · rw [reqRows_append, reqRows_paddingRows, if_neg h, List.append_nil]

theorem reqSegments_congr (h : ∀ r, reqRows (segs r) i = reqRows (segs' r) i) : reqSegments segs i = reqSegments segs' i :=
  funext h

theorem equalizeRequest_congr (useMla : Bool) (b : InputBatch) (q : Request)
    (h : ∀ r, reqRows (segs r) i = reqRows (segs' r) i) (r : Fin P) :
    reqRows (equalizeRequest useMla b segs i q r) i = reqRows (equalizeRequest useMla b segs' i q r) i := by
  have hseg := reqSegments_congr h
  have hactual : actualTokens segs i = actualTokens segs' i := by
    unfold actualTokens
    rw [hseg]
  have htarget : targetTokens segs i = targetTokens segs' i := by
    unfold targetTokens
    rw [hactual]
  have hcount : rowCount segs i = rowCount segs' i := by
    unfold rowCount
    rw [hseg]
  have hrows : targetRows segs i = targetRows segs' i := by
    unfold targetRows
    rw [hactual, htarget, hcount]
  have hpad : ∀ gs, paddingRows segs i gs r = paddingRows segs' i gs r := by
    intro gs
    unfold paddingRows
    rw [hactual, htarget, hcount, hrows]
  unfold equalizeRequest
  rw [hactual, htarget]
  split
  · exact h r
  · split
    · exact h r
    · rw [reqRows_append, reqRows_append, h r, hpad]

end

theorem reqRows_foldl_other (useMla : Bool) (b : InputBatch) {i : Nat} {l : List (Request × Nat)}
    (h : i ∉ l.map Prod.snd) (segs : Fin P → List BatchSegment) (r : Fin P) :
    reqRows (l.foldl (fun segs qi => equalizeRequest useMla b segs qi.2 qi.1) segs r) i = reqRows (segs r) i := by
  induction l generalizing segs with
  | nil => rfl
  | cons x l ih =>
    rw [List.map_cons, List.mem_cons, not_or] at h
    rw [List.foldl_cons, ih h.2]
    exact reqRows_equalizeRequest useMla b (Ne.symm h.1) x.1 r

/-- The rows of a request after the loop are those after its own round. -/
theorem reqRows_foldl (useMla : Bool) (b : InputBatch) {i : Nat} {q : Request} {l : List (Request × Nat)}
    (hn : (l.map Prod.snd).Nodup) (hq : (q, i) ∈ l) (segs : Fin P → List BatchSegment) (r : Fin P) :
    reqRows (l.foldl (fun segs qi => equalizeRequest useMla b segs qi.2 qi.1) segs r) i =
      reqRows (equalizeRequest useMla b segs i q r) i := by
  induction l generalizing segs with
  | nil => cases hq
  | cons x l ih =>
    rw [List.map_cons, List.nodup_cons] at hn
    rw [List.foldl_cons]
    rcases List.mem_cons.mp hq with rfl | hq
    · exact reqRows_foldl_other useMla b hn.1 _ r
    · have hne : x.2 ≠ i := by
        intro e
        apply hn.1
        rw [e]
        exact List.mem_map_of_mem hq
      rw [ih hn.2 hq]
      apply equalizeRequest_congr
      intro r
      exact reqRows_equalizeRequest useMla b hne x.1 r

theorem reqRows_equalizeRequests (useMla : Bool) (b : InputBatch) {q : Request} {i : Nat} (hq : (q, i) ∈ b.reqs.zipIdx)
    (r : Fin P) :
    reqRows (equalizeRequests useMla b (segmentsForRank b) r) i =
      reqRows (equalizeRequest useMla b (segmentsForRank b) i q r) i :=
  reqRows_foldl useMla b (zipIdx_snd_nodup b.reqs) hq (segmentsForRank b) r

/-! ## What a round reaches -/

theorem minOver_le (f : Fin P → Nat) (r : Fin P) : minOver f ≤ f r := by
  unfold minOver
  have hm : f r ∈ (List.finRange P).map f := List.mem_map_of_mem (List.mem_finRange r)
  cases h : ((List.finRange P).map f).min? with
  | none =>
    rw [List.min?_eq_none_iff] at h
    rw [h] at hm
    cases hm
  | some a => exact (List.min?_eq_some_iff.mp h).2 _ hm

theorem maxOver_const (hP : 0 < P) {f : Fin P → Nat} {x : Nat} (h : ∀ r, f r = x) : maxOver f = x := by
  have hf : (List.finRange P).map f = List.replicate P x := by
    rw [funext h, List.map_const', List.length_finRange]
  unfold maxOver
  rw [hf, List.max?_replicate, if_neg (by omega)]
  rfl

theorem maxOver_le {f : Fin P → Nat} {x : Nat} (h : ∀ r, f r ≤ x) : maxOver f ≤ x := by
  unfold maxOver
  cases hm : ((List.finRange P).map f).max? with
  | none => exact Nat.zero_le x
  | some a =>
    obtain ⟨r, _, rfl⟩ := List.mem_map.mp (List.max?_eq_some_iff.mp hm).1
    exact h r

section
variable (segs : Fin P → List BatchSegment) (i : Nat)

theorem actualTokens_le (r : Fin P) : actualTokens segs i r ≤ targetTokens segs i := le_maxOver (actualTokens segs i) r

theorem rowCount_le (r : Fin P) : rowCount segs i r ≤ targetRows segs i := by
  have := le_maxOver (rowCount segs i) r
  unfold targetRows
  dsimp only
  split
  · omega
  · exact this

theorem rowCount_lt {r : Fin P} (h : actualTokens segs i r < targetTokens segs i) :
    rowCount segs i r < targetRows segs i := by
  have hmax := le_maxOver (rowCount segs i) r
  unfold targetRows
  dsimp only
  split
  · omega
  · rename_i hany
    have hne : rowCount segs i r ≠ maxOver (rowCount segs i) := by
      intro e
      apply hany
      apply List.any_eq_true.mpr
      exact ⟨r, List.mem_finRange r, by simp [h, e]⟩
    omega

theorem missingRows_ok (r : Fin P) : missingRowsAssert segs i r = true := by
  have hle := rowCount_le segs i r
  unfold missingRowsAssert
  apply decide_eq_true
  split
  · have := rowCount_lt segs i (r := r) (by omega)
    omega
  · omega

theorem targetRows_le {k : Nat} (h : ∀ r, rowCount segs i r ≤ k) : targetRows segs i ≤ k + 1 := by
  have := maxOver_le h
  unfold targetRows
  dsimp only
  split
  · omega
  · omega

theorem rows_padded (gs : Nat) (r : Fin P) :
    (reqRows (segs r ++ paddingRows segs i gs r) i).length = targetRows segs i := by
  have hle := rowCount_le segs i r
  have hrows : (reqRows (segs r) i).length = rowCount segs i r := rfl
  rw [reqRows_append, reqRows_paddingRows, if_pos rfl, List.length_append, hrows]
  simp only [paddingRows, List.length_map, List.length_range]
  omega

theorem segmentTokens_append (l m : List BatchSegment) : segmentTokens (l ++ m) = segmentTokens l + segmentTokens m := by
  simp [segmentTokens]

theorem segmentTokens_paddingRows (gs : Nat) (r : Fin P) :
    segmentTokens (paddingRows segs i gs r) = targetTokens segs i - actualTokens segs i r := by
  have hlt := @rowCount_lt P segs i r
  unfold segmentTokens paddingRows
  rw [List.map_map]
  cases hk : targetRows segs i - rowCount segs i r with
  | zero =>
    have : targetTokens segs i ≤ actualTokens segs i r := by
      by_contra hc
      have := hlt (by omega)
      omega
    simp
    omega
  | succ k =>
    rw [List.range_succ_eq_map]
    simp [BatchSegment.numTokens, BatchSegment.numActualTokens, Function.comp_def]

theorem tokens_padded (gs : Nat) (r : Fin P) (hz : segmentTokens (reqRows (segs r) i) = actualTokens segs i r) :
    segmentTokens (reqRows (segs r ++ paddingRows segs i gs r) i) = targetTokens segs i := by
  have := actualTokens_le segs i r
  rw [reqRows_append, reqRows_paddingRows, if_pos rfl, segmentTokens_append, segmentTokens_paddingRows, hz]
  omega

end

/-! ## Rows before padding -/

theorem segment_numTokens (n P k : Nat) :
    (segment n P k).numTokens =
      min (k * ((n + 2 * P - 1) / (2 * P)) + (n + 2 * P - 1) / (2 * P)) n -
        min (k * ((n + 2 * P - 1) / (2 * P))) n := by
  simp only [segment, RankSegment.numTokens]
  omega

theorem chunkSize_spec {n : Nat} (hP : 0 < P) :
    n ≤ 2 * P * ((n + 2 * P - 1) / (2 * P)) ∧ 2 * P * ((n + 2 * P - 1) / (2 * P)) ≤ n + 2 * P - 1 := by
  have hmod := Nat.div_add_mod (n + 2 * P - 1) (2 * P)
  have hlt := Nat.mod_lt (n + 2 * P - 1) (show 0 < 2 * P by omega)
  exact ⟨by omega, by omega⟩

def chunkRows (n : Nat) (r : Fin P) : Nat :=
  (if (rankSegments n r).1.numTokens = 0 then 0 else 1) + (if (rankSegments n r).2.numTokens = 0 then 0 else 1)

/-- Ranks with equal token counts have equal row counts, so the skipped rounds
are harmless. -/
theorem chunkRows_eq {n : Nat} (hn : 0 < n) (h : ∀ r r' : Fin P, rankTokens n r = rankTokens n r') (r r' : Fin P) :
    chunkRows n r = chunkRows n r' := by
  have hP : 0 < P := r.pos
  obtain ⟨hlo, hhi⟩ := chunkSize_spec (n := n) hP
  have hc : 0 < (n + 2 * P - 1) / (2 * P) := by
    apply Nat.div_pos
    · omega
    · omega
  have hcn : (n + 2 * P - 1) / (2 * P) ≤ n := by
    apply Nat.div_le_of_le_mul
    obtain ⟨m, rfl⟩ := Nat.exists_eq_succ_of_ne_zero (show n ≠ 0 by omega)
    have := Nat.le_mul_of_pos_left m (show 0 < 2 * P by omega)
    rw [Nat.mul_succ]
    omega
  have key : ∀ r : Fin P, chunkRows n r = if (2 * P - 1) * ((n + 2 * P - 1) / (2 * P)) < n then 2 else 1 := by
    intro r
    have h0 := h r ⟨0, hP⟩
    unfold rankTokens rankSegments at h0
    simp only [segment_numTokens, Nat.zero_mul, Nat.sub_zero, Nat.zero_add] at h0
    unfold chunkRows rankSegments
    simp only [segment_numTokens]
    generalize (n + 2 * P - 1) / (2 * P) = c at *
    have h1 : r.val * c + c ≤ (2 * P - 1 - r.val) * c := by
      rw [← Nat.add_one_mul]
      apply Nat.mul_le_mul_right
      omega
    have h2 : (2 * P - 1 - r.val) * c ≤ (2 * P - 1) * c := Nat.mul_le_mul_right c (Nat.sub_le ..)
    have h3 : (2 * P - 1) * c + c = 2 * P * c := by
      rw [← Nat.add_one_mul]
      congr 1
      omega
    by_cases hw : (2 * P - 1) * c < n
    · -- the last chunk is not empty, so no chunk is
      rw [if_pos hw, if_neg (by omega), if_neg (by omega)]
    · -- rank 0 has one full chunk, so a second chunk would be one too many
      have htail : min ((2 * P - 1 - r.val) * c + c) n - min ((2 * P - 1 - r.val) * c) n = 0 := by omega
      rw [if_neg hw, htail, if_neg (by omega), if_pos rfl]
  rw [key r, key r']

/-! ## The rows of a request in the layout -/

section
variable {b : InputBatch} {q : Request} {i : Nat}

theorem requestSegments_prefill_shapes (hp : q.isPrefilling = true) (hn : q.numScheduledTokens ≠ 0) (r : Fin P) :
    (requestSegments b r i q).length = chunkRows q.numScheduledTokens r ∧
      ((requestSegments b r i q).map (·.numActualTokens)).sum = rankTokens q.numScheduledTokens r ∧
      segmentTokens (requestSegments b r i q) = rankTokens q.numScheduledTokens r := by
  unfold requestSegments chunkRows rankTokens segmentTokens
  rw [if_neg hn]
  simp only [hp, if_true, List.filter_cons, List.filter_nil]
  generalize (rankSegments q.numScheduledTokens r).1 = s₁
  generalize (rankSegments q.numScheduledTokens r).2 = s₂
  have hs : ∀ s : RankSegment, b.queryStartLoc i + s.stop - (b.queryStartLoc i + s.start) = s.numTokens := by
    intro s
    unfold RankSegment.numTokens
    omega
  by_cases h₁ : s₁.numTokens = 0
  · by_cases h₂ : s₂.numTokens = 0
    · simp [h₁, h₂]
    · simp [h₁, h₂, BatchSegment.numTokens, BatchSegment.numActualTokens, hs]
  · by_cases h₂ : s₂.numTokens = 0
    · simp [h₁, h₂, BatchSegment.numTokens, BatchSegment.numActualTokens, hs]
    · simp [h₁, h₂, BatchSegment.numTokens, BatchSegment.numActualTokens, hs]

theorem rankTokens_zero (r : Fin P) : rankTokens 0 r = 0 := by
  simp [rankTokens, rankSegments, segment_numTokens]

theorem requestSegments_zero (hn : q.numScheduledTokens = 0) (r : Fin P) : requestSegments b r i q = [] := by
  unfold requestSegments
  rw [if_pos hn]

theorem requestSegments_decode (hp : q.isPrefilling = false) (hn : q.numScheduledTokens ≠ 0) (r : Fin P) :
    (requestSegments b r i q).map rowShape =
      [(i, b.queryStartLoc i, b.queryStartLoc i + q.numScheduledTokens, 0)] := by
  unfold requestSegments
  rw [if_neg hn]
  simp [hp, RankSegment.numTokens, hn, rowShape]

theorem actual_congr {segs segs' : List BatchSegment} (h : (segs.map rowShape).Perm (segs'.map rowShape)) :
    (segs.map (·.numActualTokens)).sum = (segs'.map (·.numActualTokens)).sum :=
  (map_congr_shape (·.numActualTokens) (fun x => x.2.2.1 - x.2.1) (fun _ => rfl) h).sum_eq

theorem layout_rows (useMla : Bool) (hq : (q, i) ∈ b.reqs.zipIdx) (r : Fin P) :
    ((reqRows (layoutSegments useMla b r) i).map rowShape).Perm
      ((reqRows (equalizeRequest useMla b (segmentsForRank b) i q r) i).map rowShape) := by
  have h := reqRows_reorder b (equalizeRequests useMla b (segmentsForRank b) r) i
  rw [reqRows_equalizeRequests useMla b hq] at h
  exact h

theorem layout_rows_kept (useMla : Bool) (hq : (q, i) ∈ b.reqs.zipIdx) (r : Fin P)
    (h : (!useMla || q.numScheduledTokens == 0 || !q.isPrefilling) = true) :
    ((reqRows (layoutSegments useMla b r) i).map rowShape).Perm ((requestSegments b r i q).map rowShape) := by
  have hrows := layout_rows useMla hq r
  unfold equalizeRequest at hrows
  rw [if_pos h] at hrows
  exact hrows.trans (reqRows_segments b r hq)

theorem decode_rows (useMla : Bool) (hq : (q, i) ∈ b.reqs.zipIdx) (hp : q.isPrefilling = false) (r : Fin P) :
    (reqRows (layoutSegments useMla b r) i).map rowShape =
      if q.numScheduledTokens = 0 then []
      else [(i, b.queryStartLoc i, b.queryStartLoc i + q.numScheduledTokens, 0)] := by
  have hrows := layout_rows_kept useMla hq r (by simp [hp])
  split
  · rename_i hn
    rw [requestSegments_zero hn] at hrows
    exact List.perm_nil.mp hrows
  · rename_i hn
    rw [requestSegments_decode hp hn] at hrows
    exact List.perm_singleton.mp hrows

theorem chunkRows_le (n : Nat) (r : Fin P) : chunkRows n r ≤ 2 := by
  unfold chunkRows
  split
  · split
    · omega
    · omega
  · split
    · omega
    · omega

theorem round_rows {segs : Fin P → List BatchSegment} (hP : 0 < P) (hp : q.isPrefilling = true) (hn : q.numScheduledTokens ≠ 0)
    (hact : ∀ r, actualTokens segs i r = rankTokens q.numScheduledTokens r)
    (hcount : ∀ r, rowCount segs i r = chunkRows q.numScheduledTokens r)
    (htok : ∀ r, segmentTokens (reqRows (segs r) i) = actualTokens segs i r) :
    ∃ k ≤ 3, ∀ r : Fin P, (reqRows (equalizeRequest true b segs i q r) i).length = k ∧
      segmentTokens (reqRows (equalizeRequest true b segs i q r) i) =
        maxOver fun r : Fin P => rankTokens q.numScheduledTokens r := by
  have htarget : targetTokens segs i = maxOver fun r : Fin P => rankTokens q.numScheduledTokens r := by
    unfold targetTokens
    rw [funext hact]
  have hround : (!true || q.numScheduledTokens == 0 || !q.isPrefilling) = false := by simp [hp, hn]
  unfold equalizeRequest
  simp only [hround, Bool.false_eq_true, if_false]
  rw [← htarget]
  by_cases hskip : minOver (actualTokens segs i) = targetTokens segs i
  · have hall : ∀ r : Fin P, actualTokens segs i r = targetTokens segs i := by
      intro r
      have h₁ := minOver_le (actualTokens segs i) r
      have h₂ := actualTokens_le segs i r
      omega
    have heq : ∀ r r' : Fin P, rankTokens q.numScheduledTokens r = rankTokens q.numScheduledTokens r' := by
      intro r r'
      rw [← hact, ← hact, hall, hall]
    have hle := chunkRows_le q.numScheduledTokens (⟨0, hP⟩ : Fin P)
    refine ⟨chunkRows q.numScheduledTokens (⟨0, hP⟩ : Fin P), by omega, ?_⟩
    intro r
    rw [if_pos hskip]
    constructor
    · rw [chunkRows_eq (by omega) heq ⟨0, hP⟩ r]
      exact hcount r
    · rw [htok, hall]
  · refine ⟨targetRows segs i, ?_, ?_⟩
    · apply targetRows_le
      intro r
      rw [hcount]
      exact chunkRows_le q.numScheduledTokens r
    · intro r
      rw [if_neg hskip]
      exact ⟨rows_padded segs i _ r, tokens_padded segs i _ r (htok r)⟩

theorem prefill_rows (hP : 0 < P) (hq : (q, i) ∈ b.reqs.zipIdx) (hp : q.isPrefilling = true) :
    ∃ k ≤ 3, ∀ r : Fin P, (reqRows (layoutSegments true b r) i).length = k ∧
      segmentTokens (reqRows (layoutSegments true b r) i) = maxOver fun r : Fin P => rankTokens q.numScheduledTokens r := by
  by_cases hn : q.numScheduledTokens = 0
  · refine ⟨0, by omega, ?_⟩
    intro r
    have hrows := layout_rows_kept true hq r (by simp [hn])
    rw [requestSegments_zero hn] at hrows
    have hz : maxOver (fun r : Fin P => rankTokens q.numScheduledTokens r) = 0 := by
      apply maxOver_const hP
      intro r
      rw [hn, rankTokens_zero]
    rw [hz]
    exact ⟨length_congr hrows, tokens_congr hrows⟩
  · have hseg := fun r : Fin P => reqRows_segments b r hq
    have hshape := fun r : Fin P => requestSegments_prefill_shapes (b := b) (i := i) hp hn r
    have hact : ∀ r : Fin P, actualTokens (segmentsForRank b) i r = rankTokens q.numScheduledTokens r :=
      fun r => (actual_congr (hseg r)).trans (hshape r).2.1
    have hcount : ∀ r : Fin P, rowCount (segmentsForRank b) i r = chunkRows q.numScheduledTokens r :=
      fun r => (length_congr (hseg r)).trans (hshape r).1
    have htok : ∀ r : Fin P, segmentTokens (reqRows (segmentsForRank b r) i) = actualTokens (segmentsForRank b) i r :=
      fun r => ((tokens_congr (hseg r)).trans (hshape r).2.2).trans (hact r).symm
    obtain ⟨k, hk, hall⟩ := round_rows (b := b) hP hp hn hact hcount htok
    refine ⟨k, hk, ?_⟩
    intro r
    rw [length_congr (layout_rows true hq r), tokens_congr (layout_rows true hq r)]
    exact hall r

end

end VllmHcu.Pcp
