import VllmHcu.DeepseekV4.Prefill
import VllmHcu.Lib.Prefix
import VllmHcu.Lib.RowMajor

/-!
# The prefill indices address the gathered keys

A request of a chunk owns `M` workspace rows: its compressed keys from row 0 on
and its window from row `N` on. The index row of a token lists its top-k
entries in the first part and the last positions up to its own in the second.
-/

namespace VllmHcu.DeepseekV4

/-- The bounds under which the workspace is sized. -/
structure Fits (l : Layer) (b : Batch) : Prop where
  seq : ∀ r < b.numPrefills, b.seqLens r ≤ l.maxModelLen
  tokens : b.queryStartLoc (b.numDecodes + b.numPrefills) ≤ l.maxNumBatchedTokens

/-- The compressed keys of a request that are gathered. -/
def compressedLen (l : Layer) (b : Batch) (r : Nat) : Nat := if l.swaOnly then 0 else b.seqLens r / l.compressRatio

theorem numWorkers_pos : 0 < numWorkers := by decide

/-- `seq_lens // compress_ratio` -/
def ratioLens (l : Layer) (b : Batch) (r : Nat) : Nat := b.seqLens r / l.compressRatio

/-! ## Regions of a request -/

section
variable {l : Layer} {b : Batch} {r : Nat}

theorem start_le {i j : Nat} (hij : i ≤ j) (hj : j ≤ b.numPrefills) :
    b.queryStartLoc (b.numDecodes + i) ≤ b.queryStartLoc (b.numDecodes + j) :=
  le_of_steps (f := fun i => b.queryStartLoc (b.numDecodes + i)) b.start_mono hij hj

theorem ratio_le (h : b.seqLens r ≤ l.maxModelLen) : compressedLen l b r ≤ l.n := by
  unfold compressedLen Layer.n
  split
  · exact Nat.le_refl 0
  · apply Nat.div_le_div_right
    have := l.ratio_pos
    omega

variable (hr : r < b.numPrefills)
include hr

theorem prefix_add_query : b.prefixLen r + b.queryLen r = b.seqLens r :=
  Nat.sub_add_cancel (b.query_le_seq r hr)

variable (hfit : Fits l b)
include hfit

theorem regions : compressedLen l b r ≤ l.n ∧ l.n + b.gatherLen l.windowSize r ≤ l.m := by
  refine ⟨ratio_le (hfit.seq r hr), ?_⟩
  have hq : b.queryLen r ≤ l.maxNumBatchedTokens := by
    have hstep := start_le (show r + 1 ≤ b.numPrefills by omega) (Nat.le_refl _)
    have := hfit.tokens
    rw [← Nat.add_assoc] at hstep
    unfold Batch.queryLen
    omega
  have := l.window_pos
  unfold Batch.gatherLen Layer.m
  omega

end

/-! ## The gathers -/

section
variable {V : Type} (c : Paged V) (m offset start count : Nat) (seqLens gatherLens : Nat → Nat)

theorem mem_gatherStores {w : Nat × V} :
    w ∈ gatherStores c m offset start count seqLens gatherLens ↔
      ∃ batch < count, ∃ i < gatherLens (start + batch),
        w = (batch * m + (offset + i), c.key (start + batch) (seqLens (start + batch) - gatherLens (start + batch) + i)) := by
  have hrequest : ∀ batch, gatherRequest c m offset (start + batch) batch (seqLens (start + batch)) (gatherLens (start + batch)) =
      ((List.range numWorkers).flatMap fun worker => strided (0 + worker) (gatherLens (start + batch)) numWorkers).map fun i =>
        (batch * m + (offset + i), c.key (start + batch) (seqLens (start + batch) - gatherLens (start + batch) + i)) := by
    intro batch
    simp only [gatherRequest, List.map_flatMap, Nat.zero_add, Paged.key]
  simp only [gatherStores, hrequest, List.mem_flatMap, List.mem_range, List.mem_map]
  constructor
  · rintro ⟨batch, hb, i, hi, rfl⟩
    exact ⟨batch, hb, i, ((exists_worker numWorkers_pos).mp hi).2, rfl⟩
  · rintro ⟨batch, hb, i, hi, rfl⟩
    exact ⟨batch, hb, i, (exists_worker numWorkers_pos).mpr ⟨Nat.zero_le i, hi⟩, rfl⟩

variable {c m offset start count seqLens gatherLens}
variable (hfits : ∀ batch < count, offset + gatherLens (start + batch) ≤ m) {batch : Nat}
include hfits

variable (c seqLens) in
/-- A gathered row holds the key of its position. -/
theorem gather_read (hbatch : batch < count) (kv : Nat → V) {i : Nat} (hi : i < gatherLens (start + batch)) :
    scatter kv (gatherStores c m offset start count seqLens gatherLens) (batch * m + (offset + i)) =
      c.key (start + batch) (seqLens (start + batch) - gatherLens (start + batch) + i) := by
  apply scatter_eq_of_agree
  · intro w hw he
    obtain ⟨batch', hb', i', hi', rfl⟩ := (mem_gatherStores c m offset start count seqLens gatherLens).mp hw
    have h₁ := hfits batch hbatch
    have h₂ := hfits batch' hb'
    have hdiv := congrArg (· / m) he
    have hmod := congrArg (· % m) he
    simp only [block_div (show offset + i' < m by omega), block_div (show offset + i < m by omega)] at hdiv
    simp only [block_mod (show offset + i' < m by omega), block_mod (show offset + i < m by omega)] at hmod
    obtain rfl := hdiv
    obtain rfl : i' = i := by omega
    rfl
  · exact .inr ⟨_, (mem_gatherStores c m offset start count seqLens gatherLens).mpr ⟨batch, hbatch, i, hi, rfl⟩, rfl⟩

/-- Rows below the region stay. -/
theorem gather_frame (kv : Nat → V) {i : Nat} (hi : i < offset) (him : i < m) :
    scatter kv (gatherStores c m offset start count seqLens gatherLens) (batch * m + i) = kv (batch * m + i) := by
  apply scatter_of_not_mem
  intro hmem
  obtain ⟨w, hw, he⟩ := List.mem_map.mp hmem
  obtain ⟨batch', hb', i', hi', rfl⟩ := (mem_gatherStores c m offset start count seqLens gatherLens).mp hw
  have h₂ := hfits batch' hb'
  have hmod := congrArg (· % m) he
  simp only [block_mod (show offset + i' < m by omega), block_mod him] at hmod
  omega

end

/-! ## The stores of one token -/

namespace TokenArgs

/-- What the row of a token holds after its stores, from a row of `-1`. -/
def rowValue (a : TokenArgs) (topk : Nat → Int) (col : Nat) : Int :=
  if col < a.topkLen then topk col + (a.m * a.batch : Nat)
  else if col < a.topkLen + a.swaLen then
    ((a.m * a.batch + a.n + (col - a.topkLen) + a.pos : Nat) : Int) - a.swaLen + 1 - a.gatherStart
  else -1

variable {a : TokenArgs} {topk : Nat → Int}

theorem value_of_mem_stores {s : Nat × Int} (h : s ∈ a.stores topk) :
    s.1 < a.topkLen + a.swaLen ∧ s.2 = a.rowValue topk s.1 := by
  unfold rowValue
  rcases List.mem_append.mp h with h | h
  · obtain ⟨offset, hoff, rfl⟩ := List.mem_map.mp h
    have hlt : offset < a.topkLen := by simpa using (List.mem_filter.mp hoff).2
    simp only [if_pos hlt]
    exact ⟨by omega, trivial⟩
  · obtain ⟨offset, hoff, rfl⟩ := List.mem_map.mp h
    have hlt : offset < a.swaLen := by simpa using (List.mem_filter.mp hoff).2
    have hnot : ¬ a.topkLen + offset < a.topkLen := by omega
    have hin : a.topkLen + offset < a.topkLen + a.swaLen := by omega
    simp only [if_neg hnot, if_pos hin, Nat.add_sub_cancel_left]
    exact ⟨by omega, trivial⟩

theorem exists_mem_stores (hpad : a.topkLen ≤ a.paddedTopK) {col : Nat} (hcol : col < a.topkLen + a.swaLen) :
    ∃ s ∈ a.stores topk, s.1 = col := by
  by_cases hlt : col < a.topkLen
  · refine ⟨_, List.mem_append_left _ (List.mem_map.mpr ⟨col, ?_, rfl⟩), rfl⟩
    exact List.mem_filter.mpr ⟨List.mem_range.mpr (by omega), by simpa using hlt⟩
  · have hwin : a.swaLen ≤ a.window := Nat.min_le_right ..
    refine ⟨_, List.mem_append_right _ (List.mem_map.mpr ⟨col - a.topkLen, ?_, rfl⟩), by simp only; omega⟩
    exact List.mem_filter.mpr ⟨List.mem_range.mpr (by omega), by simp; omega⟩

end TokenArgs

/-! ## The index rows of a chunk -/

section
variable {l : Layer} {b : Batch} {start count : Nat} (hcount : start + count ≤ b.numPrefills)

/-- Where the queries of a request start in the chunk. -/
def chunkStartOf (b : Batch) (start batch : Nat) : Nat :=
  b.queryStartLoc (b.numDecodes + start + batch) - b.queryStartLoc (b.numDecodes + start)

theorem mem_combineTokens {t : Nat × Nat} :
    t ∈ combineTokens b start count ↔ t.1 < count ∧ chunkStartOf b start t.1 ≤ t.2 ∧ t.2 < chunkStartOf b start (t.1 + 1) := by
  obtain ⟨batch, tok⟩ := t
  simp only [combineTokens, ← List.map_flatMap, List.mem_flatMap, List.mem_range, List.mem_map, Prod.mk.injEq]
  constructor
  · rintro ⟨batch', hb, tok', hmem, rfl, rfl⟩
    exact ⟨hb, (exists_worker numWorkers_pos).mp hmem⟩
  · rintro ⟨hb, hlo, hhi⟩
    exact ⟨batch, hb, tok, (exists_worker numWorkers_pos).mpr ⟨hlo, hhi⟩, rfl, rfl⟩

include hcount in
/-- A token belongs to one request of the chunk. -/
theorem token_owner {t t' : Nat × Nat} (ht : t ∈ combineTokens b start count) (ht' : t' ∈ combineTokens b start count)
    (h : t.2 = t'.2) : t = t' := by
  obtain ⟨hb, hlo, hhi⟩ := mem_combineTokens.mp ht
  obtain ⟨hb', hlo', hhi'⟩ := mem_combineTokens.mp ht'
  have hmono : ∀ {i j : Nat}, i ≤ j → j ≤ count → chunkStartOf b start i ≤ chunkStartOf b start j := by
    intro i j hij hj
    have := start_le (b := b) (show start + i ≤ start + j by omega) (by omega)
    rw [← Nat.add_assoc, ← Nat.add_assoc] at this
    unfold chunkStartOf
    omega
  rcases Nat.lt_trichotomy t.1 t'.1 with hlt | he | hlt
  · have := hmono (show t.1 + 1 ≤ t'.1 by omega) (by omega)
    omega
  · exact Prod.ext he h
  · have := hmono (show t'.1 + 1 ≤ t.1 by omega) (by omega)
    omega

theorem args_lens (t : Nat × Nat) :
    (argsOf l b start t).topkLen ≤ l.topK ∧ (argsOf l b start t).swaLen ≤ l.windowSize ∧
      (argsOf l b start t).topkLen ≤ (argsOf l b start t).paddedTopK := by
  have htop : (argsOf l b start t).topkLen ≤ l.topK := Nat.min_le_right ..
  refine ⟨htop, Nat.min_le_right .., htop.trans ?_⟩
  have hpow : l.topkWidth ≤ 2 ^ Nat.clog 2 l.topkWidth := Nat.le_pow_clog (by omega) _
  unfold Layer.topK
  split
  · exact Nat.zero_le _
  · exact hpow

theorem width_fits (t : Nat × Nat) : (argsOf l b start t).topkLen + (argsOf l b start t).swaLen ≤ l.combinedTopk := by
  obtain ⟨h₁, h₂, -⟩ := @args_lens l b start t
  have := le_roundUp (l.topK + l.windowSize) (show 0 < topkAlignment by decide)
  unfold Layer.combinedTopk
  omega

include hcount in
/-- The index row and the length of a token are those of its own program. -/
theorem combine_read (topk : Nat → Nat → Int) (lens : Nat → Nat) {t : Nat × Nat} (ht : t ∈ combineTokens b start count) :
    (∀ col < l.combinedTopk, (combineTopkSwaIndices l b start count topk lens).1 (t.2 * l.combinedTopk + col) =
      (argsOf l b start t).rowValue (topk t.2) col) ∧
    (combineTopkSwaIndices l b start count topk lens).2 t.2 = (argsOf l b start t).topkLen + (argsOf l b start t).swaLen := by
  constructor
  · intro col hcol
    apply scatter_eq_of_agree
    · intro w hw he
      obtain ⟨t', ht', hw⟩ := List.mem_flatMap.mp hw
      obtain ⟨s, hs, rfl⟩ := List.mem_map.mp hw
      obtain ⟨hlt, hval⟩ := TokenArgs.value_of_mem_stores hs
      have hs' : s.1 < l.combinedTopk := Nat.lt_of_lt_of_le hlt (width_fits t')
      have hdiv := congrArg (· / l.combinedTopk) he
      have hmod := congrArg (· % l.combinedTopk) he
      simp only [block_div hs', block_div hcol] at hdiv
      simp only [block_mod hs', block_mod hcol] at hmod
      obtain rfl := token_owner hcount ht' ht hdiv
      rw [← hmod]
      exact hval
    · by_cases hlt : col < (argsOf l b start t).topkLen + (argsOf l b start t).swaLen
      · obtain ⟨s, hs, rfl⟩ := @TokenArgs.exists_mem_stores _ (topk t.2) (args_lens t).2.2 _ hlt
        exact .inr ⟨_, List.mem_flatMap.mpr ⟨t, ht, List.mem_map.mpr ⟨s, hs, rfl⟩⟩, rfl⟩
      · left
        have hnot : ¬ col < (argsOf l b start t).topkLen := by omega
        rw [TokenArgs.rowValue, if_neg hnot, if_neg hlt]
  · apply scatter_eq_of_agree
    · intro w hw he
      obtain ⟨t', ht', rfl⟩ := List.mem_map.mp hw
      obtain rfl := token_owner hcount ht' ht he
      rfl
    · exact .inr ⟨_, List.mem_map.mpr ⟨t, ht, rfl⟩, rfl⟩

end

/-! ## The run over the chunks -/

section
variable {V : Type} {l : Layer} {b : Batch} (compressed swa : Paged V) (topkIndices : Nat → Nat → Int) (lens : Nat → Nat)

theorem forwardPrefill_chunk (kv : Nat → V) {chunkIdx : Nat} (h : chunkIdx < (b.numPrefills + l.chunkSize - 1) / l.chunkSize) :
    ∃ kv', (forwardPrefill l b compressed swa topkIndices lens kv)[chunkIdx]? =
      some (prefillChunk l b compressed swa topkIndices lens kv' chunkIdx) := by
  have hrun : ∀ n (s : (Nat → V) × List (ChunkOutput V)), s =
      (List.range n).foldl (fun (s : (Nat → V) × List (ChunkOutput V)) chunkIdx =>
        let out := prefillChunk l b compressed swa topkIndices lens s.1 chunkIdx
        (out.kv, s.2 ++ [out])) (kv, []) →
      s.2.length = n ∧ ∀ c < n, ∃ kv', s.2[c]? = some (prefillChunk l b compressed swa topkIndices lens kv' c) := by
    intro n
    induction n with
    | zero =>
      rintro s rfl
      exact ⟨rfl, nofun⟩
    | succ n ih =>
      rintro s rfl
      obtain ⟨hlen, hall⟩ := ih _ rfl
      rw [List.range_succ, List.foldl_append, List.foldl_cons, List.foldl_nil]
      refine ⟨by simp [hlen], fun c hc => ?_⟩
      rcases Nat.lt_succ_iff_lt_or_eq.mp hc with hlt | rfl
      · obtain ⟨kv', hkv⟩ := hall c hlt
        exact ⟨kv', by rw [List.getElem?_append_left (by omega)]; exact hkv⟩
      · exact ⟨_, by rw [List.getElem?_append_right (by omega), hlen, Nat.sub_self]; rfl⟩
  exact (hrun _ _ rfl).2 chunkIdx h

/-- The chunk of a request. -/
theorem chunk_of_request {r : Nat} (hr : r < b.numPrefills) :
    r / l.chunkSize < (b.numPrefills + l.chunkSize - 1) / l.chunkSize ∧
      r % l.chunkSize < min (r / l.chunkSize * l.chunkSize + l.chunkSize) b.numPrefills - r / l.chunkSize * l.chunkSize ∧
      r / l.chunkSize * l.chunkSize + r % l.chunkSize = r := by
  have hpos := l.chunk_pos
  have hsum := Nat.div_add_mod' r l.chunkSize
  have hmod := Nat.mod_lt r hpos
  refine ⟨(lt_cdiv hpos).mpr (by omega), by omega, hsum⟩

variable (hfit : Fits l b) (kv : Nat → V) {r : Nat} (hr : r < b.numPrefills)
include hfit hr

/-- The workspace rows of a request after the gathers of its chunk. -/
theorem chunk_workspace :
    (∀ i < compressedLen l b r, (prefillChunk l b compressed swa topkIndices lens kv (r / l.chunkSize)).kv
      (r % l.chunkSize * l.m + i) = compressed.key r i) ∧
    ∀ i < b.gatherLen l.windowSize r, (prefillChunk l b compressed swa topkIndices lens kv (r / l.chunkSize)).kv
      (r % l.chunkSize * l.m + (l.n + i)) = swa.key r (b.seqLens r - b.gatherLen l.windowSize r + i) := by
  obtain ⟨-, hbatch, hsum⟩ := chunk_of_request (l := l) hr
  have hswa : ∀ batch < min (r / l.chunkSize * l.chunkSize + l.chunkSize) b.numPrefills - r / l.chunkSize * l.chunkSize,
      l.n + b.gatherLen l.windowSize (r / l.chunkSize * l.chunkSize + batch) ≤ l.m := by
    intro batch hb
    exact (regions (show r / l.chunkSize * l.chunkSize + batch < b.numPrefills by omega) hfit).2
  constructor
  · intro i hi
    have hin := (regions hr hfit).1
    have hnm : l.n ≤ l.m := by
      unfold Layer.m
      omega
    have hcomp : l.swaOnly = false := by
      unfold compressedLen at hi
      by_contra h
      simp only [Bool.not_eq_false] at h
      simp [h] at hi
    have hratio : ∀ batch < min (r / l.chunkSize * l.chunkSize + l.chunkSize) b.numPrefills - r / l.chunkSize * l.chunkSize,
        0 + ratioLens l b (r / l.chunkSize * l.chunkSize + batch) ≤ l.m := by
      intro batch hb
      have := ratio_le (hfit.seq (r / l.chunkSize * l.chunkSize + batch) (by omega))
      rw [compressedLen, hcomp] at this
      simp only [Bool.false_eq_true, if_false] at this
      rw [ratioLens]
      omega
    have hi' : i < ratioLens l b (r / l.chunkSize * l.chunkSize + r % l.chunkSize) := by
      rw [compressedLen, hcomp] at hi
      rw [hsum, ratioLens]
      simpa using hi
    simp only [prefillChunk, hcomp, Bool.false_eq_true, if_false]
    rw [gather_frame hswa _ (by omega) (by omega)]
    have := gather_read compressed (ratioLens l b) hratio hbatch kv hi'
    rwa [Nat.zero_add, Nat.sub_self, Nat.zero_add, hsum] at this
  · intro i hi
    simp only [prefillChunk]
    rw [← hsum] at hi
    have := gather_read swa b.seqLens hswa hbatch
      (if l.swaOnly then kv else scatter kv (gatherStores compressed l.m 0 (r / l.chunkSize * l.chunkSize)
        (min (r / l.chunkSize * l.chunkSize + l.chunkSize) b.numPrefills - r / l.chunkSize * l.chunkSize)
        (fun r => b.seqLens r / l.compressRatio) (fun r => b.seqLens r / l.compressRatio))) hi
    rwa [hsum] at this

omit hfit in
/-- The index row of query `j` of a request. -/
theorem chunk_row {j : Nat} (hj : j < b.queryLen r) :
    let out := prefillChunk l b compressed swa topkIndices lens kv (r / l.chunkSize)
    let token := b.queryStartLoc (b.numDecodes + r) - b.queryStartLoc b.numDecodes + j
    ∃ a : TokenArgs, (a.m = l.m ∧ a.n = l.n ∧ a.batch = r % l.chunkSize ∧
        a.gatherStart = b.seqLens r - b.gatherLen l.windowSize r ∧ a.pos = b.prefixLen r + j ∧
        a.topkLen = min ((b.prefixLen r + j + 1) / l.compressRatio) l.topK ∧
        a.swaLen = min (b.prefixLen r + j + 1) l.windowSize) ∧
      (out.queryStart ≤ token ∧ token < out.queryEnd) ∧ a.topkLen + a.swaLen ≤ l.combinedTopk ∧
      (∀ col < l.combinedTopk, out.combinedIndices ((token - out.queryStart) * l.combinedTopk + col) =
        a.rowValue (topkIndices token) col) ∧
      out.combinedLens (token - out.queryStart) = a.topkLen + a.swaLen := by
  obtain ⟨-, hbatch, hsum⟩ := chunk_of_request (l := l) hr
  have h₀ : b.queryStartLoc b.numDecodes ≤ b.queryStartLoc (b.numDecodes + r / l.chunkSize * l.chunkSize) :=
    start_le (b := b) (Nat.zero_le _) (by omega)
  have h₁ : b.queryStartLoc (b.numDecodes + r / l.chunkSize * l.chunkSize) ≤ b.queryStartLoc (b.numDecodes + r) :=
    start_le (b := b) (by omega) (by omega)
  have h₂ : b.queryStartLoc (b.numDecodes + (r + 1)) ≤
      b.queryStartLoc (b.numDecodes + min (r / l.chunkSize * l.chunkSize + l.chunkSize) b.numPrefills) :=
    start_le (b := b) (by omega) (by omega)
  have hstart : b.numDecodes + r / l.chunkSize * l.chunkSize + r % l.chunkSize = b.numDecodes + r := by omega
  have hlocal : b.queryStartLoc (b.numDecodes + r) - b.queryStartLoc b.numDecodes + j -
        (b.queryStartLoc (b.numDecodes + r / l.chunkSize * l.chunkSize) - b.queryStartLoc b.numDecodes) =
      chunkStartOf b (r / l.chunkSize * l.chunkSize) (r % l.chunkSize) + j := by
    rw [chunkStartOf, hstart]
    omega
  have hquery : (b.queryStartLoc (b.numDecodes + r / l.chunkSize * l.chunkSize) - b.queryStartLoc b.numDecodes) +
      (chunkStartOf b (r / l.chunkSize * l.chunkSize) (r % l.chunkSize) + j) =
      b.queryStartLoc (b.numDecodes + r) - b.queryStartLoc b.numDecodes + j := by omega
  have hmem : (r % l.chunkSize, chunkStartOf b (r / l.chunkSize * l.chunkSize) (r % l.chunkSize) + j) ∈
      combineTokens b (r / l.chunkSize * l.chunkSize)
        (min (r / l.chunkSize * l.chunkSize + l.chunkSize) b.numPrefills - r / l.chunkSize * l.chunkSize) := by
    have hstep : chunkStartOf b (r / l.chunkSize * l.chunkSize) (r % l.chunkSize) + j <
        chunkStartOf b (r / l.chunkSize * l.chunkSize) (r % l.chunkSize + 1) := by
      have := b.start_mono r hr
      unfold Batch.queryLen at hj
      unfold chunkStartOf
      rw [← Nat.add_assoc, hstart]
      omega
    exact mem_combineTokens.mpr ⟨hbatch, Nat.le_add_right .., hstep⟩
  obtain ⟨hrow, hlen⟩ := combine_read (l := l) (by omega) (fun t => topkIndices (b.queryStartLoc
    (b.numDecodes + r / l.chunkSize * l.chunkSize) - b.queryStartLoc b.numDecodes + t)) lens hmem
  have hpos : (argsOf l b (r / l.chunkSize * l.chunkSize)
      (r % l.chunkSize, chunkStartOf b (r / l.chunkSize * l.chunkSize) (r % l.chunkSize) + j)).pos = b.prefixLen r + j := by
    simp only [argsOf, tokenArgs, hsum, Batch.prefixLen]
    unfold chunkStartOf
    omega
  refine ⟨argsOf l b (r / l.chunkSize * l.chunkSize)
    (r % l.chunkSize, chunkStartOf b (r / l.chunkSize * l.chunkSize) (r % l.chunkSize) + j), ⟨rfl, rfl, rfl, ?_, hpos, ?_, ?_⟩,
    ⟨?_, ?_⟩, width_fits _, ?_, ?_⟩
  · simp only [argsOf, tokenArgs, hsum]
  · rw [TokenArgs.topkLen, hpos]
    rfl
  · rw [TokenArgs.swaLen, hpos]
    rfl
  · simp only [prefillChunk]
    omega
  · simp only [prefillChunk]
    unfold Batch.queryLen at hj
    rw [← Nat.add_assoc] at h₂
    omega
  · simp only [prefillChunk, hlocal]
    simpa only [hquery] using hrow
  · simp only [prefillChunk, hlocal]
    exact hlen

end

/-- The window of a query lies in the gathered end of its request. -/
theorem window_position {seqLen queryLen prefixLen window i j : Nat} (hsum : prefixLen + queryLen = seqLen) (hj : j < queryLen)
    (hwindow : 0 < window) (hi : i < min (prefixLen + j + 1) window) :
    ∃ w, seqLen - (queryLen + min prefixLen (window - 1)) + w = prefixLen + j + 1 - min (prefixLen + j + 1) window + i ∧
      w < queryLen + min prefixLen (window - 1) := by
  refine ⟨prefixLen + j + 1 - min (prefixLen + j + 1) window + i - (seqLen - (queryLen + min prefixLen (window - 1))), ?_⟩
  omega

end VllmHcu.DeepseekV4
