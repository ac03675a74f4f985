import VllmHcu.Dcp.TopkMergeSound
import VllmHcu.Lib.Ragged
import VllmHcu.Mla.DecodeRows

/-!
# Weights of a packed batch

The queries are packed and the weights are not, so that the kernel gives a row
the weights at its place in the rectangle. That is its own place in the batch as
long as every request before it has the maximal length.
-/

namespace VllmHcu.Mla

open VllmHcu.Dcp (TorchTopk Logits topkIndicesTorch topkRow clamp sortTopk)

/-! ## Cells -/

/-- The token at a cell. -/
def token (lens : List Nat) (c : Nat × Nat) : Nat := (lens.take c.1).sum + c.2

def maxLen (lens : List Nat) : Nat := lens.foldr max 0

section
variable {lens : List Nat} {r n j : Nat}

theorem cells_parts (lens : List Nat) :
    (lens.zipIdx.map fun p => (List.range p.1).map fun j => (p.2, j)).map List.length = lens := by
  rw [List.map_map]
  simp [Function.comp_def, List.zipIdx_map_fst]

theorem cells_getElem? (hr : lens[r]? = some n) (hj : j < n) : (cells lens)[token lens (r, j)]? = some (r, j) := by
  have hpart : (lens.zipIdx.map fun p => (List.range p.1).map fun j => (p.2, j))[r]? =
      some ((List.range n).map fun j => (r, j)) := by simp [hr]
  have := flatten_getElem? hpart (j := j) (by simpa using hj)
  rw [cells_parts] at this
  rw [cells, List.flatMap_def, token, this]
  simp [hj]

@[simp] theorem cells_length (lens : List Nat) : (cells lens).length = lens.sum := by
  rw [cells, List.flatMap_def, List.length_flatten, cells_parts]

theorem exists_cell {t : Nat} (ht : t < lens.sum) : ∃ r n j, lens[r]? = some n ∧ j < n ∧ t = token lens (r, j) :=
  exists_row ht

theorem mem_cells {c : Nat × Nat} (hc : c ∈ cells lens) : ∃ n, lens[c.1]? = some n ∧ c.2 < n := by
  obtain ⟨p, hp, hc⟩ := List.mem_flatMap.mp hc
  obtain ⟨j, hj, rfl⟩ := List.mem_map.mp hc
  exact ⟨p.1, List.mem_zipIdx_iff_getElem?.mp hp, List.mem_range.mp hj⟩

theorem le_maxLen (hr : lens[r]? = some n) : n ≤ maxLen lens := le_foldr_max (List.mem_of_getElem? hr)

theorem flat_lt (hr : lens[r]? = some n) (hj : j < n) : r * maxLen lens + j < lens.length * maxLen lens :=
  block_lt (List.getElem?_eq_some_iff.mp hr).1 (hj.trans_le (le_maxLen hr))

theorem take_sum_of_full (h : ∀ x ∈ lens.take r, x = maxLen lens) (hr : r ≤ lens.length) :
    (lens.take r).sum = r * maxLen lens := by
  have := List.sum_eq_card_nsmul (lens.take r) (maxLen lens) h
  simpa [hr] using this

theorem take_sum_eq_iff (hr : r ≤ lens.length) :
    (lens.take r).sum = r * maxLen lens ↔ ∀ x ∈ lens.take r, x = maxLen lens := by
  refine ⟨fun h => ?_, fun h => take_sum_of_full h hr⟩
  refine eq_of_sum_eq (fun x hx => le_foldr_max (List.mem_of_mem_take hx)) ?_
  rw [h, List.length_take, Nat.min_eq_left hr]

theorem sum_of_uniform (h : ∀ x ∈ lens, x = maxLen lens) : lens.sum = lens.length * maxLen lens := by
  simpa using @take_sum_of_full lens lens.length (by simpa using h) le_rfl

end

/-! ## Stored rows -/

section
variable {buffer rows : List (List Int)} {t : Nat}

theorem copyRows_eq_ok {out result : List (List Int)} :
    copyRows out rows = .ok result ↔ out.map List.length = rows.map List.length ∧ rows = result := by
  unfold copyRows
  rw [bind_eq_ok]
  constructor
  · intro ⟨_, hshape, h⟩
    exact ⟨ensure_eq_ok.mp hshape, Except.ok.inj h⟩
  · intro ⟨hshape, h⟩
    exact ⟨(), ensure_eq_ok.mpr hshape, congrArg _ h⟩

theorem storeRows_of_lt {row old : List Int} (hrow : rows[t]? = some row) (hold : buffer[t]? = some old) :
    (storeRows buffer rows)[t]? = some (row ++ old.drop row.length) := by
  obtain ⟨ht, -⟩ := List.getElem?_eq_some_iff.mp hrow
  obtain ⟨ht', -⟩ := List.getElem?_eq_some_iff.mp hold
  rw [storeRows, List.getElem?_append_left (by simp [ht, ht']), List.getElem?_zipWith, hrow, hold]

theorem storeRows_of_ge (hlen : rows.length ≤ buffer.length) (ht : rows.length ≤ t) :
    (storeRows buffer rows)[t]? = buffer[t]? := by
  have hzip : (List.zipWith (fun row old => row ++ old.drop row.length) rows buffer).length = rows.length := by
    simp [hlen]
  rw [storeRows, List.getElem?_append_right (by rw [hzip]; exact ht), hzip, List.getElem?_drop]
  congr 1
  omega

theorem view_shape {n k : Nat} (hlen : n ≤ buffer.length) (hcols : ∀ row ∈ buffer, k ≤ row.length) :
    ((buffer.take n).map (·.take k)).map List.length = List.replicate n k := by
  refine List.eq_replicate_iff.mpr ⟨by simp [hlen], fun m hm => ?_⟩
  rw [List.map_map] at hm
  obtain ⟨row, hrow, rfl⟩ := List.mem_map.mp hm
  have := hcols row (List.mem_of_mem_take hrow)
  simp [this]

end

/-! ## Selection -/

section
variable {α : Type} [LinearOrder α] (topk : TorchTopk α)

theorem topkRow_length (topkTokens cols : Nat) (row : Nat → α) (start stop : Int) :
    (topkRow topk topkTokens cols row start stop).length = topkTokens := by
  have hindices : ∀ masked : List (WithBot α), masked.length = cols →
      (topk.indices masked (min topkTokens cols)).length = min topkTokens cols := by
    intro masked hmasked
    have hk : min topkTokens cols ≤ masked.length := hmasked ▸ Nat.min_le_right _ _
    have hcard := (topk.best masked _ hk).card
    rw [List.toFinset_card_of_nodup (topk.nodup masked _ hk), Finset.card_range] at hcard
    rw [hcard, Nat.min_eq_left hk]
  unfold topkRow
  simp only
  split
  · simp
  · rw [List.length_append, List.length_map, hindices _ (by simp), List.length_replicate]
    omega

theorem topkIndicesTorch_ends {logits : Logits α} {topkTokens : Nat} {rowEnds : List Int}
    (hrows : rowEnds.length = logits.rows) : topkIndicesTorch topk logits topkTokens none (some rowEnds) =
      .ok ((List.range logits.rows).map fun i => topkRow topk topkTokens logits.cols (logits.elem i) 0
        (max (clamp 0 logits.cols (rowEnds.getD i 0)) 0)) := by
  simp only [topkIndicesTorch, hrows, ne_eq, not_true_eq_false, if_false]
  rfl

theorem topkRow_best {cols i : Nat} {row : Nat → α} (hcols : cols ≤ 2 ^ 31) (hi : i < cols)
    (hbest : ∀ k < cols, k ≠ i → row k < row i) (hmany : 1 < cols) : topkRow topk 1 cols row 0 cols = [(i : Int)] := by
  have hsel : Dcp.Selects (fun k => row (0 + k)) 1 (Finset.range cols)
      (topkRow topk 1 cols row (0 : Nat) (0 + cols : Nat)) := Dcp.topkRow_selects topk (by simp) hcols
  simp only [Nat.zero_add, Nat.cast_zero] at hsel
  obtain ⟨e, he⟩ := List.length_eq_one_iff.mp hsel.length
  rw [he] at hsel ⊢
  have hcard := hsel.best.card
  rw [Finset.card_range, Nat.min_eq_left hmany.le] at hcard
  have he0 : 0 ≤ e := by
    by_contra hneg
    simp [Dcp.positions, hneg] at hcard
  have hpos : Dcp.positions [e] = [e.toNat] := by simp [Dcp.positions, he0]
  have hmem : e.toNat ∈ (Dcp.positions [e]).toFinset := by simp [hpos]
  have hlt : e.toNat < cols := Finset.mem_range.mp (hsel.best.subset hmem)
  by_cases hei : e.toNat = i
  · rw [← hei, Int.toNat_of_nonneg he0]
  · have hle := hsel.best.largest _ hmem i (Finset.mem_range.mpr hi) (by simpa [hpos] using Ne.symm hei)
    exact absurd (hbest _ hlt hei) (not_lt.mpr hle)

theorem clamp_end (cols : Nat) (z : Int) : max (clamp 0 cols (max z 0)) 0 = clamp 0 cols z := by
  unfold clamp
  omega

end

/-! ## The decode part -/

namespace DecodeBatch

variable {κ Q W α : Type} [LinearOrder α] {b : DecodeBatch κ Q W} {mqa : MqaKernel κ Q W α} {topk : TorchTopk α}
  {ends : Nat → Nat → Int} {buffer out : List (List Int)}

/-- What the metadata builder and the allocation of the buffer give. -/
structure Fits (b : DecodeBatch κ Q W) (ends : Nat → Nat → Int) (buffer : List (List Int)) : Prop where
  tokens : b.numDecodeTokens = b.decodeLens.sum
  uniform : b.requiresPadding = false → ∀ n ∈ b.decodeLens, n = maxLen b.decodeLens
  seqLens : b.seqLens = .perRow b.decodeLens.length (maxLen b.decodeLens) ends
  rows : b.decodeLens.sum ≤ buffer.length
  cols : ∀ row ∈ buffer, b.topkTokens ≤ row.length

variable (b mqa topk) in
/-- The selection of a query row with a row of weights, for a request and the end of its row. -/
def selection (q : Q) (w : W) (r : Nat) (stop : Int) : List Int :=
  topkRow topk b.topkTokens b.maxModelLen (mqa b.cache q w (b.blockTable r) stop) 0 (clamp 0 b.maxModelLen stop)

variable (b mqa topk ends) in
/-- The selection at a cell: its own query and row end, and the weights at its place in the rectangle. -/
def stored (c : Nat × Nat) : List Int :=
  b.selection mqa topk (b.q (token b.decodeLens c)) (b.weights (c.1 * maxLen b.decodeLens + c.2)) c.1 (ends c.1 c.2)

theorem exists_padded (h : b.Fits ends buffer) (hne : b.decodeLens ≠ []) : ∃ elem,
    b.padded = .ok ⟨b.decodeLens.length, maxLen b.decodeLens, elem⟩ ∧
    ∀ r n j, b.decodeLens[r]? = some n → j < n → elem r j = b.q (token b.decodeLens (r, j)) := by
  unfold padded
  cases hp : b.requiresPadding with
  | true =>
    refine ⟨_, rfl, fun r n j hr hj => ?_⟩
    simp [List.getD_eq_getElem?_getD, hr, hj, token]
  | false =>
    have huniform := h.uniform hp
    have hlen : 0 < b.decodeLens.length := List.length_pos_iff.mpr hne
    have hsum : b.numDecodeTokens = b.decodeLens.length * maxLen b.decodeLens := h.tokens.trans (sum_of_uniform huniform)
    have hdiv : b.numDecodeTokens / b.decodeLens.length = maxLen b.decodeLens := by
      rw [hsum, Nat.mul_div_cancel_left _ hlen]
    refine ⟨fun r j => b.q (r * maxLen b.decodeLens + j), ?_, fun r n j hr hj => ?_⟩
    · rw [if_neg (by simp), reshapeRows, hdiv]
      refine bind_eq_ok.mpr ⟨(), ensure_eq_ok.mpr ⟨hlen, ?_⟩, rfl⟩
      rw [hsum, Nat.mul_mod_right]
    · have hr' := (List.getElem?_eq_some_iff.mp hr).1
      rw [token, take_sum_of_full (fun x hx => huniform x (List.mem_of_mem_take hx)) hr'.le]

/-- The kernel checks that it has a row of weights for each row of the rectangle. -/
theorem rows_of_run (h : b.Fits ends buffer) (hne : b.decodeLens ≠ []) (hrun : b.run mqa topk buffer = .ok out) :
    b.decodeLens.length * maxLen b.decodeLens ≤ b.weightRows := by
  obtain ⟨elem, hpadded, -⟩ := exists_padded h hne
  unfold run at hrun
  obtain ⟨padded, hp, hrun⟩ := bind_eq_ok.mp hrun
  obtain rfl := Except.ok.inj (hpadded.symm.trans hp)
  obtain ⟨-, -, hrun⟩ := bind_eq_ok.mp hrun
  obtain ⟨logits, hlogits, -⟩ := bind_eq_ok.mp hrun
  obtain ⟨_, hweights, -⟩ := bind_eq_ok.mp hlogits
  exact min_eq_left_iff.mp (ensure_eq_ok.mp hweights)

variable (b mqa ends) in
/-- What the kernel gives for the packed queries. -/
def logits (elem : Nat → Nat → Q) : Logits α where
  rows := b.decodeLens.length * maxLen b.decodeLens
  cols := b.maxModelLen
  elem i c := mqa b.cache (elem (i / maxLen b.decodeLens) (i % maxLen b.decodeLens)) (b.weights i)
    (b.blockTable (i / maxLen b.decodeLens)) (ends (i / maxLen b.decodeLens) (i % maxLen b.decodeLens)) c

variable (b mqa topk ends) in
/-- What is selected for the rows of the rectangle. -/
def selected (elem : Nat → Nat → Q) : List (List Int) :=
  (List.range (b.decodeLens.length * maxLen b.decodeLens)).map fun i =>
    topkRow topk b.topkTokens b.maxModelLen ((b.logits mqa ends elem).elem i) 0
      (clamp 0 b.maxModelLen (ends (i / maxLen b.decodeLens) (i % maxLen b.decodeLens)))

section
variable {elem : Nat → Nat → Q}

omit [LinearOrder α] in
theorem logits_eq (h : b.Fits ends buffer) (hweights : b.decodeLens.length * maxLen b.decodeLens ≤ b.weightRows) :
    rocmFp8PagedMqaLogits mqa ⟨b.decodeLens.length, maxLen b.decodeLens, elem⟩ b.cache b.weights
      (min (b.decodeLens.length * maxLen b.decodeLens) b.weightRows) b.seqLens b.blockTable b.maxModelLen =
      .ok (b.logits mqa ends elem) := by
  refine bind_eq_ok.mpr ⟨(), ensure_eq_ok.mpr (Nat.min_eq_left hweights), ?_⟩
  rw [h.seqLens]
  rfl

omit [LinearOrder α] in
theorem rowEnds_eq (h : b.Fits ends buffer) :
    decodeRowEndsFromSeqLens b.seqLens (maxLen b.decodeLens) (b.logits mqa ends elem).rows =
      (List.range (b.decodeLens.length * maxLen b.decodeLens)).map fun i =>
        max (ends (i / maxLen b.decodeLens) (i % maxLen b.decodeLens)) 0 := by
  rw [h.seqLens]
  simp only [decodeRowEndsFromSeqLens]
  rw [List.take_of_length_le (by simp [logits]), List.map_map]
  rfl

theorem selected_eq (h : b.Fits ends buffer) :
    topkIndicesTorch topk (b.logits mqa ends elem) b.topkTokens none
      (some (decodeRowEndsFromSeqLens b.seqLens (maxLen b.decodeLens) (b.logits mqa ends elem).rows)) =
      .ok (b.selected mqa topk ends elem) := by
  rw [rowEnds_eq h, topkIndicesTorch_ends topk (by simp [logits])]
  refine congrArg Except.ok (List.map_congr_left fun i hi => ?_)
  have hi' : i < b.decodeLens.length * maxLen b.decodeLens := List.mem_range.mp hi
  rw [List.getD_eq_getElem?_getD, List.getElem?_map, List.getElem?_range hi']
  exact congrArg _ (clamp_end b.maxModelLen _)

theorem selected_shape : (b.selected mqa topk ends elem).map List.length =
    List.replicate (b.decodeLens.length * maxLen b.decodeLens) b.topkTokens := by
  refine List.eq_replicate_iff.mpr ⟨by simp [selected], fun m hm => ?_⟩
  rw [selected, List.map_map] at hm
  obtain ⟨i, -, rfl⟩ := List.mem_map.mp hm
  exact topkRow_length topk ..

theorem stored_shape : ((cells b.decodeLens).map (b.stored mqa topk ends)).map List.length =
    List.replicate b.decodeLens.sum b.topkTokens := by
  refine List.eq_replicate_iff.mpr ⟨by simp, fun m hm => ?_⟩
  rw [List.map_map] at hm
  obtain ⟨c, -, rfl⟩ := List.mem_map.mp hm
  exact topkRow_length topk ..

variable (hqueries : ∀ r n j, b.decodeLens[r]? = some n → j < n → elem r j = b.q (token b.decodeLens (r, j)))
include hqueries

theorem selected_cell {r n j : Nat} (hr : b.decodeLens[r]? = some n) (hj : j < n) :
    (b.selected mqa topk ends elem)[r * maxLen b.decodeLens + j]? = some (b.stored mqa topk ends (r, j)) := by
  have hmax : j < maxLen b.decodeLens := hj.trans_le (le_maxLen hr)
  simp only [selected, List.getElem?_map, List.getElem?_range (flat_lt hr hj), Option.map_some, logits, block_div hmax,
    block_mod hmax, hqueries r n j hr hj]
  rfl

theorem unpack_selected :
    unpackSeqTriton (fun r j => (b.selected mqa topk ends elem).getD (r * maxLen b.decodeLens + j) []) b.decodeLens =
      (cells b.decodeLens).map (b.stored mqa topk ends) := by
  refine List.map_congr_left fun c hc => ?_
  obtain ⟨n, hr, hj⟩ := mem_cells hc
  simp only
  rw [List.getD_eq_getElem?_getD, selected_cell hqueries hr hj]
  rfl

theorem selected_of_uniform (huniform : ∀ n ∈ b.decodeLens, n = maxLen b.decodeLens) :
    b.selected mqa topk ends elem = (cells b.decodeLens).map (b.stored mqa topk ends) := by
  have hlen : (b.selected mqa topk ends elem).length = b.decodeLens.sum := by
    rw [selected, List.length_map, List.length_range, sum_of_uniform huniform]
  refine List.ext_getElem? fun t => ?_
  by_cases ht : t < b.decodeLens.sum
  · obtain ⟨r, n, j, hr, hj, rfl⟩ := exists_cell ht
    have hr' := (List.getElem?_eq_some_iff.mp hr).1
    rw [List.getElem?_map, cells_getElem? hr hj, token,
      take_sum_of_full (fun x hx => huniform x (List.mem_of_mem_take hx)) hr'.le]
    exact selected_cell hqueries hr hj
  · rw [List.getElem?_eq_none (by omega), List.getElem?_eq_none (by simpa using ht)]

theorem store_eq (h : b.Fits ends buffer) : b.store buffer (maxLen b.decodeLens) (b.selected mqa topk ends elem) =
    .ok (storeRows buffer ((cells b.decodeLens).map (b.stored mqa topk ends))) := by
  unfold store
  cases hp : b.requiresPadding with
  | true =>
    rw [if_pos rfl]
    refine bind_eq_ok.mpr ⟨_, copyRows_eq_ok.mpr ⟨?_, unpack_selected hqueries⟩, rfl⟩
    rw [unpack_selected hqueries, stored_shape, h.tokens, view_shape h.rows h.cols]
  | false =>
    rw [selected_of_uniform hqueries (h.uniform hp)]
    rfl

end

theorem output_shape (h : b.Fits ends buffer) :
    (getDecodeTopkOutputBuffer buffer (b.decodeLens.length * maxLen b.decodeLens) b.topkTokens b.requiresPadding).map
      List.length = List.replicate (b.decodeLens.length * maxLen b.decodeLens) b.topkTokens := by
  unfold getDecodeTopkOutputBuffer
  cases hp : b.requiresPadding with
  | true => simp
  | false => exact view_shape (by rw [← sum_of_uniform (h.uniform hp)]; exact h.rows) h.cols

theorem run_eq (h : b.Fits ends buffer) (hne : b.decodeLens ≠ [])
    (hweights : b.decodeLens.length * maxLen b.decodeLens ≤ b.weightRows) :
    b.run mqa topk buffer = .ok (storeRows buffer ((cells b.decodeLens).map (b.stored mqa topk ends))) := by
  obtain ⟨elem, hpadded, hqueries⟩ := exists_padded h hne
  have hbatch : b.decodeLens.length = b.seqLens.batch := by
    rw [h.seqLens]
    rfl
  unfold run
  refine bind_eq_ok.mpr ⟨_, hpadded, bind_eq_ok.mpr ⟨(), ensure_eq_ok.mpr hbatch, ?_⟩⟩
  refine bind_eq_ok.mpr ⟨_, logits_eq h hweights, bind_eq_ok.mpr ⟨_, selected_eq h, ?_⟩⟩
  refine bind_eq_ok.mpr ⟨_, copyRows_eq_ok.mpr ⟨?_, rfl⟩, store_eq hqueries h⟩
  rw [selected_shape]
  exact output_shape h

variable (b mqa topk ends buffer) in
/-- Every decode token has the selection from its own query, weights and row end, and the rows after them are as before. -/
def Together : Prop :=
  ∃ out, b.run mqa topk buffer = .ok out ∧
    (∀ r n j, b.decodeLens[r]? = some n → j < n → ∃ old, buffer[token b.decodeLens (r, j)]? = some old ∧
      out[token b.decodeLens (r, j)]? = some (b.selection mqa topk (b.q (token b.decodeLens (r, j)))
        (b.weights (token b.decodeLens (r, j))) r (ends r j) ++ old.drop b.topkTokens)) ∧
    ∀ t, b.decodeLens.sum ≤ t → out[t]? = buffer[t]?

theorem Fits.run_token (h : b.Fits ends buffer) (mqa : MqaKernel κ Q W α) (topk : TorchTopk α) (hne : b.decodeLens ≠ [])
    (hweights : b.decodeLens.length * maxLen b.decodeLens ≤ b.weightRows) {r n j : Nat} (hr : b.decodeLens[r]? = some n)
    (hj : j < n) : ∃ out old, b.run mqa topk buffer = .ok out ∧ buffer[token b.decodeLens (r, j)]? = some old ∧
      out[token b.decodeLens (r, j)]? = some (b.stored mqa topk ends (r, j) ++ old.drop b.topkTokens) := by
  have hrow : ((cells b.decodeLens).map (b.stored mqa topk ends))[token b.decodeLens (r, j)]? =
      some (b.stored mqa topk ends (r, j)) := by
    rw [List.getElem?_map, cells_getElem? hr hj]
    rfl
  obtain ⟨hlt, -⟩ := List.getElem?_eq_some_iff.mp hrow
  rw [List.length_map, cells_length] at hlt
  obtain ⟨old, hold⟩ : ∃ old, buffer[token b.decodeLens (r, j)]? = some old :=
    ⟨_, List.getElem?_eq_getElem (hlt.trans_le h.rows)⟩
  refine ⟨_, old, run_eq h hne hweights, hold, ?_⟩
  rw [storeRows_of_lt hrow hold]
  congr 2
  rw [stored, selection, topkRow_length]

theorem together_of_token (h : b.Fits ends buffer) (hne : b.decodeLens ≠ [])
    (hweights : b.decodeLens.length * maxLen b.decodeLens ≤ b.weightRows)
    (hplace : ∀ r n j, b.decodeLens[r]? = some n → j < n → r * maxLen b.decodeLens + j = token b.decodeLens (r, j)) :
    b.Together mqa topk ends buffer := by
  refine ⟨_, run_eq h hne hweights, fun r n j hr hj => ?_, fun t ht => ?_⟩
  · obtain ⟨out, old, hrun, hold, hout⟩ := h.run_token mqa topk hne hweights hr hj
    rw [run_eq h hne hweights] at hrun
    cases hrun
    refine ⟨old, hold, ?_⟩
    rw [hout, stored, hplace r n j hr hj]
  · exact storeRows_of_ge (by simpa using h.rows) (by simpa using ht)

end DecodeBatch

/-! ## The condition -/

/-- Two columns, of which the weights choose the one that scores higher. -/
def chooses : MqaKernel Unit Unit Bool Int := fun _ _ w _ _ c => if decide (c = 1) = w then 1 else 0

/-- A batch in which one row of the weights differs from the others. -/
def marked (lens : List Nat) (weightRows t : Nat) : DecodeBatch Unit Unit Bool where
  decodeLens := lens
  numDecodeTokens := lens.sum
  requiresPadding := true
  seqLens := .perRow lens.length (maxLen lens) fun _ _ => 2
  blockTable := fun _ => []
  q := fun _ => ()
  pad := ()
  weights := fun i => decide (i = t)
  weightRows := weightRows
  cache := ()
  maxModelLen := 2
  topkTokens := 1

theorem marked_selection (topk : TorchTopk Int) (lens : List Nat) (weightRows t : Nat) (w : Bool) (r : Nat) :
    (marked lens weightRows t).selection chooses topk () w r 2 = [if w then 1 else 0] := by
  have hbest : ∀ i : Nat, i < 2 → decide (i = 1) = w → topkRow topk 1 2 (chooses () () w [] 2) 0 (2 : Nat) = [(i : Int)] := by
    intro i hi hw
    refine topkRow_best topk (show 2 ≤ 2 ^ 31 by decide) hi (fun k hk hki => ?_) (by decide)
    have hk1 : decide (k = 1) ≠ w := by
      rw [← hw, ne_eq, decide_eq_decide]
      omega
    simp [chooses, hk1, hw]
  cases w with
  | true => exact hbest 1 (by omega) rfl
  | false => exact hbest 0 (by omega) rfl

theorem marked_fits (lens : List Nat) (weightRows t : Nat) {buffer : List (List Int)} (hrows : lens.sum ≤ buffer.length)
    (hcols : ∀ row ∈ buffer, 1 ≤ row.length) : (marked lens weightRows t).Fits (fun _ _ => 2) buffer where
  tokens := rfl
  uniform := nofun
  seqLens := rfl
  rows := hrows
  cols := hcols

/-- The queries, the weights, the row ends and the stored rows of the decode tokens stay together, whatever they hold, if and
only if every request but the last has the maximal length and the weights have a row for each row of the rectangle. -/
theorem decode_rows_together_iff {lens : List Nat} {weightRows : Nat} (hne : lens ≠ []) (hpos : ∀ n ∈ lens, 0 < n) :
    (∀ (κ Q W α : Type) [LinearOrder α] (b : DecodeBatch κ Q W) (mqa : MqaKernel κ Q W α) (topk : TorchTopk α)
      (ends : Nat → Nat → Int) (buffer : List (List Int)), b.decodeLens = lens → b.weightRows = weightRows →
      b.Fits ends buffer → b.Together mqa topk ends buffer) ↔
    (∀ r n, lens[r]? = some n → r + 1 < lens.length → n = maxLen lens) ∧ lens.length * maxLen lens ≤ weightRows := by
  constructor
  · intro h
    have hfits := fun t => @marked_fits lens weightRows t (List.replicate lens.sum [0]) (by simp) (by simp)
    have hmarked := fun t => h Unit Unit Bool Int (marked lens weightRows t) chooses sortTopk (fun _ _ => 2) _ rfl rfl (hfits t)
    have hweights : lens.length * maxLen lens ≤ weightRows := by
      obtain ⟨out, hrun, -⟩ := hmarked 0
      exact DecodeBatch.rows_of_run (hfits 0) hne hrun
    -- the token whose weights are marked is selected with them
    have hplace : ∀ r n j, lens[r]? = some n → j < n → r * maxLen lens + j = token lens (r, j) := by
      intro r n j hr hj
      obtain ⟨out, hrun, hrows, -⟩ := hmarked (token lens (r, j))
      obtain ⟨old, hold, hown⟩ := hrows r n j hr hj
      obtain ⟨out', old', hrun', hold', hstored⟩ :=
        (hfits (token lens (r, j))).run_token chooses sortTopk hne hweights hr hj
      rw [hrun] at hrun'
      cases hrun'
      have hold'' := hold.symm.trans hold'
      cases hold''
      have hsame := List.append_cancel_right (Option.some.inj (hown.symm.trans hstored))
      have hfirst := (marked_selection sortTopk lens weightRows (token lens (r, j)) _ r).symm.trans
        (hsame.trans (marked_selection sortTopk lens weightRows (token lens (r, j)) _ r))
      by_contra hdiff
      simp [marked, hdiff] at hfirst
    refine ⟨fun r n hr hlast => ?_, hweights⟩
    obtain ⟨m, hm⟩ : ∃ m, lens[lens.length - 1]? = some m := ⟨_, List.getElem?_eq_getElem (by omega)⟩
    have hsum := hplace (lens.length - 1) m 0 hm (hpos m (List.mem_of_getElem? hm))
    have hall := (take_sum_eq_iff (Nat.sub_le lens.length 1)).mp hsum.symm
    refine hall n (List.mem_of_getElem? (i := r) ?_)
    rw [List.getElem?_take_of_lt (by omega), hr]
  · intro ⟨hfull, hweights⟩ κ Q W α _ b mqa topk ends buffer hlens hrows hfits
    subst hlens hrows
    refine DecodeBatch.together_of_token hfits hne hweights fun r n j hr hj => ?_
    have hr' := (List.getElem?_eq_some_iff.mp hr).1
    rw [token, take_sum_of_full (fun x hx => ?_) hr'.le]
    obtain ⟨i, hi⟩ := List.mem_iff_getElem?.mp hx
    obtain ⟨hi', -⟩ := List.getElem?_eq_some_iff.mp hi
    rw [List.length_take] at hi'
    rw [List.getElem?_take_of_lt (by omega)] at hi
    exact hfull i x hi (by omega)

theorem decode_rows_short_last :
    (marked [2, 1] 4 1).Together chooses sortTopk (fun _ _ => 2) [[0], [0], [0], [7]] := by
  refine (@decode_rows_together_iff [2, 1] 4 (by decide) (by decide)).mpr ⟨fun r n hr hlast => ?_, by decide⟩
    Unit Unit Bool Int _ _ _ _ _ rfl rfl (marked_fits [2, 1] 4 1 (by decide) (by decide))
  obtain rfl : r = 0 := by
    simp only [List.length_cons, List.length_nil] at hlast
    omega
  cases hr
  rfl

/-- Requests of one and of two tokens and a token of prefill: the first token of the second request is selected with the
weights of its second token. -/
theorem short_first_takes_next_weights : ∃ out, (marked [1, 2] 4 1).run chooses sortTopk [[0], [0], [0], [7]] = .ok out ∧
    out[1]? = some [0] ∧
    (marked [1, 2] 4 1).selection chooses sortTopk () ((marked [1, 2] 4 1).weights 1) 1 2 = [1] ∧
    ¬(marked [1, 2] 4 1).Together chooses sortTopk (fun _ _ => 2) [[0], [0], [0], [7]] := by
  have hfits := @marked_fits [1, 2] 4 1 [[0], [0], [0], [7]] (by decide) (by decide)
  obtain ⟨out, old, hrun, hold, hout⟩ := hfits.run_token chooses sortTopk (r := 1) (n := 2) (j := 0) (by decide) (by decide) rfl
    (by decide)
  have hstored : (marked [1, 2] 4 1).stored chooses sortTopk (fun _ _ => 2) (1, 0) = [0] :=
    marked_selection sortTopk [1, 2] 4 1 false 1
  have hown : (marked [1, 2] 4 1).selection chooses sortTopk () ((marked [1, 2] 4 1).weights 1) 1 2 = [1] :=
    marked_selection sortTopk [1, 2] 4 1 true 1
  cases hold
  rw [hstored] at hout
  refine ⟨out, hrun, hout, hown, fun ⟨out', hrun', hrows, _⟩ => ?_⟩
  rw [hrun] at hrun'
  cases hrun'
  obtain ⟨old', hold', hrow⟩ := hrows 1 2 0 rfl (by decide)
  cases hold'
  have hsame := List.append_cancel_right (Option.some.inj (hrow.symm.trans hout))
  have : ([1] : List Int) = [0] := hown.symm.trans hsame
  cases this

end VllmHcu.Mla
