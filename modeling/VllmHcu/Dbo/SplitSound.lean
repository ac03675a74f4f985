import VllmHcu.Dbo.Split
import VllmHcu.Lib.Prefix

/-!
# The ranks agree on the split

What a rank returns before the vote depends only on counts that all ranks have,
so either every rank votes or none does. A split that is voted for leaves a long
query in both halves of every rank.
-/

namespace VllmHcu.Dbo

/-! ## The vote -/

section
variable {dboMinTokens numTokens : Int} {across : Option (List Int)}

theorem checkUbatchThresholds_cases (dboMinTokens numTokens : Int) (across : Option (List Int)) :
    (∀ rank, checkUbatchThresholds dboMinTokens numTokens across rank = .returns false) ∨
    ∃ largest, across.bind (·.max?) = some largest ∧
      ∀ rank, checkUbatchThresholds dboMinTokens numTokens across rank = .votes (rank.eligible (largest / 2)) := by
  unfold checkUbatchThresholds
  by_cases hmin : numTokens < dboMinTokens
  · exact .inl fun _ => by rw [if_pos hmin]
  · cases hmax : across.bind (·.max?) with
    | none => exact .inl fun _ => by simp
    | some largest =>
      by_cases htail : numTokens - largest / 2 < minTail
      · exact .inl fun _ => by simp [htail]
      · exact .inr ⟨largest, rfl, fun _ => by simp [hmin, htail]⟩

theorem decisions_returns {ranks : List Rank} {decision : Bool} :
    decisions (ranks.map fun _ => .returns decision) = ranks.map fun _ => some decision := by
  unfold decisions
  rw [List.map_map]
  rfl

theorem decisions_votes {ranks : List Rank} {eligible : Rank → Bool} :
    decisions (ranks.map fun r => .votes (eligible r)) = ranks.map fun _ => some (ranks.all eligible) := by
  unfold decisions
  rw [List.map_map, List.all_map, List.all_map]
  refine List.map_congr_left fun rank _ => ?_
  simp only [Function.comp_def]
  rw [if_pos (by simp)]

end

/-! ## The gate's halves -/

/-- The length of a request before the cut, and behind it. -/
def leftLen (lens : List Int) (splitPoint : Int) (i : Nat) : Int :=
  min (lens.take (i + 1)).sum splitPoint - min (lens.take i).sum splitPoint

def rightLen (lens : List Int) (splitPoint : Int) (i : Nat) : Int :=
  max (lens.take (i + 1)).sum splitPoint - max (lens.take i).sum splitPoint

theorem halves_eq (lens : List Int) (f : Int → Int → Int) :
    List.zipWith f (cumsum lens) (List.zipWith (· - ·) (cumsum lens) lens) =
      (List.range lens.length).map fun i => f (lens.take (i + 1)).sum (lens.take i).sum := by
  apply List.ext_getElem
  · simp [cumsum]
  · intro i h₁ h₂
    have hi : i < lens.length := by simpa using h₂
    have hsum := sum_take_succ lens i
    rw [List.getD_eq_getElem?_getD, List.getElem?_eq_getElem hi, Option.getD_some] at hsum
    simp only [cumsum, List.getElem_zipWith, List.getElem_map, List.getElem_range]
    congr 1
    omega

theorem hasPrefill_spec {queryLens : QueryLens} {numTokens splitPoint : Int} {decodeThreshold : Option Int}
    (h : hasPrefillInBothUbatches queryLens numTokens splitPoint decodeThreshold = true) :
    ∃ lens threshold, queryLens = .ints lens ∧ decodeThreshold = some threshold ∧ 1 ≤ threshold ∧ (∀ x ∈ lens, 0 < x) ∧
      (∃ i < lens.length, threshold < leftLen lens splitPoint i) ∧
      ∃ i < lens.length, threshold < rightLen lens splitPoint i := by
  unfold hasPrefillInBothUbatches at h
  split at h
  · rename_i lens threshold
    split at h
    · cases h
    · rename_i ht
      split at h
      · cases h
      · rename_i hpos
        simp only [halves_eq] at h
        split at h
        · cases h
        · rw [Bool.and_eq_true, List.any_map, List.any_map, List.any_eq_true, List.any_eq_true] at h
          obtain ⟨⟨i, hi, hleft⟩, j, hj, hright⟩ := h
          refine ⟨lens, threshold, rfl, rfl, by omega, fun x hx => ?_,
            ⟨i, List.mem_range.mp hi, by simpa [leftLen] using hleft⟩, ⟨j, List.mem_range.mp hj, by simpa [rightLen] using hright⟩⟩
          simp only [Bool.or_eq_true, not_or, List.any_eq_true, not_exists, not_and, decide_eq_true_eq] at hpos
          have := hpos.1 x hx
          omega
  · cases h

theorem eligible_spec {rank : Rank} {splitPoint : Int} (h : rank.eligible splitPoint = true) :
    ∃ runner lens threshold, rank.current = some (runner, .ints lens) ∧
      dsaDecodeThreshold runner.builders = .ok (some threshold) ∧ 1 ≤ threshold ∧ (∀ x ∈ lens, 0 < x) ∧
      (∃ i < lens.length, threshold < leftLen lens splitPoint i) ∧
      ∃ i < lens.length, threshold < rightLen lens splitPoint i := by
  unfold Rank.eligible at h
  split at h
  · cases h
  · rename_i runner queryLens hcur
    rw [Bool.and_eq_true] at h
    obtain ⟨-, h⟩ := h
    split at h
    · rename_i threshold hthr
      obtain ⟨lens, threshold, rfl, rfl, hrest⟩ := hasPrefill_spec h
      exact ⟨runner, lens, threshold, hcur, hthr, hrest⟩
    · cases h

/-! ## The slices -/

section
variable {lens : List Int} {splitPoint : Int}

theorem lt_searchsortedLeft (hpos : ∀ x ∈ lens, 0 < x) (splitPoint : Int) (r : Nat) :
    r < searchsortedLeft (cuNumTokens lens) splitPoint ↔ r ≤ lens.length ∧ (lens.take r).sum < splitPoint := by
  unfold searchsortedLeft cuNumTokens
  rw [List.countP_map, lt_countP_range]
  · simp [Nat.lt_succ_iff]
  · intro i j hij hj
    have := sum_take_mono (fun x hx => (hpos x hx).le) hij
    simp only [Function.comp_apply, decide_eq_true_eq] at hj ⊢
    omega

theorem lt_searchsortedRight (hpos : ∀ x ∈ lens, 0 < x) (splitPoint : Int) (r : Nat) :
    r < searchsortedRight (cuNumTokens lens) splitPoint ↔ r ≤ lens.length ∧ (lens.take r).sum ≤ splitPoint := by
  unfold searchsortedRight cuNumTokens
  rw [List.countP_map, lt_countP_range]
  · simp [Nat.lt_succ_iff]
  · intro i j hij hj
    have := sum_take_mono (fun x hx => (hpos x hx).le) hij
    simp only [Function.comp_apply, decide_eq_true_eq] at hj ⊢
    omega

/-- The slices of the two halves, the second with padding behind it. -/
def firstSlice (lens : List Int) (splitPoint : Int) : UBatchSlice :=
  ⟨0, searchsortedLeft (cuNumTokens lens) splitPoint, 0, splitPoint⟩

def secondSlice (lens : List Int) (splitPoint : Int) (padding : Nat) (tokenStop : Int) : UBatchSlice :=
  ⟨searchsortedRight (cuNumTokens lens) splitPoint - 1, lens.length + padding, splitPoint, tokenStop⟩

theorem searchsortedRight_zero (hpos : ∀ x ∈ lens, 0 < x) : searchsortedRight (cuNumTokens lens) 0 = 1 := by
  have h₀ := (lt_searchsortedRight hpos 0 0).mpr ⟨Nat.zero_le _, by simp⟩
  by_contra hne
  obtain ⟨hlen, hsum⟩ := (lt_searchsortedRight hpos 0 1).mp (by omega)
  cases lens with
  | nil => simp at hlen
  | cons x rest =>
    have := hpos x List.mem_cons_self
    simp at hsum
    omega

theorem searchsortedLeft_sum (hpos : ∀ x ∈ lens, 0 < x) : searchsortedLeft (cuNumTokens lens) lens.sum = lens.length := by
  have hlast : ¬ lens.length < searchsortedLeft (cuNumTokens lens) lens.sum := by
    rw [lt_searchsortedLeft hpos, List.take_length]
    omega
  by_contra hne
  obtain ⟨r, hr⟩ : ∃ r, lens.length = r + 1 := ⟨lens.length - 1, by omega⟩
  have hmem : r < lens.length := by omega
  refine absurd ((lt_searchsortedLeft hpos lens.sum r).mpr ⟨by omega, ?_⟩) (by omega)
  have hsum := sum_take_succ lens r
  rw [← hr, List.take_length, List.getD_eq_getElem?_getD, List.getElem?_eq_getElem hmem, Option.getD_some] at hsum
  have := hpos _ (List.getElem_mem hmem)
  omega

theorem maybeCreateUbatchSlices_two (hpos : ∀ x ∈ lens, 0 < x) {largest : Int} (hl : 0 ≤ largest) :
    maybeCreateUbatchSlices lens largest 2 .default =
      .ok [firstSlice lens (largest / 2), secondSlice lens (largest / 2) 0 lens.sum] := by
  have hpoints : tokenSplitPoints largest 2 .default = .ok [largest / 2] := by simp [tokenSplitPoints]
  have hrange : ¬ ([largest / 2].any fun p => p < 0 || largest < p) = true := by
    simp only [List.any_cons, List.any_nil, Bool.or_false, Bool.or_eq_true, decide_eq_true_eq]
    omega
  unfold maybeCreateUbatchSlices
  rw [hpoints]
  simp only [bind, Except.bind, pure, Except.pure, hrange, List.pairwise_singleton]
  simp [firstSlice, secondSlice, searchsortedRight_zero hpos, searchsortedLeft_sum hpos, createSlices]

end

/-! ## The microbatches -/

/-- The query starts of a slice are those of its requests, cut to its tokens. -/
def SlicesQueries (orig : InputBatch → UBatchSlice → List Int) : Prop :=
  ∀ batch s, orig batch s = (slice batch.queryStartLocNp s.requestStart (s.requestStop + 1)).map fun x =>
    min (max x s.tokenStart) s.tokenStop - s.tokenStart

section
variable {orig : InputBatch → UBatchSlice → List Int} (horig : SlicesQueries orig)
  {batch : InputBatch} {rows : List Int} (hbatch : batch.queryStartLocNp = cuNumTokens rows)
  {s : UBatchSlice} (hstop : s.requestStop ≤ rows.length)

include horig hbatch hstop

theorem queryLens_length : (sliceInputBatch orig batch s).queryLens.length = s.requestStop - s.requestStart := by
  simp only [UBatch.queryLens, sliceInputBatch, diff, horig batch s, slice, hbatch, cuNumTokens]
  simp
  omega

theorem queryLens_getElem {j : Nat} (hj : j < s.requestStop - s.requestStart) :
    (sliceInputBatch orig batch s).queryLens.getD j 0 =
      min (max (rows.take (s.requestStart + j + 1)).sum s.tokenStart) s.tokenStop -
        min (max (rows.take (s.requestStart + j)).sum s.tokenStart) s.tokenStop := by
  have hlen := queryLens_length horig hbatch hstop
  rw [List.getD_eq_getElem?_getD, List.getElem?_eq_getElem (by omega), Option.getD_some]
  simp only [UBatch.queryLens, sliceInputBatch, diff, horig batch s, slice, hbatch, cuNumTokens]
  simp only [List.getElem_zipWith, List.getElem_tail, List.getElem_map, List.getElem_take, List.getElem_drop,
    List.getElem_range]
  rw [← Nat.add_assoc]
  omega

end

/-- The requests of a batch and rows of padding behind them. -/
def padded (lens : List Int) (padding : Nat) : List Int := lens ++ List.replicate padding 0

/-- The query length of a row in a microbatch. -/
def rowLen (s : UBatchSlice) (ub : UBatch) (row : Nat) : Int :=
  if s.requestStart ≤ row ∧ row < s.requestStop then ub.queryLens.getD (row - s.requestStart) 0 else 0

section
variable {lens : List Int} {padding : Nat}

theorem padded_length : (padded lens padding).length = lens.length + padding := by simp [padded]

theorem padded_take (padding : Nat) {i : Nat} (hi : i ≤ lens.length) : (padded lens padding).take i = lens.take i :=
  List.take_append_of_le_length hi

theorem padded_sum : (padded lens padding).sum = lens.sum := by simp [padded]

theorem padded_nonneg (hpos : ∀ x ∈ lens, 0 < x) (padding : Nat) : ∀ x ∈ padded lens padding, 0 ≤ x := by
  intro x hx
  obtain hx | hx := List.mem_append.mp hx
  · exact (hpos x hx).le
  · rw [List.eq_of_mem_replicate hx]

theorem padded_take_le (hpos : ∀ x ∈ lens, 0 < x) (padding i : Nat) : ((padded lens padding).take i).sum ≤ lens.sum := by
  have hmono := sum_take_mono (padded_nonneg hpos padding) (Nat.le_max_left i (padded lens padding).length)
  rwa [List.take_of_length_le (Nat.le_max_right _ _), padded_sum] at hmono

theorem padded_take_of_ge (hpos : ∀ x ∈ lens, 0 < x) {i : Nat} (hi : lens.length ≤ i) :
    ((padded lens padding).take i).sum = lens.sum := by
  have hmono := sum_take_mono (padded_nonneg hpos padding) hi
  rw [padded_take padding (Nat.le_refl _), List.take_length] at hmono
  have := padded_take_le hpos padding i
  omega

theorem leftLen_add_rightLen (rows : List Int) (splitPoint : Int) (r : Nat) :
    leftLen rows splitPoint r + rightLen rows splitPoint r = rows.getD r 0 := by
  have := sum_take_succ rows r
  unfold leftLen rightLen
  omega

end

theorem modify_getD {l : List Int} (i : Nat) (f : Int → Int) {j : Nat} (hj : j < l.length) :
    (l.modify i f).getD j 0 = if i = j then f (l.getD j 0) else l.getD j 0 := by
  rw [List.getD_eq_getElem?_getD, List.getElem?_modify, List.getD_eq_getElem?_getD, List.getElem?_eq_getElem hj]
  split
  · rfl
  · rfl

section
variable {orig : InputBatch → UBatchSlice → List Int} (horig : SlicesQueries orig)
  {lens : List Int} (hpos : ∀ x ∈ lens, 0 < x) {padding : Nat} {splitPoint : Int} (hsplit : splitPoint ≤ lens.sum)
  {batch : InputBatch} (hbatch : batch.queryStartLocNp = cuNumTokens (padded lens padding))

include hpos hsplit in
theorem firstSlice_stop_le : (firstSlice lens splitPoint).requestStop ≤ lens.length := by
  by_contra hlt
  have := (lt_searchsortedLeft hpos splitPoint lens.length).mp (not_le.mp hlt)
  rw [List.take_length] at this
  omega

include horig hpos hsplit hbatch in
theorem first_queryLens {j : Nat} (hj : j < (firstSlice lens splitPoint).requestStop) :
    (sliceInputBatch orig batch (firstSlice lens splitPoint)).queryLens.getD j 0 =
      leftLen (padded lens padding) splitPoint j := by
  have hstop := firstSlice_stop_le hpos hsplit
  rw [queryLens_getElem horig hbatch (by rw [padded_length]; omega) hj]
  have h₀ := sum_take_nonneg (padded_nonneg hpos padding) j
  have h₁ := sum_take_nonneg (padded_nonneg hpos padding) (j + 1)
  simp only [firstSlice, Nat.zero_add, leftLen]
  omega

include horig hpos hsplit hbatch in
theorem first_rowLen (r : Nat) :
    rowLen (firstSlice lens splitPoint) (sliceInputBatch orig batch (firstSlice lens splitPoint)) r =
      leftLen (padded lens padding) splitPoint r := by
  unfold rowLen
  split
  · rename_i hr
    rw [show r - (firstSlice lens splitPoint).requestStart = r from rfl]
    exact first_queryLens horig hpos hsplit hbatch hr.2
  · -- the row lies behind the cut
    rename_i hr
    have hge : splitPoint ≤ ((padded lens padding).take r).sum := by
      by_cases hlen : r ≤ lens.length
      · have := (lt_searchsortedLeft hpos splitPoint r).not.mp (fun h => hr ⟨Nat.zero_le _, h⟩)
        rw [padded_take padding hlen]
        by_contra hlt
        exact this ⟨hlen, by omega⟩
      · rw [padded_take_of_ge hpos (by omega)]
        exact hsplit
    have hmono := sum_take_mono (padded_nonneg hpos padding) (Nat.le_add_right r 1)
    unfold leftLen
    omega

variable (hnonneg : 0 ≤ splitPoint) {tokenStop : Int} (htok : lens.sum ≤ tokenStop)

include hpos hnonneg in
/-- The second half begins at the first request that ends behind the cut. -/
theorem secondSlice_start_le (padding : Nat) (tokenStop : Int) {r : Nat} (hr : r < lens.length) :
    (secondSlice lens splitPoint padding tokenStop).requestStart ≤ r ↔ splitPoint < (lens.take (r + 1)).sum := by
  have hfirst := (lt_searchsortedRight hpos splitPoint 0).mpr ⟨Nat.zero_le _, by simpa using hnonneg⟩
  have hmem := lt_searchsortedRight hpos splitPoint (r + 1)
  unfold secondSlice
  dsimp only
  constructor
  · intro h
    by_contra hle
    have := hmem.mpr ⟨hr, by omega⟩
    omega
  · intro h
    by_contra hlt
    have := hmem.mp (by omega)
    omega

include horig hpos hsplit hbatch htok in
theorem second_queryLens {j : Nat} (hj : j < lens.length + padding - (secondSlice lens splitPoint padding tokenStop).requestStart) :
    (sliceInputBatch orig batch (secondSlice lens splitPoint padding tokenStop)).queryLens.getD j 0 =
      rightLen (padded lens padding) splitPoint ((secondSlice lens splitPoint padding tokenStop).requestStart + j) := by
  rw [queryLens_getElem horig hbatch (by rw [padded_length]; exact Nat.le_refl _) hj]
  generalize (secondSlice lens splitPoint padding tokenStop).requestStart + j = r
  have h₀ := padded_take_le hpos padding r
  have h₁ := padded_take_le hpos padding (r + 1)
  simp only [secondSlice, rightLen]
  omega

include horig hpos hsplit hbatch htok hnonneg in
theorem second_rowLen {r : Nat} (hr : r < lens.length + padding) :
    rowLen (secondSlice lens splitPoint padding tokenStop)
        (sliceInputBatch orig batch (secondSlice lens splitPoint padding tokenStop)) r =
      rightLen (padded lens padding) splitPoint r := by
  unfold rowLen
  split
  · rename_i hin
    rw [second_queryLens horig hpos hsplit hbatch htok (by omega)]
    congr 1
    omega
  · -- the row ends before the cut
    rename_i hout
    have hlen : r < lens.length := by
      by_contra hge
      refine hout ⟨?_, hr⟩
      have hstart : ¬ lens.length + 1 < searchsortedRight (cuNumTokens lens) splitPoint := by
        rw [lt_searchsortedRight hpos]
        omega
      unfold secondSlice
      dsimp only
      omega
    have hle := (secondSlice_start_le hpos hnonneg padding tokenStop hlen).not.mp
      fun h => hout ⟨h, hr⟩
    have htake := padded_take padding (show r + 1 ≤ lens.length by omega)
    have hmono := sum_take_mono (padded_nonneg hpos padding) (Nat.le_add_right r 1)
    unfold rightLen
    rw [htake] at hmono ⊢
    omega

/-! ## The host mirrors -/

variable {seqLens : List Int} (hseq : batch.seqLensCpu = some seqLens)

variable (orig) in
include hpos hsplit hbatch hseq in
theorem first_seqLens (hlen : seqLens.length = lens.length + padding) :
    ∃ l, (sliceInputBatch orig batch (firstSlice lens splitPoint)).seqLensCpu = some l ∧
      l.length = (firstSlice lens splitPoint).requestStop ∧ ∀ j < (firstSlice lens splitPoint).requestStop,
        l.getD j 0 = seqLens.getD j 0 - rightLen (padded lens padding) splitPoint j := by
  have hstop := firstSlice_stop_le hpos hsplit
  set stop := (firstSlice lens splitPoint).requestStop with hstopdef
  have hslice : (slice seqLens 0 stop).length = stop := by
    simp [slice]
    omega
  have hget : ∀ j < stop, (slice seqLens 0 stop).getD j 0 = seqLens.getD j 0 := by
    intro j hj
    simp [slice, hj]
  have hcut : batch.queryStartLocNp.getD stop 0 = ((padded lens padding).take stop).sum := by
    rw [hbatch, cuNumTokens, List.getD_eq_getElem?_getD, List.getElem?_map,
      List.getElem?_range (by rw [padded_length]; omega)]
    rfl
  -- the rows before the last one end before the cut
  have hbefore : ∀ j, j + 1 < stop → rightLen (padded lens padding) splitPoint j = 0 := by
    intro j hj
    obtain ⟨hle, hlt⟩ := (lt_searchsortedLeft hpos splitPoint (j + 1)).mp hj
    have htake := padded_take padding hle
    have hmono := sum_take_mono (padded_nonneg hpos padding) (Nat.le_add_right j 1)
    unfold rightLen
    rw [htake] at hmono ⊢
    omega
  have hlast : ∀ j, j + 1 = stop → rightLen (padded lens padding) splitPoint j =
      max ((padded lens padding).take stop).sum splitPoint - splitPoint := by
    intro j hj
    obtain ⟨hle, hlt⟩ := (lt_searchsortedLeft hpos splitPoint j).mp (show j < stop by omega)
    have htake := padded_take padding hle
    unfold rightLen
    rw [hj, htake]
    omega
  refine ⟨_, by rw [sliceInputBatch]; dsimp only; rw [hseq, Option.map_some], ?_, fun j hj => ?_⟩
  · split
    · rw [List.length_modify]
      exact hslice
    · exact hslice
  · rw [← hstopdef, ← hget j hj]
    change (if 0 < batch.queryStartLocNp.getD stop 0 - splitPoint then
      (slice seqLens 0 stop).modify ((slice seqLens 0 stop).length - 1) (· - (batch.queryStartLocNp.getD stop 0 - splitPoint))
      else slice seqLens 0 stop).getD j 0 = _
    rw [hcut, hslice]
    by_cases hj' : j + 1 = stop
    · rw [hlast j hj']
      have hone : stop - 1 = j := by omega
      split
      · rw [modify_getD _ _ (by omega), if_pos hone]
        omega
      · omega
    · rw [hbefore j (by omega)]
      have hne : stop - 1 ≠ j := by omega
      split
      · rw [modify_getD _ _ (by omega), if_neg hne]
        omega
      · omega

variable (orig splitPoint) in
include hpos hbatch htok hseq in
theorem second_seqLens (hlen : seqLens.length = lens.length + padding) :
    (sliceInputBatch orig batch (secondSlice lens splitPoint padding tokenStop)).seqLensCpu =
      some (seqLens.drop (secondSlice lens splitPoint padding tokenStop).requestStart) := by
  have hcut : ¬ 0 < batch.queryStartLocNp.getD (lens.length + padding) 0 - tokenStop := by
    rw [hbatch, cuNumTokens, List.getD_eq_getElem?_getD, List.getElem?_map,
      List.getElem?_range (by rw [padded_length]; omega)]
    have := padded_take_le hpos padding (lens.length + padding)
    simp only [Option.map_some, Option.getD_some]
    omega
  rw [sliceInputBatch]
  dsimp only [secondSlice]
  rw [hseq, Option.map_some, if_neg hcut, slice, List.take_of_length_le]
  rw [List.length_drop]
  omega

end

/-- What the mirrors of a microbatch say of its rows. -/
def MirrorsAgree (ub : UBatch) : Prop :=
  ∃ seqLens numComputed, ub.seqLensCpu = some seqLens ∧ ub.numComputedTokensCpu = some numComputed ∧
    seqLens.length = ub.queryLens.length ∧ numComputed.length = ub.queryLens.length ∧
    ∀ j < ub.queryLens.length, seqLens.getD j 0 - numComputed.getD j 0 = ub.queryLens.getD j 0

theorem numComputed_eq {orig : InputBatch → UBatchSlice → List Int} {batch : InputBatch} {s : UBatchSlice} {l : List Int}
    (h : (sliceInputBatch orig batch s).seqLensCpu = some l) :
    (sliceInputBatch orig batch s).numComputedTokensCpu =
      some (List.zipWith (· - ·) l (sliceInputBatch orig batch s).queryLens) := by
  unfold sliceInputBatch at h ⊢
  dsimp only at h ⊢
  rw [h]
  rfl

theorem zipWith_sub_getD {l m : List Int} (h : l.length = m.length) {j : Nat} (hj : j < m.length) :
    (List.zipWith (· - ·) l m).getD j 0 = l.getD j 0 - m.getD j 0 := by
  rw [List.getD_eq_getElem?_getD, List.getD_eq_getElem?_getD, List.getD_eq_getElem?_getD, List.getElem?_zipWith,
    List.getElem?_eq_getElem hj, List.getElem?_eq_getElem (h ▸ hj)]
  rfl

theorem mirrorsAgree {orig : InputBatch → UBatchSlice → List Int} {batch : InputBatch} {s : UBatchSlice} {l : List Int}
    (h : (sliceInputBatch orig batch s).seqLensCpu = some l)
    (hlen : l.length = (sliceInputBatch orig batch s).queryLens.length) : MirrorsAgree (sliceInputBatch orig batch s) := by
  refine ⟨l, _, h, numComputed_eq h, hlen, ?_, fun j hj => ?_⟩
  · rw [List.length_zipWith, hlen, Nat.min_self]
  · rw [zipWith_sub_getD hlen hj]
    omega

/-! ## The split -/

/-- A rank's step as two microbatches, with any padding behind the second: both have a long query, the lengths of a
row add up, and the mirrors count the tokens before each half of a row. -/
structure SafeSplit (orig : InputBatch → UBatchSlice → List Int) (lens : List Int) (threshold splitPoint : Int)
    (padding : Nat) (tokenStop : Int) (batch : InputBatch) : Prop where
  prefill : (∃ x ∈ (sliceInputBatch orig batch (firstSlice lens splitPoint)).queryLens, threshold < x) ∧
    ∃ x ∈ (sliceInputBatch orig batch (secondSlice lens splitPoint padding tokenStop)).queryLens, threshold < x
  whole : ∀ row < lens.length + padding,
    rowLen (firstSlice lens splitPoint) (sliceInputBatch orig batch (firstSlice lens splitPoint)) row +
      rowLen (secondSlice lens splitPoint padding tokenStop)
        (sliceInputBatch orig batch (secondSlice lens splitPoint padding tokenStop)) row = (padded lens padding).getD row 0
  mirrors : ∀ seqLens, batch.seqLensCpu = some seqLens → seqLens.length = lens.length + padding →
    MirrorsAgree (sliceInputBatch orig batch (firstSlice lens splitPoint)) ∧
    MirrorsAgree (sliceInputBatch orig batch (secondSlice lens splitPoint padding tokenStop)) ∧
    (∀ numComputed, (sliceInputBatch orig batch (firstSlice lens splitPoint)).numComputedTokensCpu = some numComputed →
      ∀ row < (firstSlice lens splitPoint).requestStop,
        numComputed.getD row 0 = seqLens.getD row 0 - (padded lens padding).getD row 0) ∧
    (sliceInputBatch orig batch (secondSlice lens splitPoint padding tokenStop)).seqLensCpu =
      some (seqLens.drop (secondSlice lens splitPoint padding tokenStop).requestStart)

theorem split_inside {lens : List Int} (hpos : ∀ x ∈ lens, 0 < x) {threshold splitPoint : Int} (ht : 1 ≤ threshold)
    (hleft : ∃ i < lens.length, threshold < leftLen lens splitPoint i)
    (hright : ∃ i < lens.length, threshold < rightLen lens splitPoint i) : 0 < splitPoint ∧ splitPoint < lens.sum := by
  have hnonneg : ∀ x ∈ lens, 0 ≤ x := fun x hx => (hpos x hx).le
  obtain ⟨i, -, hi⟩ := hleft
  obtain ⟨j, hj, hj'⟩ := hright
  have h₀ := sum_take_nonneg hnonneg i
  have h₁ := sum_take_nonneg hnonneg (i + 1)
  have hle := sum_take_mono hnonneg (show j + 1 ≤ lens.length from hj)
  rw [List.take_length] at hle
  unfold leftLen at hi
  unfold rightLen at hj'
  omega

theorem getD_mem {l : List Int} {j : Nat} (hj : j < l.length) : l.getD j 0 ∈ l := by
  rw [List.getD_eq_getElem?_getD, List.getElem?_eq_getElem hj]
  exact List.getElem_mem hj

theorem safeSplit {orig : InputBatch → UBatchSlice → List Int} (horig : SlicesQueries orig) {lens : List Int}
    (hpos : ∀ x ∈ lens, 0 < x) {threshold splitPoint : Int} (ht : 1 ≤ threshold)
    (hleft : ∃ i < lens.length, threshold < leftLen lens splitPoint i)
    (hright : ∃ i < lens.length, threshold < rightLen lens splitPoint i) {padding : Nat} {tokenStop : Int}
    (htok : lens.sum ≤ tokenStop) {batch : InputBatch} (hbatch : batch.queryStartLocNp = cuNumTokens (padded lens padding)) :
    SafeSplit orig lens threshold splitPoint padding tokenStop batch := by
  obtain ⟨h₀, h₁⟩ := split_inside hpos ht hleft hright
  have hstop := firstSlice_stop_le hpos h₁.le
  have hlen₁ := queryLens_length horig hbatch (s := firstSlice lens splitPoint) (by rw [padded_length]; omega)
  have hlen₂ := queryLens_length horig hbatch (s := secondSlice lens splitPoint padding tokenStop)
    (by rw [padded_length]; exact Nat.le_refl _)
  refine ⟨⟨?_, ?_⟩, fun row hrow => ?_, fun seqLens hseq hlen => ?_⟩
  · obtain ⟨i, hi, hlt⟩ := hleft
    have hin : i < (firstSlice lens splitPoint).requestStop := by
      refine (lt_searchsortedLeft hpos splitPoint i).mpr ⟨hi.le, ?_⟩
      have := sum_take_mono (fun x hx => (hpos x hx).le) (Nat.le_add_right i 1)
      unfold leftLen at hlt
      omega
    refine ⟨_, getD_mem (by rw [hlen₁]; exact hin), ?_⟩
    rw [first_queryLens horig hpos h₁.le hbatch hin, leftLen, padded_take padding hi, padded_take padding hi.le]
    exact hlt
  · obtain ⟨i, hi, hlt⟩ := hright
    have hin : (secondSlice lens splitPoint padding tokenStop).requestStart ≤ i := by
      rw [secondSlice_start_le hpos h₀.le padding tokenStop hi]
      unfold rightLen at hlt
      omega
    have hj : i - (secondSlice lens splitPoint padding tokenStop).requestStart <
        lens.length + padding - (secondSlice lens splitPoint padding tokenStop).requestStart := by omega
    refine ⟨_, getD_mem (by rw [hlen₂]; exact hj), ?_⟩
    rw [second_queryLens horig hpos h₁.le hbatch htok hj, Nat.add_sub_of_le hin, rightLen, padded_take padding hi,
      padded_take padding hi.le]
    exact hlt
  · rw [first_rowLen horig hpos h₁.le hbatch, second_rowLen horig hpos h₁.le hbatch h₀.le htok hrow, leftLen_add_rightLen]
  · obtain ⟨l, hl, hllen, hval⟩ := first_seqLens orig hpos h₁.le hbatch hseq hlen
    have hl₂ := second_seqLens orig hpos splitPoint hbatch htok hseq hlen
    have hagree : l.length = (sliceInputBatch orig batch (firstSlice lens splitPoint)).queryLens.length := by
      rw [hlen₁, hllen]
      rfl
    refine ⟨mirrorsAgree hl hagree, mirrorsAgree hl₂ ?_, fun numComputed hnum row hrow => ?_, hl₂⟩
    · rw [hlen₂, List.length_drop, hlen]
      rfl
    · rw [numComputed_eq hl] at hnum
      cases hnum
      rw [zipWith_sub_getD hagree (by rw [hlen₁]; exact hrow), hval row hrow, first_queryLens horig hpos h₁.le hbatch hrow]
      have := leftLen_add_rightLen (padded lens padding) splitPoint row
      omega

/-- All ranks vote or none does, they return the same decision, and a split is safe on every rank. -/
theorem split_agreement (orig : InputBatch → UBatchSlice → List Int) (horig : SlicesQueries orig)
    (dboMinTokens numTokens : Int) (across : Option (List Int)) (ranks : List Rank) :
    let gates := ranks.map (checkUbatchThresholds dboMinTokens numTokens across)
    ((∀ g ∈ gates, ∃ eligible, g = .votes eligible) ∨ ∀ g ∈ gates, g = .returns false) ∧
    ∃ decision, decisions gates = ranks.map (fun _ => some decision) ∧
      (decision = true → ∃ largest, across.bind (·.max?) = some largest ∧
        ∀ rank ∈ ranks, ∃ runner lens threshold, rank.current = some (runner, .ints lens) ∧
          dsaDecodeThreshold runner.builders = .ok (some threshold) ∧
          maybeCreateUbatchSlices lens largest 2 .default =
            .ok [firstSlice lens (largest / 2), secondSlice lens (largest / 2) 0 lens.sum] ∧
          ∀ padding tokenStop batch, lens.sum ≤ tokenStop → batch.queryStartLocNp = cuNumTokens (padded lens padding) →
            SafeSplit orig lens threshold (largest / 2) padding tokenStop batch) := by
  intro gates
  obtain hret | ⟨largest, hmax, hvotes⟩ := checkUbatchThresholds_cases dboMinTokens numTokens across
  · have hgates : gates = ranks.map fun _ => .returns false := List.map_congr_left fun rank _ => hret rank
    refine ⟨.inr fun g hg => ?_, false, by rw [hgates, decisions_returns], nofun⟩
    rw [hgates] at hg
    obtain ⟨-, -, rfl⟩ := List.mem_map.mp hg
    rfl
  · have hgates : gates = ranks.map fun rank => .votes (rank.eligible (largest / 2)) :=
      List.map_congr_left fun rank _ => hvotes rank
    refine ⟨.inl fun g hg => ?_, ranks.all (·.eligible (largest / 2)), by rw [hgates, decisions_votes],
      fun hall => ⟨largest, hmax, fun rank hrank => ?_⟩⟩
    · rw [hgates] at hg
      obtain ⟨rank, -, rfl⟩ := List.mem_map.mp hg
      exact ⟨_, rfl⟩
    · obtain ⟨runner, lens, threshold, hcur, hthr, ht, hpos, hleft, hright⟩ :=
        eligible_spec (List.all_eq_true.mp hall rank hrank)
      obtain ⟨h₀, -⟩ := split_inside hpos ht hleft hright
      exact ⟨runner, lens, threshold, hcur, hthr, maybeCreateUbatchSlices_two hpos (by omega),
        fun padding tokenStop batch htok hbatch => safeSplit horig hpos ht hleft hright htok hbatch⟩

/-- The query starts as the slices need them. -/
def clipQueries (batch : InputBatch) (s : UBatchSlice) : List Int :=
  (slice batch.queryStartLocNp s.requestStart (s.requestStop + 1)).map fun x =>
    min (max x s.tokenStart) s.tokenStop - s.tokenStart

/-- Two ranks of 200 tokens; the first has a request across the cut. -/
def twoRanks : List Rank := [
  ⟨false, 200, some (⟨true, false, false, .thresholds [some 4]⟩, .ints [150, 50])⟩,
  ⟨false, 200, some (⟨true, false, false, .thresholds [some 4]⟩, .ints [200])⟩]

theorem split_agreement_twoRanks :
    decisions (twoRanks.map (checkUbatchThresholds 128 200 (some [200, 200]))) = [some true, some true] ∧
      SafeSplit clipQueries [150, 50] 4 100 0 200 ⟨cuNumTokens [150, 50], some [160, 70], none⟩ := by
  have hdec : decisions (twoRanks.map (checkUbatchThresholds 128 200 (some [200, 200]))) = [some true, some true] := by
    decide +kernel
  obtain ⟨-, decision, hsame, hsafe⟩ := split_agreement clipQueries (fun _ _ => rfl) 128 200 (some [200, 200]) twoRanks
  have htrue : decision = true := by
    rw [hdec] at hsame
    have := List.head_eq_of_cons_eq hsame
    exact (Option.some.inj this).symm
  obtain ⟨largest, hmax, hranks⟩ := hsafe htrue
  obtain rfl : 200 = largest := by simpa using hmax
  obtain ⟨runner, lens, threshold, hcur, hthr, -, hall⟩ := hranks _ List.mem_cons_self
  cases hcur
  obtain rfl : 4 = threshold := by simpa [dsaDecodeThreshold] using hthr
  exact ⟨hdec, hall 0 200 _ (by decide) rfl⟩

end VllmHcu.Dbo
