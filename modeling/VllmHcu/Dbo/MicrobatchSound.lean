import VllmHcu.Dbo.PieceSound
import Mathlib.Data.List.Nodup

/-!
# The rows of the microbatches

The rows of the two microbatches that hold tokens are the halves of the rows of
the batch. Their regions are as exclusive as those of the batch.
-/

namespace VllmHcu.Dbo

open Step4

/-! ## Search in the query starts -/

/-- `np.searchsorted` finds where a predicate ends that holds up to some index. -/
theorem lt_countP_range {p : Nat → Bool} {m i : Nat} (hp : ∀ i j, i ≤ j → j < m → p j = true → p i = true) (hi : i < m) :
    i < (List.range m).countP p ↔ p i = true := by
  have hsplit : (List.range m).countP p = (List.range i).countP p +
      ((List.range (m - i)).map (i + ·)).countP p := by
    rw [← List.countP_append, ← List.range_add, Nat.add_sub_cancel' hi.le]
  constructor
  · intro hlt
    by_contra hn
    have hrest : ((List.range (m - i)).map (i + ·)).countP p = 0 := by
      rw [List.countP_eq_zero]
      intro j hj hpj
      obtain ⟨x, hx, rfl⟩ := List.mem_map.mp hj
      have := List.mem_range.mp hx
      exact hn (hp i (i + x) (Nat.le_add_right _ _) (by omega) hpj)
    have hle := List.countP_le_length (p := p) (l := List.range i)
    rw [List.length_range] at hle
    omega
  · intro hpi
    have hall : (List.range i).countP p = i := by
      rw [List.countP_eq_length.mpr fun j hj => ?_, List.length_range]
      exact hp j i (List.mem_range.mp hj).le hi hpi
    have hpos : 0 < ((List.range (m - i)).map (i + ·)).countP p := by
      rw [List.countP_pos_iff]
      exact ⟨i, List.mem_map.mpr ⟨0, List.mem_range.mpr (by omega), rfl⟩, hpi⟩
    omega

/-- The metadata of a batch: the query starts add up, no query is longer than its sequence, and `cut` is one of the tokens. -/
structure Cuttable (md : Step4DSAMetadata) (cut : Nat) : Prop where
  zero : md.queryStartLoc 0 = 0
  mono : ∀ i < numReqs md, md.queryStartLoc i ≤ md.queryStartLoc (i + 1)
  lens : ∀ i < numReqs md, md.queryStartLoc (i + 1) - md.queryStartLoc i ≤ md.seqLens i
  cut_le : cut ≤ md.queryStartLoc (numReqs md)

section
variable {md : Step4DSAMetadata} {cut : Nat}

theorem Cuttable.mono_le (h : Cuttable md cut) {i j : Nat} (hij : i ≤ j) (hj : j ≤ numReqs md) :
    md.queryStartLoc i ≤ md.queryStartLoc j := by
  induction j, hij using Nat.le_induction with
  | base => exact Nat.le_refl _
  | succ j hij ih => exact (ih (by omega)).trans (h.mono j (by omega))

theorem Cuttable.lt_requestStop (h : Cuttable md cut) {i e : Nat} (hi : i ≤ numReqs md) :
    i < requestStop md e ↔ md.queryStartLoc i < e := by
  unfold requestStop
  rw [lt_countP_range _ (Nat.lt_succ_of_le hi), decide_eq_true_eq]
  intro i j hij hj hp
  rw [decide_eq_true_eq] at hp ⊢
  exact (h.mono_le hij (Nat.le_of_lt_succ hj)).trans_lt hp

theorem Cuttable.lt_requestStart (h : Cuttable md cut) {i : Nat} (hi : i ≤ numReqs md) :
    i ≤ requestStart md cut ↔ i = 0 ∨ md.queryStartLoc i ≤ cut := by
  have hcount : ∀ i ≤ numReqs md, (i < (List.range (numReqs md + 1)).countP fun i => decide (md.queryStartLoc i ≤ cut)) ↔
      md.queryStartLoc i ≤ cut := by
    intro i hi
    rw [lt_countP_range _ (Nat.lt_succ_of_le hi), decide_eq_true_eq]
    intro i j hij hj hp
    rw [decide_eq_true_eq] at hp ⊢
    exact (h.mono_le hij (Nat.le_of_lt_succ hj)).trans hp
  have h0 := (hcount 0 (Nat.zero_le _)).mpr (by rw [h.zero]; exact Nat.zero_le _)
  rw [← hcount i hi]
  unfold requestStart
  omega

theorem Cuttable.requestStop_le (h : Cuttable md cut) {e : Nat} (he : e ≤ md.queryStartLoc (numReqs md)) :
    requestStop md e ≤ numReqs md := by
  by_contra hlt
  have := (h.lt_requestStop (Nat.le_refl _)).mp (Nat.not_le.mp hlt)
  omega

end

/-! ## Halves -/

def firstHalf (cut : Nat) (v : BatchRow) : BatchRow :=
  { v with
    qlen := min v.qlen (cut - v.tokStart)
    seqLen := v.seqLen - (v.qlen - min v.qlen (cut - v.tokStart)) }

def secondHalf (cut start : Nat) (v : BatchRow) : BatchRow where
  row := v.row - start
  tokStart := v.tokStart - cut
  qlen := v.qlen - min v.qlen (cut - v.tokStart)
  seqLen := v.seqLen
  pages := v.pages

theorem halves_of {v : BatchRow} (hlen : v.qlen ≤ v.seqLen) (cut start : Nat) :
    Halves v (firstHalf cut v) (secondHalf cut start v) (min v.qlen (cut - v.tokStart)) where
  le := Nat.min_le_left _ _
  pages₀ := rfl
  pages₁ := rfl
  past₀ := by
    unfold BatchRow.past firstHalf
    dsimp only
    omega
  past₁ := by
    unfold BatchRow.past secondHalf
    dsimp only
    omega
  qlen₀ := rfl
  qlen₁ := rfl

section
variable {md : Step4DSAMetadata} {cut d dt : Nat}

theorem numReqs_microbatch0 (hd : d ≤ requestStop md cut) : numReqs (microbatch0 md cut d dt) = requestStop md cut := by
  exact Nat.add_sub_cancel' hd

theorem generalRow_microbatch0 (h : Cuttable md cut) {i : Nat} (hi : i < requestStop md cut) :
    (microbatch0 md cut d dt).generalRow i = firstHalf cut (md.generalRow i) := by
  have hstop := h.requestStop_le h.cut_le
  have hlt := (h.lt_requestStop (Nat.le_of_lt (hi.trans_le hstop))).mp hi
  have hmono := h.mono i (by omega)
  unfold Step4DSAMetadata.generalRow firstHalf microbatch0 Step4DSAMetadata.hostTable
  dsimp only
  congr 1
  · omega
  · omega
  · by_cases hlast : i + 1 = requestStop md cut
    · rw [if_pos hlast, ← hlast]
      omega
    · rw [if_neg hlast]
      have := (h.lt_requestStop (e := cut) (i := i + 1) (by omega)).mp (by omega)
      omega

theorem mem_microbatch0 (h : Cuttable md cut) (hd : d ≤ requestStop md cut) {w : BatchRow} :
    w ∈ (microbatch0 md cut d dt).activeRows ↔ ∃ v ∈ md.activeRows, w = firstHalf cut v ∧ w.qlen ≠ 0 := by
  have hstop := h.requestStop_le h.cut_le
  have hn : numReqs (microbatch0 md cut d dt) = requestStop md cut := numReqs_microbatch0 hd
  rw [mem_activeRows]
  change w.row < numReqs (microbatch0 md cut d dt) ∧ _ ↔ _
  rw [hn]
  constructor
  · intro ⟨hi, hw, hq⟩
    have hw' : w = firstHalf cut (md.generalRow w.row) := hw.trans (generalRow_microbatch0 h hi)
    refine ⟨md.generalRow w.row, mem_activeRows.mpr ⟨hi.trans_le hstop, rfl, ?_⟩, hw', hq⟩
    intro hc
    apply hq
    rw [hw']
    unfold firstHalf
    dsimp only
    omega
  · rintro ⟨v, hv, rfl, hq⟩
    obtain ⟨hi, hrow, -⟩ := mem_activeRows.mp hv
    have hi' : v.row < requestStop md cut := by
      rw [h.lt_requestStop hi.le]
      by_contra hn
      apply hq
      rw [hrow]
      unfold firstHalf Step4DSAMetadata.generalRow
      dsimp only
      omega
    refine ⟨hi', ?_, hq⟩
    change firstHalf cut v = (microbatch0 md cut d dt).generalRow v.row
    rw [generalRow_microbatch0 h hi', ← hrow]

theorem numReqs_microbatch1 (hd : d ≤ requestStop md (md.queryStartLoc (numReqs md)) - requestStart md cut) :
    numReqs (microbatch1 md cut d dt) = requestStop md (md.queryStartLoc (numReqs md)) - requestStart md cut := by
  exact Nat.add_sub_cancel' hd

theorem generalRow_microbatch1 (h : Cuttable md cut) {i : Nat} (hi : requestStart md cut + i < numReqs md) :
    (microbatch1 md cut d dt).generalRow i =
      secondHalf cut (requestStart md cut) (md.generalRow (requestStart md cut + i)) := by
  have hmono := h.mono _ hi
  have htable : (microbatch1 md cut d dt).hostTable i = md.hostTable (requestStart md cut + i) := by
    unfold Step4DSAMetadata.hostTable microbatch1
    cases md.blockTableNp with
    | none => rfl
    | some table => rfl
  unfold Step4DSAMetadata.generalRow secondHalf
  rw [htable]
  unfold microbatch1
  dsimp only
  congr 1
  · omega
  · rw [← Nat.add_assoc]
    omega

theorem mem_microbatch1 (h : Cuttable md cut)
    (hd : d ≤ requestStop md (md.queryStartLoc (numReqs md)) - requestStart md cut) {w : BatchRow} :
    w ∈ (microbatch1 md cut d dt).activeRows ↔
      ∃ v ∈ md.activeRows, w = secondHalf cut (requestStart md cut) v ∧ w.qlen ≠ 0 := by
  have hstop := h.requestStop_le (Nat.le_refl _)
  have hn : numReqs (microbatch1 md cut d dt) =
      requestStop md (md.queryStartLoc (numReqs md)) - requestStart md cut := numReqs_microbatch1 hd
  rw [mem_activeRows]
  change w.row < numReqs (microbatch1 md cut d dt) ∧ _ ↔ _
  rw [hn]
  constructor
  · intro ⟨hi, hw, hq⟩
    have hr : requestStart md cut + w.row < numReqs md := by omega
    have hw' : w = secondHalf cut (requestStart md cut) (md.generalRow (requestStart md cut + w.row)) :=
      hw.trans (generalRow_microbatch1 h hr)
    refine ⟨md.generalRow (requestStart md cut + w.row), mem_activeRows.mpr ⟨hr, rfl, ?_⟩, hw', hq⟩
    intro hc
    apply hq
    rw [hw']
    unfold secondHalf
    dsimp only
    omega
  · rintro ⟨v, hv, rfl, hq⟩
    obtain ⟨hi, hrow, -⟩ := mem_activeRows.mp hv
    have hlong : cut < md.queryStartLoc (v.row + 1) ∧ md.queryStartLoc v.row < md.queryStartLoc (v.row + 1) := by
      by_contra hn
      apply hq
      rw [hrow]
      unfold secondHalf Step4DSAMetadata.generalRow
      dsimp only
      omega
    have hle : requestStart md cut ≤ v.row := by
      have hn := (h.lt_requestStart (i := v.row + 1) hi).not.mpr (by omega)
      omega
    have hlast := h.mono_le (i := v.row + 1) (j := numReqs md) hi (Nat.le_refl _)
    have hbefore := (h.lt_requestStop (e := md.queryStartLoc (numReqs md)) (i := v.row) hi.le).mpr (by omega)
    refine ⟨?_, ?_, hq⟩
    · change v.row - requestStart md cut < _
      omega
    · change secondHalf cut (requestStart md cut) v = (microbatch1 md cut d dt).generalRow (v.row - requestStart md cut)
      have hr : requestStart md cut + (v.row - requestStart md cut) = v.row := Nat.add_sub_cancel' hle
      rw [generalRow_microbatch1 h (by rw [hr]; exact hi), hr, ← hrow]

end

/-! ## Exclusive regions -/

theorem activeRows_nodup (md : Step4DSAMetadata) : md.activeRows.Nodup := by
  unfold Step4DSAMetadata.activeRows Step4DSAMetadata.generalRows
  apply List.Nodup.filter
  refine List.Nodup.map ?_ List.nodup_range
  intro i j he
  exact congrArg BatchRow.row he

/-- Rows whose regions are those of different rows of a batch are exclusive as well. -/
theorem exclusive_of_parents {g : Step4DSAGeometry} {rows rows' : List BatchRow} (hex : ExclusiveRows g rows)
    (hnodup : rows'.Nodup) (f : BatchRow → BatchRow)
    (hf : ∀ w ∈ rows', ∃ v ∈ rows, w = f v ∧ ∃ o, o + w.nregions g ≤ v.nregions g ∧ ∀ j, w.slot g j = v.slot g (o + j)) :
    ExclusiveRows g rows' := by
  refine List.nodup_flatMap.mpr ⟨fun w hw => ?_, hnodup.pairwise_of_forall_ne fun w hw w' hw' hne => ?_⟩
  · obtain ⟨v, hv, -, o, ho, hslot⟩ := hf w hw
    refine List.Nodup.map_on ?_ List.nodup_range
    intro i hi j hj he
    rw [List.mem_range] at hi hj
    rw [hslot, hslot] at he
    have := (hex.slot_inj hv hv (by omega) (by omega) he).2
    omega
  · obtain ⟨v, hv, hwv, o, ho, hslot⟩ := hf w hw
    obtain ⟨v', hv', hwv', o', ho', hslot'⟩ := hf w' hw'
    intro s hs hs'
    obtain ⟨i, hi, rfl⟩ := List.mem_map.mp hs
    obtain ⟨j, hj, he⟩ := List.mem_map.mp hs'
    rw [List.mem_range] at hi hj
    rw [hslot, hslot'] at he
    have hvv := (hex.slot_inj hv' hv (by omega) (by omega) he).1
    exact hne (by rw [hwv, hwv', hvv])

end VllmHcu.Dbo
