import VllmHcu.Step4.Persistent
import VllmHcu.Step4.Forward

/-!
# Replays on a wider view

A schedule read through a wider view keeps its entries; the entries behind them
are inert together. No such row compresses or resumes anything, and its writes go
to the trash row, so the update on the wider view is the update on the schedule.
-/

namespace VllmHcu.Step4

section
variable {κ : Type} {trash row i : Nat} {f f' : Nat × Nat → κ} {ws ws' : List ((Nat × Nat) × κ)}

/-- Writes to the trash row are not seen in any other row. -/
theorem scatter_append_trash (hrow : row ≠ trash) (h : ∀ w ∈ ws', w.1.1 = trash) (hf : f (row, i) = f' (row, i)) :
    scatter f (ws ++ ws') (row, i) = scatter f' ws (row, i) := by
  rw [scatter_append, scatter_of_not_mem]
  · exact scatter_apply_congr hf
  · intro hmem
    obtain ⟨w, hw, he⟩ := List.mem_map.mp hmem
    have := h w hw
    rw [he] at this
    exact hrow this

end

/-- The same tensors, the trash row apart. -/
structure SameButTrash {κ σ : Type} (trash : Nat) (A B : LayerTensors κ σ) : Prop where
  summary : A.summary = B.summary
  pending : ∀ row ≠ trash, ∀ i, A.pending (row, i) = B.pending (row, i)

section
variable {κ σ : Type} (g : Step4DSAGeometry) (zero : κ) (compress : List κ → σ) (trash : Nat)

/-! ## One token per row -/

/-- Rows and positions stay inside the tensors; the trash row is the last of the pending rows. -/
structure DecodeSchedule.Inside (s : DecodeSchedule) : Prop where
  pendingIn : ∀ r < s.numDecodes, s.pendingIn r ≤ trash
  pendingOut : ∀ r < s.numDecodes, s.pendingOut r ≤ trash
  head : ∀ r < s.numDecodes, s.head r < g.regionSize
  counts : ∀ r < s.numDecodes, s.counts r ≤ g.regionSize

/-- `w` is `s` with inert rows behind it. -/
structure DecodeSchedule.Widens (s w : DecodeSchedule) : Prop where
  numDecodes : s.numDecodes ≤ w.numDecodes
  counts : ∀ r < s.numDecodes, w.counts r = s.counts r
  slots : ∀ r < s.numDecodes, w.slots r = s.slots r
  live : ∀ r < s.numDecodes, w.live r = s.live r
  head : ∀ r < s.numDecodes, w.head r = s.head r
  tail : ∀ r < s.numDecodes, w.tail r = s.tail r
  pendingIn : ∀ r < s.numDecodes, w.pendingIn r = s.pendingIn r
  pendingOut : ∀ r < s.numDecodes, w.pendingOut r = s.pendingOut r
  deadCounts : ∀ r, s.numDecodes ≤ r → r < w.numDecodes → w.counts r = 0
  deadLive : ∀ r, s.numDecodes ≤ r → r < w.numDecodes → w.live r = false
  deadHead : ∀ r, s.numDecodes ≤ r → r < w.numDecodes → w.head r = 0
  deadIn : ∀ r, s.numDecodes ≤ r → r < w.numDecodes → w.pendingIn r = trash
  deadOut : ∀ r, s.numDecodes ≤ r → r < w.numDecodes → w.pendingOut r = trash

variable {g trash}

namespace DecodeSchedule
variable {s w : DecodeSchedule}

theorem Widens.inside (h : s.Widens trash w) (hs : s.Inside g trash) : w.Inside g trash where
  pendingIn r hr := by
    rcases Nat.lt_or_ge r s.numDecodes with hlt | hge
    · exact h.pendingIn r hlt ▸ hs.pendingIn r hlt
    · exact (h.deadIn r hge hr).le
  pendingOut r hr := by
    rcases Nat.lt_or_ge r s.numDecodes with hlt | hge
    · exact h.pendingOut r hlt ▸ hs.pendingOut r hlt
    · exact (h.deadOut r hge hr).le
  head r hr := by
    rcases Nat.lt_or_ge r s.numDecodes with hlt | hge
    · exact h.head r hlt ▸ hs.head r hlt
    · exact h.deadHead r hge hr ▸ g.regionSize_pos
  counts r hr := by
    rcases Nat.lt_or_ge r s.numDecodes with hlt | hge
    · exact h.counts r hlt ▸ hs.counts r hlt
    · exact h.deadCounts r hge hr ▸ Nat.zero_le _

theorem Widens.update (h : s.Widens trash w) (index : Nat → κ) (T : LayerTensors κ σ) :
    SameButTrash trash (updateSummariesDecode g zero compress w index T)
      (updateSummariesDecode g zero compress s index T) := by
  obtain ⟨k, hk⟩ := Nat.exists_eq_add_of_le h.numDecodes
  have hbuffer : ∀ r < s.numDecodes, decodeBuffer zero w T.pending index r = decodeBuffer zero s T.pending index r := by
    intro r hr
    unfold decodeBuffer
    rw [h.head r hr, h.pendingIn r hr]
  constructor
  · unfold updateSummariesDecode
    simp only
    rw [hk, filter_range_add fun i hi => h.deadLive _ (Nat.le_add_right _ _) (by omega)]
    have hfilter : (List.range s.numDecodes).filter w.live = (List.range s.numDecodes).filter s.live :=
      List.filter_congr fun r hr => h.live r (List.mem_range.mp hr)
    rw [hfilter]
    apply congrArg
    apply List.map_congr_left
    intro r hr
    have hr := List.mem_range.mp (List.mem_filter.mp hr).1
    rw [h.slots r hr, h.counts r hr, hbuffer r hr]
  · intro row hrow i
    unfold updateSummariesDecode
    simp only
    rw [hk, flatMap_range_add]
    have hsame : ((List.range s.numDecodes).flatMap fun r =>
        rowWrites (w.pendingOut r) ((List.range g.regionSize).map fun i =>
          if i < w.tail r then decodeBuffer zero w T.pending index r i else T.pending (w.pendingOut r, i))) =
        (List.range s.numDecodes).flatMap fun r =>
        rowWrites (s.pendingOut r) ((List.range g.regionSize).map fun i =>
          if i < s.tail r then decodeBuffer zero s T.pending index r i else T.pending (s.pendingOut r, i)) := by
      apply List.flatMap_congr
      intro r hr
      have hr := List.mem_range.mp hr
      rw [h.pendingOut r hr, h.tail r hr, hbuffer r hr]
    rw [hsame]
    apply scatter_append_trash hrow ?_ rfl
    intro p hp
    obtain ⟨j, hj, hp⟩ := List.mem_flatMap.mp hp
    obtain ⟨i', -, rfl⟩ := mem_rowWrites.mp hp
    exact h.deadOut _ (Nat.le_add_right _ _) (by have := List.mem_range.mp hj; omega)

end DecodeSchedule

/-! ## Up to `spec_query_len` tokens per row -/

variable (g trash) in
structure SpecSchedule.Inside (s : SpecSchedule) : Prop where
  pendingIn : ∀ r < s.numDecodes, s.pendingIn r ≤ trash
  pendingOut : ∀ r < s.numDecodes, s.pendingOut r ≤ trash
  head : ∀ r < s.numDecodes, s.head r < g.regionSize
  tail : ∀ r < s.numDecodes, s.tail r < g.regionSize
  tailReg : ∀ r < s.numDecodes, s.tailReg r < s.numDecodes * s.nrm
  keepRows : ∀ p < s.numDecodes * s.nrm, s.keepRows p ≤ trash
  counts : ∀ p < s.numDecodes * s.nrm, s.counts p ≤ g.regionSize
  tokBuf : ∀ t < s.numTokens, s.tokBuf t < s.numDecodes * s.nrm * g.regionSize + s.numTokens

variable (g trash) in
/-- `w` is `s` with inert rows, regions and tokens behind it. -/
structure SpecSchedule.Widens (s w : SpecSchedule) : Prop where
  nrm : w.nrm = s.nrm
  nrm_pos : 0 < s.nrm
  numDecodes : s.numDecodes ≤ w.numDecodes
  numTokens : s.numTokens ≤ w.numTokens
  head : ∀ r < s.numDecodes, w.head r = s.head r
  tail : ∀ r < s.numDecodes, w.tail r = s.tail r
  pendingIn : ∀ r < s.numDecodes, w.pendingIn r = s.pendingIn r
  pendingOut : ∀ r < s.numDecodes, w.pendingOut r = s.pendingOut r
  tailReg : ∀ r < s.numDecodes, w.tailReg r = s.tailReg r
  counts : ∀ p < s.numDecodes * s.nrm, w.counts p = s.counts p
  slots : ∀ p < s.numDecodes * s.nrm, w.slots p = s.slots p
  live : ∀ p < s.numDecodes * s.nrm, w.live p = s.live p
  keepRows : ∀ p < s.numDecodes * s.nrm, w.keepRows p = s.keepRows p
  tokBuf : ∀ t < s.numTokens, w.tokBuf t = s.tokBuf t
  queryStartLoc : ∀ r ≤ s.numDecodes, w.queryStartLoc r = s.queryStartLoc r
  deadHead : ∀ r, s.numDecodes ≤ r → r < w.numDecodes → w.head r = 0
  deadTail : ∀ r, s.numDecodes ≤ r → r < w.numDecodes → w.tail r = 0
  deadIn : ∀ r, s.numDecodes ≤ r → r < w.numDecodes → w.pendingIn r = trash
  deadOut : ∀ r, s.numDecodes ≤ r → r < w.numDecodes → w.pendingOut r = trash
  deadTailReg : ∀ r, s.numDecodes ≤ r → r < w.numDecodes → w.tailReg r = 0
  deadCounts : ∀ p, s.numDecodes * s.nrm ≤ p → p < w.numDecodes * s.nrm → w.counts p = 0
  deadLive : ∀ p, s.numDecodes * s.nrm ≤ p → p < w.numDecodes * s.nrm → w.live p = false
  deadKeep : ∀ p, s.numDecodes * s.nrm ≤ p → p < w.numDecodes * s.nrm → w.keepRows p = trash
  scratch : ∀ t, s.numTokens ≤ t → t < w.numTokens → w.tokBuf t = s.numDecodes * s.nrm * g.regionSize + t

namespace SpecSchedule
variable {s w : SpecSchedule}

theorem Widens.inside (h : s.Widens g trash w) (hs : s.Inside g trash) : w.Inside g trash := by
  have hle : s.numDecodes * s.nrm ≤ w.numDecodes * s.nrm := Nat.mul_le_mul_right _ h.numDecodes
  have hspan : s.numDecodes * s.nrm * g.regionSize ≤ w.numDecodes * s.nrm * g.regionSize := Nat.mul_le_mul_right _ hle
  have hrow : ∀ r < w.numDecodes, r < s.numDecodes ∨ s.numDecodes ≤ r := fun r _ => Nat.lt_or_ge r _
  constructor
  · intro r hr
    rcases hrow r hr with hlt | hge
    · exact h.pendingIn r hlt ▸ hs.pendingIn r hlt
    · exact (h.deadIn r hge hr).le
  · intro r hr
    rcases hrow r hr with hlt | hge
    · exact h.pendingOut r hlt ▸ hs.pendingOut r hlt
    · exact (h.deadOut r hge hr).le
  · intro r hr
    rcases hrow r hr with hlt | hge
    · exact h.head r hlt ▸ hs.head r hlt
    · exact h.deadHead r hge hr ▸ g.regionSize_pos
  · intro r hr
    rcases hrow r hr with hlt | hge
    · exact h.tail r hlt ▸ hs.tail r hlt
    · exact h.deadTail r hge hr ▸ g.regionSize_pos
  · intro r hr
    rw [h.nrm]
    rcases hrow r hr with hlt | hge
    · exact h.tailReg r hlt ▸ (hs.tailReg r hlt).trans_le hle
    · rw [h.deadTailReg r hge hr]
      exact Nat.mul_pos ((Nat.zero_le r).trans_lt hr) h.nrm_pos
  · intro p hp
    rw [h.nrm] at hp
    rcases Nat.lt_or_ge p (s.numDecodes * s.nrm) with hlt | hge
    · exact h.keepRows p hlt ▸ hs.keepRows p hlt
    · exact (h.deadKeep p hge hp).le
  · intro p hp
    rw [h.nrm] at hp
    rcases Nat.lt_or_ge p (s.numDecodes * s.nrm) with hlt | hge
    · exact h.counts p hlt ▸ hs.counts p hlt
    · exact h.deadCounts p hge hp ▸ Nat.zero_le _
  · intro t ht
    rw [h.nrm]
    rcases Nat.lt_or_ge t s.numTokens with hlt | hge
    · have := hs.tokBuf t hlt
      have := h.numTokens
      rw [h.tokBuf t hlt]
      omega
    · rw [h.scratch t hge ht]
      omega

/-- Behind the last request the buffer may differ. -/
theorem Widens.buffer (h : s.Widens g trash w) (pending : Nat × Nat → κ) (index : Nat → κ) {x : Nat}
    (hx : x < s.numDecodes * s.nrm * g.regionSize) :
    specBuffer g zero w pending index x = specBuffer g zero s pending index x := by
  obtain ⟨k, hk⟩ := Nat.exists_eq_add_of_le h.numTokens
  have hspan : x < s.numDecodes * (s.nrm * g.regionSize) := by rwa [← Nat.mul_assoc]
  have hrow : x / (s.nrm * g.regionSize) < s.numDecodes := by
    apply Nat.div_lt_of_lt_mul
    rwa [Nat.mul_comm]
  have hwide : x < w.numDecodes * (s.nrm * g.regionSize) := hspan.trans_le (Nat.mul_le_mul_right _ h.numDecodes)
  unfold specBuffer
  simp only [h.nrm]
  rw [hk, List.range_add, List.map_append, scatter_append, scatter_of_not_mem]
  · have htokens : ((List.range s.numTokens).map fun t => (w.tokBuf t, index t)) =
        (List.range s.numTokens).map fun t => (s.tokBuf t, index t) :=
      List.map_congr_left fun t ht => by rw [h.tokBuf t (List.mem_range.mp ht)]
    rw [htokens]
    apply scatter_apply_congr
    simp only [hspan, hwide, true_and, h.head _ hrow, h.pendingIn _ hrow]
  · intro hmem
    obtain ⟨p, hp, he⟩ := List.mem_map.mp hmem
    obtain ⟨t, ht, rfl⟩ := List.mem_map.mp hp
    obtain ⟨j, hj, rfl⟩ := List.mem_map.mp ht
    have hj := List.mem_range.mp hj
    have := h.scratch (s.numTokens + j) (Nat.le_add_right _ _) (by omega)
    omega

theorem region_lt {n p i : Nat} (hp : p < n) (hi : i < g.regionSize) : p * g.regionSize + i < n * g.regionSize :=
  span_lt hi hp

theorem Widens.unfused (h : s.Widens g trash w) (hs : s.Inside g trash) (index : Nat → κ) (T : LayerTensors κ σ) :
    SameButTrash trash (updateSummariesSpecUnfused g zero compress w index T)
      (updateSummariesSpecUnfused g zero compress s index T) := by
  obtain ⟨k, hk⟩ := Nat.exists_eq_add_of_le h.numDecodes
  have hregions : w.numDecodes * s.nrm = s.numDecodes * s.nrm + k * s.nrm := by rw [hk, Nat.add_mul]
  constructor
  · unfold updateSummariesSpecUnfused
    simp only
    rw [h.nrm, hregions, filter_range_add fun i hi => h.deadLive _ (Nat.le_add_right _ _) (by omega)]
    have hfilter : (List.range (s.numDecodes * s.nrm)).filter w.live = (List.range (s.numDecodes * s.nrm)).filter s.live :=
      List.filter_congr fun p hp => h.live p (List.mem_range.mp hp)
    rw [hfilter]
    apply congrArg
    apply List.map_congr_left
    intro p hp
    have hp := List.mem_range.mp (List.mem_filter.mp hp).1
    rw [h.slots p hp, h.counts p hp]
    apply congrArg
    unfold compressAt
    apply congrArg
    apply List.map_congr_left
    intro i hi
    exact h.buffer zero _ _ (region_lt hp ((List.mem_range.mp hi).trans_le (hs.counts p hp)))
  · intro row hrow i
    unfold updateSummariesSpecUnfused
    simp only
    rw [h.nrm, hregions, hk, flatMap_range_add, flatMap_range_add]
    have hkeep : ((List.range (s.numDecodes * s.nrm)).flatMap fun p => rowWrites (w.keepRows p)
        ((List.range g.regionSize).map fun i => specBuffer g zero w T.pending index (p * g.regionSize + i))) =
        (List.range (s.numDecodes * s.nrm)).flatMap fun p => rowWrites (s.keepRows p)
        ((List.range g.regionSize).map fun i => specBuffer g zero s T.pending index (p * g.regionSize + i)) := by
      apply List.flatMap_congr
      intro p hp
      have hp := List.mem_range.mp hp
      rw [h.keepRows p hp]
      apply congrArg
      apply List.map_congr_left
      intro i hi
      exact h.buffer zero _ _ (region_lt hp (List.mem_range.mp hi))
    have htail : ((List.range s.numDecodes).flatMap fun r => rowWrites (w.pendingOut r)
        ((List.range g.regionSize).map fun i =>
          if i < w.tail r then specBuffer g zero w T.pending index (w.tailReg r * g.regionSize + i)
          else T.pending (w.pendingOut r, i))) =
        (List.range s.numDecodes).flatMap fun r => rowWrites (s.pendingOut r)
        ((List.range g.regionSize).map fun i =>
          if i < s.tail r then specBuffer g zero s T.pending index (s.tailReg r * g.regionSize + i)
          else T.pending (s.pendingOut r, i)) := by
      apply List.flatMap_congr
      intro r hr
      have hr := List.mem_range.mp hr
      rw [h.pendingOut r hr, h.tail r hr, h.tailReg r hr]
      apply congrArg
      apply List.map_congr_left
      intro i hi
      rw [h.buffer zero _ _ (region_lt (hs.tailReg r hr) (List.mem_range.mp hi))]
    rw [hkeep, htail]
    apply scatter_append_trash hrow
    · intro p hp
      obtain ⟨j, hj, hp⟩ := List.mem_flatMap.mp hp
      obtain ⟨i', -, rfl⟩ := mem_rowWrites.mp hp
      have hj := List.mem_range.mp hj
      exact h.deadKeep _ (Nat.le_add_right _ _) (by omega)
    · apply scatter_append_trash hrow ?_ rfl
      intro p hp
      obtain ⟨j, hj, hp⟩ := List.mem_flatMap.mp hp
      obtain ⟨i', -, rfl⟩ := mem_rowWrites.mp hp
      have hj := List.mem_range.mp hj
      exact h.deadOut _ (Nat.le_add_right _ _) (by omega)

theorem Widens.kernelKey (h : s.Widens g trash w) (hq : ∀ r < s.numDecodes, s.queryStartLoc (r + 1) ≤ s.numTokens)
    (pending : Nat × Nat → κ) (index : Nat → κ) {p : Nat} (hp : p < s.numDecodes * s.nrm) :
    Step4.kernelKey g zero w pending index p = Step4.kernelKey g zero s pending index p := by
  have hr : p / s.nrm < s.numDecodes := Nat.div_lt_of_lt_mul (by rwa [Nat.mul_comm])
  have hend := hq _ hr
  have hmore := h.numTokens
  funext i
  unfold Step4.kernelKey
  simp only [h.nrm, h.head _ hr, h.pendingIn _ hr, h.queryStartLoc _ hr.le, h.queryStartLoc _ (Nat.succ_le_of_lt hr)]
  -- the bound on the token row is implied by the length of the request
  have hcond : ∀ off n, s.queryStartLoc (p / s.nrm + 1) ≤ n →
      (s.head (p / s.nrm) ≤ off ∧
        off - s.head (p / s.nrm) < s.queryStartLoc (p / s.nrm + 1) - s.queryStartLoc (p / s.nrm) ∧
        s.queryStartLoc (p / s.nrm) + (off - s.head (p / s.nrm)) < n ↔
      s.head (p / s.nrm) ≤ off ∧
        off - s.head (p / s.nrm) < s.queryStartLoc (p / s.nrm + 1) - s.queryStartLoc (p / s.nrm)) := by
    intro off n hn
    omega
  simp only [hcond _ _ hend, hcond _ _ (hend.trans hmore)]

theorem Widens.program (h : s.Widens g trash w) (hq : ∀ r < s.numDecodes, s.queryStartLoc (r + 1) ≤ s.numTokens)
    (index : Nat → κ) (T : LayerTensors κ σ) {p : Nat} (hp : p < s.numDecodes * s.nrm) :
    specSummariesProgram g zero compress w index trash T p = specSummariesProgram g zero compress s index trash T p := by
  have hr : p / s.nrm < s.numDecodes := Nat.div_lt_of_lt_mul (by rwa [Nat.mul_comm])
  unfold specSummariesProgram
  simp only [h.nrm, h.kernelKey zero hq _ _ hp, h.live p hp, h.slots p hp, h.counts p hp, h.tailReg _ hr,
    h.pendingOut _ hr, h.tail _ hr, h.keepRows p hp]

theorem Widens.program_dead (h : s.Widens g trash w) (index : Nat → κ) (T : LayerTensors κ σ) {p : Nat}
    (hge : s.numDecodes * s.nrm ≤ p) (hlt : p < w.numDecodes * s.nrm) :
    specSummariesProgram g zero compress w index trash T p = T := by
  have hr : p / s.nrm < w.numDecodes := Nat.div_lt_of_lt_mul (by rwa [Nat.mul_comm])
  have hr' : s.numDecodes ≤ p / s.nrm := (Nat.le_div_iff_mul_le h.nrm_pos).mpr hge
  unfold specSummariesProgram
  simp only [h.nrm, h.deadLive p hge hlt, h.deadOut _ hr' hr, h.deadKeep p hge hlt, ne_eq, not_true, and_false, if_false,
    Bool.false_eq_true, List.append_nil, scatter_nil]

theorem Widens.fused (h : s.Widens g trash w) (hq : ∀ r < s.numDecodes, s.queryStartLoc (r + 1) ≤ s.numTokens)
    (index : Nat → κ) (T : LayerTensors κ σ) :
    updateSummariesSpecFused g zero compress w index trash T = updateSummariesSpecFused g zero compress s index trash T := by
  obtain ⟨k, hk⟩ := Nat.exists_eq_add_of_le h.numDecodes
  have hregions : w.numDecodes * s.nrm = s.numDecodes * s.nrm + k * s.nrm := by rw [hk, Nat.add_mul]
  unfold updateSummariesSpecFused
  rw [h.nrm, hregions, List.range_add, List.foldl_append]
  have hlive : (List.range (s.numDecodes * s.nrm)).foldl (specSummariesProgram g zero compress w index trash) T =
      (List.range (s.numDecodes * s.nrm)).foldl (specSummariesProgram g zero compress s index trash) T :=
    List.foldl_ext _ _ _ fun T p hp => h.program zero compress hq index T (List.mem_range.mp hp)
  rw [hlive]
  generalize (List.range (s.numDecodes * s.nrm)).foldl (specSummariesProgram g zero compress s index trash) T = T'
  have hdead : ∀ l : List Nat, (∀ p ∈ l, s.numDecodes * s.nrm ≤ p ∧ p < w.numDecodes * s.nrm) →
      l.foldl (specSummariesProgram g zero compress w index trash) T' = T' := by
    intro l hl
    induction l with
    | nil => rfl
    | cons p l ih =>
      obtain ⟨hge, hlt⟩ := hl p (List.mem_cons_self ..)
      rw [List.foldl_cons, h.program_dead zero compress index T' hge hlt]
      exact ih fun p hp => hl p (List.mem_cons_of_mem _ hp)
  apply hdead
  intro p hp
  obtain ⟨j, hj, rfl⟩ := List.mem_map.mp hp
  have := List.mem_range.mp hj
  omega

theorem Widens.update (h : s.Widens g trash w) (hs : s.Inside g trash)
    (hq : ∀ r < s.numDecodes, s.queryStartLoc (r + 1) ≤ s.numTokens) (fused : Bool) (index : Nat → κ)
    (T : LayerTensors κ σ) :
    SameButTrash trash (updateSummariesSpec g zero compress fused w index trash T)
      (updateSummariesSpec g zero compress fused s index trash T) := by
  cases fused with
  | false => exact h.unfused zero compress hs index T
  | true =>
    have heq := h.fused zero compress hq index T
    exact ⟨congrArg LayerTensors.summary heq, fun row _ i => congrArg (fun A => A.pending (row, i)) heq⟩

end SpecSchedule

end

end VllmHcu.Step4
