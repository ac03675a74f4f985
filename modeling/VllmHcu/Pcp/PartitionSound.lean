import VllmHcu.Pcp.LayoutSound
import VllmHcu.Pcp.Partition
import VllmHcu.Lib.Ragged

/-!
# Partition followed by restore

`layout_restores`: the padded rows of the ranks, gathered in rank order and
indexed by `hidden_restore_idx`, are the hidden states in global token order, and
the rows that may write the KV cache are exactly the rows it names.
-/

namespace VllmHcu.Pcp

/-! ## The accepted widths -/

theorem le_maxOver {P : Nat} (f : Fin P → Nat) (r : Fin P) : f r ≤ maxOver f := by
  unfold maxOver
  have hm : f r ∈ (List.finRange P).map f := List.mem_map_of_mem (List.mem_finRange r)
  cases h : ((List.finRange P).map f).max? with
  | none => rw [List.max?_eq_none_iff] at h; rw [h] at hm; cases hm
  | some a => exact (List.max?_eq_some_iff.mp h).2 _ hm

theorem buildBatchLayout_ok {useMla : Bool} {b : InputBatch} {P : Nat} {padded : Option Nat}
    (hw : ∀ w ∈ padded, requiredNumTokens useMla b P ≤ w) :
    ∃ l : BatchLayout P, buildBatchLayout useMla b P padded = .ok l := by
  have : ¬ padded.getD (requiredNumTokens useMla b P) < requiredNumTokens useMla b P := by
    cases padded with
    | none => simp
    | some w => simpa using hw w rfl
  unfold buildBatchLayout
  rw [if_neg this]
  exact ⟨_, rfl⟩

section
variable {useMla : Bool} {b : InputBatch} {P : Nat} {padded : Option Nat} {l : BatchLayout P}

theorem buildBatchLayout_spec (h : buildBatchLayout useMla b P padded = .ok l) :
    l.toIndexTensors = writeTensors b l.paddedNumTokens l.segmentsByRank ∧
      l.segmentsByRank = (fun r => layoutSegments useMla b r) ∧
      ∀ r, segmentTokens (l.segmentsByRank r) ≤ l.paddedNumTokens := by
  unfold buildBatchLayout at h
  dsimp only at h
  split at h
  · cases h
  · rename_i hw
    cases h
    refine ⟨rfl, rfl, fun r => ?_⟩
    exact le_trans (le_maxOver (fun r => segmentTokens (layoutSegments useMla b r)) r) (Nat.le_of_not_lt hw)

theorem buildBatchLayout_width (h : buildBatchLayout useMla b P padded = .ok l) :
    l.paddedNumTokens = padded.getD (requiredNumTokens useMla b P) := by
  unfold buildBatchLayout at h
  dsimp only at h
  split at h <;> cases h
  rfl

theorem segmentTokens_place (off : Nat) (segs : List BatchSegment) :
    segmentTokens (place off segs) = segmentTokens segs := by
  induction segs generalizing off with
  | nil => rfl
  | cons s segs ih => rw [place, segmentTokens_cons, segmentTokens_cons, ih]; rfl

theorem layout_placed (h : buildBatchLayout useMla b P padded = .ok l) (r : Fin P) :
    ∃ segs, l.segmentsByRank r = place 0 segs ∧ segmentTokens segs ≤ l.paddedNumTokens := by
  obtain ⟨_, hs, hw⟩ := buildBatchLayout_spec h
  have hr := hw r
  rw [hs] at hr ⊢
  refine ⟨_, rfl, ?_⟩
  dsimp only [layoutSegments, reorderSegments] at hr
  rwa [segmentTokens_place] at hr

end

/-! ## The three index tensors -/

section
variable {useMla : Bool} {b : InputBatch} {P : Nat} {padded : Option Nat} {l : BatchLayout P}

def BatchLayout.cells (l : BatchLayout P) : List (Nat × Nat) := allCells l.paddedNumTokens l.segmentsByRank

def BatchLayout.owned (l : BatchLayout P) (b : InputBatch) : List (Nat × Nat) :=
  ownedCells b l.paddedNumTokens l.segmentsByRank

variable (h : buildBatchLayout useMla b P padded = .ok l)
include h

theorem cells_fst_nodup : (l.cells.map Prod.fst).Nodup := allCells_fst_nodup (layout_placed h)

theorem owned_fst_nodup : ((l.owned b).map Prod.fst).Nodup :=
  (cells_fst_nodup h).sublist ((ownedCells_sublist b).map _)

theorem owned_tokens_perm (hP : 0 < P) : ((l.owned b).map Prod.snd).Perm (List.range b.numTokens) := by
  obtain ⟨_, hs, _⟩ := buildBatchLayout_spec h
  rw [BatchLayout.owned, hs]
  exact ownedCells_tokens_perm useMla b hP _

theorem owned_lt {v t : Nat} (hm : (v, t) ∈ l.owned b) : v < P * l.paddedNumTokens := by
  have hv : v ∈ l.cells.map Prod.fst :=
    List.mem_map.mpr ⟨(v, t), (ownedCells_sublist b).subset hm, rfl⟩
  exact List.mem_range.mp ((allCells_fst_sublist (layout_placed h)).subset hv)

theorem gather_of_cell {v t : Nat} (hm : (v, t) ∈ l.cells) : l.paddedGatherIdx v = t := by
  rw [(buildBatchLayout_spec h).1, writeTensors_gather]
  exact scatter_of_mem _ (cells_fst_nodup h) hm

theorem mask_iff_owned (v : Nat) : l.kvWriteMask v = true ↔ ∃ t, (v, t) ∈ l.owned b := by
  rw [(buildBatchLayout_spec h).1, writeTensors_mask]
  constructor
  · intro hv
    have := mem_of_scatter_ne hv (by simp)
    obtain ⟨⟨v', t⟩, hm, he⟩ := List.mem_map.mp this
    simp only [Prod.mk.injEq, and_true] at he
    subst he
    exact ⟨t, hm⟩
  · rintro ⟨t, hm⟩
    refine scatter_of_mem _ ?_ (List.mem_map.mpr ⟨(v, t), hm, rfl⟩)
    rw [List.map_map]
    exact owned_fst_nodup h

theorem restore_iff_owned (hP : 0 < P) (v t : Nat) :
    l.hiddenRestoreIdx t = some v ↔ (v, t) ∈ l.owned b := by
  rw [(buildBatchLayout_spec h).1, writeTensors_restore]
  constructor
  · intro hv
    have := mem_of_scatter_ne hv (by simp)
    obtain ⟨⟨v', t'⟩, hm, he⟩ := List.mem_map.mp this
    simp only [Prod.mk.injEq, Option.some.injEq] at he
    obtain ⟨rfl, rfl⟩ := he
    exact hm
  · intro hm
    refine scatter_of_mem _ ?_ (List.mem_map.mpr ⟨(v, t), hm, rfl⟩)
    rw [List.map_map]
    exact (owned_tokens_perm h hP).nodup_iff.mpr List.nodup_range

theorem restore_assigned (hP : 0 < P) {t : Nat} (ht : t < b.numTokens) :
    ∃ v, l.hiddenRestoreIdx t = some v := by
  have : t ∈ (l.owned b).map Prod.snd := (owned_tokens_perm h hP).mem_iff.mpr (List.mem_range.mpr ht)
  obtain ⟨⟨v, t'⟩, hm, rfl⟩ := List.mem_map.mp this
  exact ⟨v, (restore_iff_owned h hP v t').mpr hm⟩

theorem restore_token_lt (hP : 0 < P) {v t : Nat} (hv : l.hiddenRestoreIdx t = some v) :
    t < b.numTokens := by
  have hm := (restore_iff_owned h hP v t).mp hv
  exact List.mem_range.mp ((owned_tokens_perm h hP).subset (List.mem_map.mpr ⟨(v, t), hm, rfl⟩))

theorem gather_restore (hP : 0 < P) {v t : Nat} (hv : l.hiddenRestoreIdx t = some v) :
    l.paddedGatherIdx v = t :=
  gather_of_cell h ((ownedCells_sublist b).subset ((restore_iff_owned h hP v t).mp hv))

theorem mask_iff_restore (hP : 0 < P) (v : Nat) :
    l.kvWriteMask v = true ↔ ∃ t < b.numTokens, l.hiddenRestoreIdx t = some v := by
  rw [mask_iff_owned h]
  constructor
  · rintro ⟨t, hm⟩
    have hv := (restore_iff_owned h hP v t).mpr hm
    exact ⟨t, restore_token_lt h hP hv, hv⟩
  · rintro ⟨t, _, hv⟩
    exact ⟨t, (restore_iff_owned h hP v t).mp hv⟩

/-- A gathered row carries the slot of the token that writes it, and `PAD` otherwise. -/
theorem convert_of_restore (hP : 0 < P) (slots : Nat → Int) {v t : Nat}
    (hv : l.hiddenRestoreIdx t = some v) : convertSlotMappings l slots v = slots t := by
  rw [convertSlotMappings, if_pos ((mask_iff_restore h hP v).mpr ⟨t, restore_token_lt h hP hv, hv⟩),
    gather_restore h hP hv]

theorem converted_slots_perm (hP : 0 < P) (slots : Nat → Int)
    (hpad : ∀ t < b.numTokens, slots t ≠ padSlotId) :
    (((List.range (P * l.paddedNumTokens)).map (convertSlotMappings l slots)).filter
      (· != padSlotId)).Perm ((List.range b.numTokens).map slots) := by
  have hkeep : ∀ v, (convertSlotMappings l slots v != padSlotId) = l.kvWriteMask v := by
    intro v
    by_cases hm : l.kvWriteMask v = true
    · obtain ⟨t, ht, hv⟩ := (mask_iff_restore h hP v).mp hm
      rw [convert_of_restore h hP slots hv, hm]
      simpa using hpad t ht
    · simp [convertSlotMappings, hm]
  have hval : ∀ v ∈ (List.range (P * l.paddedNumTokens)).filter (fun v => l.kvWriteMask v),
      convertSlotMappings l slots v = slots (l.paddedGatherIdx v) := by
    intro v hv
    rw [convertSlotMappings, if_pos (List.mem_filter.mp hv).2]
  rw [List.filter_map, show ((· != padSlotId) ∘ convertSlotMappings l slots) = l.kvWriteMask from
    funext hkeep, List.map_congr_left hval, ← Function.comp_def slots, ← List.map_map]
  refine List.Perm.map slots ?_
  rw [List.perm_ext_iff_of_nodup _ List.nodup_range]
  · intro t
    simp only [List.mem_map, List.mem_filter, List.mem_range]
    constructor
    · rintro ⟨v, ⟨_, hm⟩, rfl⟩
      obtain ⟨t, ht, hv⟩ := (mask_iff_restore h hP v).mp hm
      rwa [gather_restore h hP hv]
    · intro ht
      obtain ⟨v, hv⟩ := restore_assigned h hP ht
      exact ⟨v, ⟨owned_lt h ((restore_iff_owned h hP v t).mp hv),
        (mask_iff_restore h hP v).mpr ⟨t, ht, hv⟩⟩, gather_restore h hP hv⟩
  · refine List.Nodup.map_on ?_ (List.nodup_range.filter _)
    intro v hv v' hv' he
    obtain ⟨t, _, ht⟩ := (mask_iff_restore h hP v).mp (List.mem_filter.mp hv).2
    obtain ⟨t', _, ht'⟩ := (mask_iff_restore h hP v').mp (List.mem_filter.mp hv').2
    rw [gather_restore h hP ht, gather_restore h hP ht'] at he
    subst he
    exact Option.some.inj (ht.symm.trans ht')

end

/-! ## Rank-local rows -/

/-- The local rows of a rank with their tokens. -/
def localCells (segs : List BatchSegment) : List (Nat × Nat) := rankCells 0 0 segs

def isDecodeRow (b : InputBatch) (s : BatchSegment) : Bool := !b.isPrefilling s.globalReqIdx

def decodeCells (b : InputBatch) (segs : List BatchSegment) : List (Nat × Nat) :=
  localCells (segs.filter (isDecodeRow b))

theorem segCells_shift (padded rank : Nat) (s : BatchSegment) :
    segCells padded rank s = (segCells 0 0 s).map fun c => (rank * padded + c.1, c.2) := by
  apply List.ext_getElem
  · simp [segCells]
  · intro n h₁ h₂
    simp [segCells]
    omega

theorem rankCells_shift (padded rank : Nat) (segs : List BatchSegment) :
    rankCells padded rank segs = (localCells segs).map fun c => (rank * padded + c.1, c.2) := by
  simp only [localCells, rankCells, List.map_flatMap, ← segCells_shift]

theorem mem_rankCells {padded rank v t : Nat} {segs : List BatchSegment} :
    (v, t) ∈ rankCells padded rank segs ↔ ∃ j, (j, t) ∈ localCells segs ∧ v = rank * padded + j := by
  rw [rankCells_shift, List.mem_map]
  constructor
  · rintro ⟨⟨j, t'⟩, hm, he⟩
    simp only [Prod.mk.injEq] at he
    obtain ⟨rfl, rfl⟩ := he
    exact ⟨j, hm, rfl⟩
  · rintro ⟨j, hm, rfl⟩
    exact ⟨(j, t), hm, rfl⟩

theorem decodeCells_sublist (b : InputBatch) (segs : List BatchSegment) :
    (decodeCells b segs).Sublist (localCells segs) := by
  induction segs with
  | nil => exact List.Sublist.refl _
  | cons s l ih =>
    by_cases h : isDecodeRow b s = true
    · simpa [decodeCells, localCells, rankCells, h] using
        List.Sublist.append (List.Sublist.refl (segCells 0 0 s)) ih
    · simpa [decodeCells, localCells, rankCells, h] using ih.trans (List.sublist_append_right _ _)

theorem rank0DecodePosition_eq (b : InputBatch) (segs : List BatchSegment) :
    rank0DecodePosition b segs =
      scatter (fun _ => none) ((decodeCells b segs).map fun c => (c.2, some c.1)) := by
  rw [decodeCells, localCells, rankCells, ← map_flatMap_filter]
  refine foldl_scatter (fun pos : Nat → Option Nat => pos) _ _ (fun pos s => ?_) _ _
  by_cases hz : s.numActualTokens = 0
  · simp [hz, segCells_of_zero]
  · by_cases hp : b.isPrefilling s.globalReqIdx = true
    · simp [hp, isDecodeRow]
    · have : (List.range' s.globalStart s.numActualTokens).zip
          ((List.range' s.localStart s.numActualTokens).map some) =
          (segCells 0 0 s).map fun c => (c.2, some c.1) := by
        apply List.ext_getElem
        · simp [segCells, segTokens]
        · intro n h₁ h₂; simp [segCells, segTokens]
      simp [hz, hp, isDecodeRow, writeSlice, this]

/-- What one row of `partition_batch` writes, once its decode owners are known. -/
theorem copyRow_ok (b : InputBatch) (owner : Nat → Option Nat) (lb : LocalBatch) (s : BatchSegment)
    (ho : isDecodeRow b s = true → ∀ t ∈ segTokens s, (owner t).isSome) :
    ∃ lb', copyRow b owner lb s = .ok lb' ∧ lb'.numTokensAfterPadding = lb.numTokensAfterPadding ∧
      lb'.globalToken = scatter lb.globalToken ((segCells 0 0 s).map fun c => (c.1, some c.2)) ∧
      lb'.replicatedTokenMask = scatter lb.replicatedTokenMask
        (if isDecodeRow b s then (segCells 0 0 s).map fun c => (c.1, true) else []) ∧
      lb'.replicatedSlotIndices = scatter lb.replicatedSlotIndices
        (if isDecodeRow b s then (segCells 0 0 s).map fun c => (c.1, (owner c.2).getD 0) else []) := by
  have hzip : ∀ {γ : Type} (g : Nat → γ),
      (List.range' s.localStart s.numActualTokens).zip ((segTokens s).map g) =
        (segCells 0 0 s).map fun c => (c.1, g c.2) := by
    intro γ g
    apply List.ext_getElem
    · simp [segCells, segTokens]
    · intro n h₁ h₂; simp [segCells]
  have hrep : (List.range' s.localStart s.numActualTokens).zip (List.replicate s.numActualTokens true) =
      (segCells 0 0 s).map fun c => (c.1, true) := by
    have := zip_replicate_eq_map (List.range' s.localStart s.numActualTokens) (segTokens s) true
      (by simp [segTokens])
    simpa [segCells] using this
  unfold copyRow
  by_cases hz : s.numActualTokens = 0
  · rw [if_pos hz]
    exact ⟨lb, rfl, rfl, by simp [segCells_of_zero hz], by simp [segCells_of_zero hz],
      by simp [segCells_of_zero hz]⟩
  · rw [if_neg hz]
    dsimp only
    by_cases hp : b.isPrefilling s.globalReqIdx = true
    · rw [if_pos hp]
      exact ⟨_, rfl, rfl, by simpa [writeSlice, segTokens] using congrArg _ (hzip some),
        by simp [isDecodeRow, hp], by simp [isDecodeRow, hp]⟩
    · have hd : isDecodeRow b s = true := by simp [isDecodeRow, hp]
      have hall : ¬ ((List.range' s.globalStart s.numActualTokens).map owner).any Option.isNone = true := by
        simp only [List.any_map, List.any_eq_true, not_exists, not_and]
        intro t ht hn
        have := ho hd t ht
        rw [Function.comp_apply, Option.isNone_iff_eq_none] at hn
        rw [hn] at this
        cases this
      rw [if_neg hp, if_neg hall]
      refine ⟨_, rfl, rfl, ?_, ?_, ?_⟩
      · simpa [writeSlice, segTokens] using congrArg _ (hzip some)
      · simp [hd, writeSlice, hrep]
      · have := hzip fun t => (owner t).getD 0
        simp only [segTokens] at this
        simp [hd, writeSlice, List.map_map, Function.comp_def, this]

theorem foldlM_copyRow (b : InputBatch) (owner : Nat → Option Nat) :
    ∀ (segs : List BatchSegment) (lb : LocalBatch),
      (∀ s ∈ segs, isDecodeRow b s = true → ∀ t ∈ segTokens s, (owner t).isSome) →
      ∃ lb', segs.foldlM (copyRow b owner) lb = .ok lb' ∧
        lb'.numTokensAfterPadding = lb.numTokensAfterPadding ∧
        lb'.globalToken = scatter lb.globalToken ((localCells segs).map fun c => (c.1, some c.2)) ∧
        lb'.replicatedTokenMask = scatter lb.replicatedTokenMask
          ((decodeCells b segs).map fun c => (c.1, true)) ∧
        lb'.replicatedSlotIndices = scatter lb.replicatedSlotIndices
          ((decodeCells b segs).map fun c => (c.1, (owner c.2).getD 0))
  | [], lb, _ => ⟨lb, rfl, rfl, rfl, rfl, rfl⟩
  | s :: segs, lb, ho => by
    obtain ⟨lb₁, h₁, n₁, g₁, m₁, i₁⟩ := copyRow_ok b owner lb s (ho s (List.mem_cons_self ..))
    obtain ⟨lb₂, h₂, n₂, g₂, m₂, i₂⟩ := foldlM_copyRow b owner segs lb₁ fun s' hs' =>
      ho s' (List.mem_cons_of_mem _ hs')
    refine ⟨lb₂, ?_, n₂.trans n₁, ?_, ?_, ?_⟩
    · rw [List.foldlM_cons, h₁]; exact h₂
    · rw [g₂, g₁, ← scatter_append, ← List.map_append]; rfl
    · rw [m₂, m₁, ← scatter_append]
      by_cases hd : isDecodeRow b s = true <;> simp [decodeCells, localCells, rankCells, hd]
    · rw [i₂, i₁, ← scatter_append]
      by_cases hd : isDecodeRow b s = true <;> simp [decodeCells, localCells, rankCells, hd]

theorem localCells_localSegments (segs : List BatchSegment) :
    localCells (localSegments segs) = localCells segs := by
  cases segs with
  | nil => rfl
  | cons s l => rfl

theorem decodeCells_localSegments (b : InputBatch) (segs : List BatchSegment) :
    decodeCells b (localSegments segs) = decodeCells b segs := by
  cases segs with
  | nil =>
    simp only [localSegments, List.isEmpty_nil, ite_true, decodeCells, List.filter_nil]
    rw [List.filter_cons]
    split <;> rfl
  | cons s l => rfl

/-! ## Replicated decode rows -/

/-- The tokens of the decode requests, in batch order. -/
def decodeTokens (b : InputBatch) : List Nat :=
  b.reqs.zipIdx.flatMap fun qi =>
    if qi.1.isPrefilling then [] else List.range' (b.queryStartLoc qi.2) qi.1.numScheduledTokens

theorem decodeTokens_nodup (b : InputBatch) : (decodeTokens b).Nodup := by
  refine List.Sublist.nodup ?_ (List.nodup_range (n := b.numTokens))
  rw [← zipIdx_flatMap_range']
  refine List.Sublist.flatMap_right _ fun qi _ => ?_
  split
  · exact List.nil_sublist _
  · exact List.Sublist.refl _

theorem decodeCells_tokens (b : InputBatch) (segs : List BatchSegment) :
    (decodeCells b segs).map Prod.snd = (segs.filter (isDecodeRow b)).flatMap segTokens := by
  simp only [decodeCells, localCells, rankCells, List.map_flatMap, segCells_snd]

theorem decodeCells_tokens_perm (useMla : Bool) (b : InputBatch) {P : Nat} (r : Fin P) :
    ((decodeCells b (layoutSegments useMla b r)).map Prod.snd).Perm (decodeTokens b) := by
  rw [decodeCells_tokens, ← flatMap_ite_filter]
  refine (layoutSegments_flatMap_perm useMla b r _ (fun s a c => rfl) fun s hs => ?_).trans ?_
  · simp [segTokens, hs]
  · refine List.Perm.flatMap_left _ fun qi hqi => ?_
    have hd : ∀ s ∈ requestSegments b r qi.2 qi.1, isDecodeRow b s = !qi.1.isPrefilling := fun s hs => by
      rw [isDecodeRow, requestSegments_reqIdx hs, isPrefilling_of_zipIdx hqi]
    by_cases hp : qi.1.isPrefilling = true
    · have : ((requestSegments b r qi.2 qi.1).flatMap fun s => if isDecodeRow b s then segTokens s else []) =
          [] := List.flatMap_eq_nil_iff.mpr fun s hs => by simp [hd s hs, hp]
      rw [this, if_pos hp]
    · have : ((requestSegments b r qi.2 qi.1).flatMap fun s => if isDecodeRow b s then segTokens s else []) =
          (requestSegments b r qi.2 qi.1).flatMap segTokens :=
        List.flatMap_congr fun s hs => by simp [hd s hs, hp]
      rw [this, requestSegments_tokens, if_neg hp, if_neg hp]

theorem rank0DecodePosition_iff (useMla : Bool) (b : InputBatch) {P : Nat} (r : Fin P) (j t : Nat) :
    rank0DecodePosition b (layoutSegments useMla b r) t = some j ↔
      (j, t) ∈ decodeCells b (layoutSegments useMla b r) := by
  rw [rank0DecodePosition_eq]
  constructor
  · intro hv
    obtain ⟨⟨j', t'⟩, hm, he⟩ := List.mem_map.mp (mem_of_scatter_ne hv (by simp))
    simp only [Prod.mk.injEq, Option.some.injEq] at he
    obtain ⟨rfl, rfl⟩ := he
    exact hm
  · intro hm
    refine scatter_of_mem _ ?_ (List.mem_map.mpr ⟨(j, t), hm, rfl⟩)
    rw [List.map_map]
    exact (decodeCells_tokens_perm useMla b r).nodup_iff.mpr (decodeTokens_nodup b)

/-- The decode tokens of any rank are found on rank 0, so the ownership check never fires. -/
theorem rank0_owns_decode (useMla : Bool) (b : InputBatch) {P : Nat} (r r₀ : Fin P) {s : BatchSegment}
    (hs : s ∈ layoutSegments useMla b r) (hd : isDecodeRow b s = true) {t : Nat} (ht : t ∈ segTokens s) :
    (rank0DecodePosition b (layoutSegments useMla b r₀) t).isSome := by
  have hmem : t ∈ (decodeCells b (layoutSegments useMla b r)).map Prod.snd := by
    rw [decodeCells_tokens]
    exact List.mem_flatMap.mpr ⟨s, List.mem_filter.mpr ⟨hs, hd⟩, ht⟩
  have h₀ := (decodeCells_tokens_perm useMla b r₀).mem_iff.mpr
    ((decodeCells_tokens_perm useMla b r).mem_iff.mp hmem)
  obtain ⟨⟨j, t'⟩, hm, rfl⟩ := List.mem_map.mp h₀
  rw [(rank0DecodePosition_iff useMla b r₀ j t').mpr hm]
  rfl

/-! ## `partition_batch` -/

/-- What a rank-local batch says about the layout it was cut from. -/
structure PartitionSpec (m : HcuPCPManager) (b : InputBatch) (l : BatchLayout m.pcpSize)
    (rank : Fin m.pcpSize) (lb : LocalBatch) : Prop where
  width : lb.numTokensAfterPadding = l.paddedNumTokens
  tokens : lb.globalToken =
    scatter (fun _ => none) ((localCells (l.segmentsByRank rank)).map fun c => (c.1, some c.2))
  mask : lb.replicatedTokenMask =
    scatter (fun _ => false) ((decodeCells b (l.segmentsByRank rank)).map fun c => (c.1, true))
  slots : lb.replicatedSlotIndices =
    scatter (fun _ => 0) ((decodeCells b (l.segmentsByRank rank)).map fun c =>
      (c.1, (rank0DecodePosition b (l.segmentsByRank m.rank0) c.2).getD 0))

theorem localSegments_owned (useMla : Bool) (b : InputBatch) {P : Nat} (r r₀ : Fin P) :
    ∀ s ∈ localSegments (layoutSegments useMla b r), isDecodeRow b s = true → ∀ t ∈ segTokens s,
      (rank0DecodePosition b (layoutSegments useMla b r₀) t).isSome := by
  intro s hs hd t ht
  unfold localSegments at hs
  split at hs
  · rw [List.mem_singleton] at hs
    subst hs
    cases ht
  · exact rank0_owns_decode useMla b r r₀ hs hd ht

/-- Within the buffers, `partition_batch` returns: its ownership check never fires. -/
theorem partitionBatch_ok {m : HcuPCPManager} {b : InputBatch} {padded : Option Nat}
    {l : BatchLayout m.pcpSize} (hl : m.buildBatchLayout b padded = .ok l) (rank : Fin m.pcpSize)
    (hreqs : (localSegments (l.segmentsByRank rank)).length ≤ m.maxLocalReqs)
    (htokens : l.paddedNumTokens ≤ m.maxLocalTokens) :
    ∃ lb, m.partitionBatch b padded rank = .ok lb := by
  obtain ⟨_, hs, _⟩ := buildBatchLayout_spec hl
  have hown := localSegments_owned m.useMla b rank m.rank0
  unfold HcuPCPManager.partitionBatch
  rw [hl]
  simp only [bind, Except.bind]
  rw [if_neg (Nat.not_lt.mpr hreqs), if_neg (Nat.not_lt.mpr htokens)]
  obtain ⟨lb, h, _⟩ := foldlM_copyRow b (rank0DecodePosition b (l.segmentsByRank m.rank0))
    (localSegments (l.segmentsByRank rank)) _ (by rw [hs]; exact hown)
  exact ⟨lb, h⟩

theorem partitionBatch_spec {m : HcuPCPManager} {b : InputBatch} {padded : Option Nat}
    {rank : Fin m.pcpSize} {lb : LocalBatch} (h : m.partitionBatch b padded rank = .ok lb) :
    ∃ l, m.buildBatchLayout b padded = .ok l ∧ PartitionSpec m b l rank lb := by
  unfold HcuPCPManager.partitionBatch at h
  cases hl : m.buildBatchLayout b padded with
  | error e => rw [hl] at h; cases h
  | ok l =>
    refine ⟨l, rfl, ?_⟩
    rw [hl] at h
    simp only [bind, Except.bind] at h
    split at h
    · cases h
    · split at h
      · cases h
      · obtain ⟨_, hs, _⟩ := buildBatchLayout_spec hl
        have hown := localSegments_owned m.useMla b rank m.rank0
        obtain ⟨lb', h', n', g', m', i'⟩ :=
          foldlM_copyRow b (rank0DecodePosition b (l.segmentsByRank m.rank0))
            (localSegments (l.segmentsByRank rank))
            { segments := localSegments (l.segmentsByRank rank)
              numTokens := l.perRankNumTokens rank
              numTokensAfterPadding := l.paddedNumTokens
              globalToken := fun _ => none
              replicatedTokenMask := fun _ => false
              replicatedSlotIndices := fun _ => 0 }
            (by rw [hs]; exact hown)
        have := h.symm.trans h'
        cases this
        rw [localCells_localSegments] at g'
        rw [decodeCells_localSegments] at m' i'
        exact ⟨n', g', m', i'⟩

theorem localCells_fst_nodup {useMla : Bool} {b : InputBatch} {P : Nat} {padded : Option Nat}
    {l : BatchLayout P} (h : buildBatchLayout useMla b P padded = .ok l) (r : Fin P) :
    ((localCells (l.segmentsByRank r)).map Prod.fst).Nodup := by
  obtain ⟨segs, hs, _⟩ := layout_placed h r
  rw [hs]
  exact (rankCells_place_sublist 0 0 segs 0).nodup List.nodup_range'

theorem localCells_lt {useMla : Bool} {b : InputBatch} {P : Nat} {padded : Option Nat}
    {l : BatchLayout P} (h : buildBatchLayout useMla b P padded = .ok l) (r : Fin P) {j t : Nat}
    (hm : (j, t) ∈ localCells (l.segmentsByRank r)) : j < l.paddedNumTokens := by
  obtain ⟨segs, hs, hw⟩ := layout_placed h r
  rw [hs] at hm
  have := (rankCells_place_sublist 0 0 segs 0).subset (List.mem_map.mpr ⟨(j, t), hm, rfl⟩)
  simp only [List.mem_range'_1] at this
  omega

theorem globalToken_iff {m : HcuPCPManager} {b : InputBatch} {padded : Option Nat}
    {l : BatchLayout m.pcpSize} {rank : Fin m.pcpSize} {lb : LocalBatch}
    (hl : m.buildBatchLayout b padded = .ok l) (hp : PartitionSpec m b l rank lb) (j t : Nat) :
    lb.globalToken j = some t ↔ (j, t) ∈ localCells (l.segmentsByRank rank) := by
  rw [hp.tokens]
  constructor
  · intro hv
    obtain ⟨⟨j', t'⟩, hm, he⟩ := List.mem_map.mp (mem_of_scatter_ne hv (by simp))
    simp only [Prod.mk.injEq, Option.some.injEq] at he
    obtain ⟨rfl, rfl⟩ := he
    exact hm
  · intro hm
    refine scatter_of_mem _ ?_ (List.mem_map.mpr ⟨(j, t), hm, rfl⟩)
    rw [List.map_map]
    exact localCells_fst_nodup hl rank

/-! ## Restore after partition -/

theorem allGather_getElem? {P w : Nat} {β : Type*} (rows : Fin P → List β) (hw : ∀ r, (rows r).length = w)
    (r : Fin P) {j : Nat} (hj : j < w) : (allGather rows)[r * w + j]? = (rows r)[j]? := by
  unfold allGather
  rw [List.flatMap_def, flatten_getElem?_of_length (by simpa using hw) r hj]
  simp

theorem owned_mem_rank {b : InputBatch} {P : Nat} {l : BatchLayout P} {v t : Nat}
    (hm : (v, t) ∈ l.owned b) :
    ∃ (r : Fin P) (j : Nat), (j, t) ∈ localCells (l.segmentsByRank r) ∧ v = r * l.paddedNumTokens + j := by
  have hc : (v, t) ∈ l.cells := (ownedCells_sublist b).subset hm
  obtain ⟨r, _, hr⟩ := List.mem_flatMap.mp hc
  obtain ⟨j, hj, hv⟩ := mem_rankCells.mp hr
  exact ⟨r, j, hj, hv⟩

theorem restoreHiddenStates_eq {m : HcuPCPManager} {b : InputBatch} {padded : Option Nat}
    {l : BatchLayout m.pcpSize} (hl : m.buildBatchLayout b padded = .ok l) {β : Type*} (hs : Nat → β)
    {rows : Fin m.pcpSize → List β} {lb : Fin m.pcpSize → LocalBatch}
    (hlb : ∀ r, m.partitionBatch b padded r = .ok (lb r))
    (hlen : ∀ r, (rows r).length = l.paddedNumTokens)
    (hrow : ∀ r j t, (lb r).globalToken j = some t → (rows r)[j]? = some (hs t)) :
    restoreHiddenStates l b rows = (List.range b.numTokens).map fun t => some (hs t) := by
  have hP : 0 < m.pcpSize := m.rank0.pos
  refine List.map_congr_left fun t ht => ?_
  obtain ⟨v, hv⟩ := restore_assigned hl hP (List.mem_range.mp ht)
  obtain ⟨r, j, hj, rfl⟩ := owned_mem_rank ((restore_iff_owned hl hP v t).mp hv)
  have hspec : PartitionSpec m b l r (lb r) := by
    obtain ⟨l', hl', hp⟩ := partitionBatch_spec (hlb r)
    cases hl'.symm.trans hl
    exact hp
  rw [hv, Option.bind_some, allGather_getElem? rows hlen r (localCells_lt hl r hj)]
  exact hrow r j t ((globalToken_iff hl hspec j t).mpr hj)

/-- Partition followed by restore is the identity on the batch `b`. -/
structure RestoresBatch (m : HcuPCPManager) (b : InputBatch) (padded : Option Nat)
    (l : BatchLayout m.pcpSize) : Prop where
  assigned : ∀ t < b.numTokens, ∃ v < m.pcpSize * l.paddedNumTokens,
    l.hiddenRestoreIdx t = some v ∧ l.paddedGatherIdx v = t
  injective : ∀ t t' v, l.hiddenRestoreIdx t = some v → l.hiddenRestoreIdx t' = some v → t = t'
  writeMask : ∀ v, l.kvWriteMask v = true ↔ ∃ t < b.numTokens, l.hiddenRestoreIdx t = some v
  hiddenStates : ∀ {β : Type} (hs : Nat → β) (rows : Fin m.pcpSize → List β)
    (lb : Fin m.pcpSize → LocalBatch), (∀ r, m.partitionBatch b padded r = .ok (lb r)) →
    (∀ r, (rows r).length = l.paddedNumTokens) →
    (∀ r j t, (lb r).globalToken j = some t → (rows r)[j]? = some (hs t)) →
    restoreHiddenStates l b rows = (List.range b.numTokens).map fun t => some (hs t)
  slot : ∀ (slots : Nat → Int) (t v : Nat), l.hiddenRestoreIdx t = some v →
    convertSlotMappings l slots v = slots t
  pad : ∀ (slots : Nat → Int) (v : Nat), (∀ t < b.numTokens, l.hiddenRestoreIdx t ≠ some v) →
    convertSlotMappings l slots v = padSlotId
  slotsOnce : ∀ slots : Nat → Int, (∀ t < b.numTokens, slots t ≠ padSlotId) →
    (((List.range (m.pcpSize * l.paddedNumTokens)).map (convertSlotMappings l slots)).filter
      (· != padSlotId)).Perm ((List.range b.numTokens).map slots)

theorem layout_restores (m : HcuPCPManager) (b : InputBatch) (padded : Option Nat)
    (hw : ∀ w ∈ padded, requiredNumTokens m.useMla b m.pcpSize ≤ w) :
    ∃ l, m.buildBatchLayout b padded = .ok l ∧
      l.paddedNumTokens = padded.getD (requiredNumTokens m.useMla b m.pcpSize) ∧
      RestoresBatch m b padded l := by
  have hP : 0 < m.pcpSize := m.rank0.pos
  obtain ⟨l, h⟩ := buildBatchLayout_ok hw
  refine ⟨l, h, buildBatchLayout_width h, ?_, ?_, mask_iff_restore h hP, restoreHiddenStates_eq h, ?_, ?_, ?_⟩
  · intro t ht
    obtain ⟨v, hv⟩ := restore_assigned h hP ht
    exact ⟨v, owned_lt h ((restore_iff_owned h hP v t).mp hv), hv, gather_restore h hP hv⟩
  · intro t t' v hv hv'
    exact (gather_restore h hP hv).symm.trans (gather_restore h hP hv')
  · intro slots t v hv
    exact convert_of_restore h hP slots hv
  · intro slots v hv
    have : ¬ l.kvWriteMask v = true := fun hm => by
      obtain ⟨t, ht, hr⟩ := (mask_iff_restore h hP v).mp hm
      exact hv t ht hr
    rw [convertSlotMappings, if_neg this]
  · exact fun slots => converted_slots_perm h hP slots

/-- Two ranks, a continued prefill of three tokens before a decode of two, width six. -/
theorem layout_restores_mixed :
    ∃ l : BatchLayout 2, (HcuPCPManager.mk 2 (by decide) true 6 64).buildBatchLayout
        ⟨[⟨3, 3, true⟩, ⟨2, 18, false⟩]⟩ (some 6) = .ok l ∧ l.paddedNumTokens = 6 ∧
      RestoresBatch ⟨2, by decide, true, 6, 64⟩ ⟨[⟨3, 3, true⟩, ⟨2, 18, false⟩]⟩ (some 6) l :=
  layout_restores ⟨2, by decide, true, 6, 64⟩ ⟨[⟨3, 3, true⟩, ⟨2, 18, false⟩]⟩ (some 6)
    (by intro w hw; cases hw; decide)

end VllmHcu.Pcp
