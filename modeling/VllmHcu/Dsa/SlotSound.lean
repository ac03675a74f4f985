import VllmHcu.Dsa.PackedLayout

/-!
# Slots of one family

`SlotSpec` lists what a successful slot lookup returns: a dense slot below the
scratch for an owned layer, the scratch for another backbone layer, a slot after
the scratch for a replicated one; a family without backbone layers has no
scratch and keeps its order.
-/

namespace VllmHcu.Dsa

theorem mem_sortedSet {l : List Int} {i : Int} : i ∈ sortedSet l ↔ i ∈ l := by
  rw [sortedSet, List.mem_insertionSort, List.mem_dedup]

theorem mem_backboneOf {n : Nat} {l : List Int} {i : Int} : i ∈ backboneOf n l ↔ i ∈ l ∧ 0 ≤ i ∧ i < n := by
  simp [backboneOf, mem_sortedSet]

theorem mem_extrasOf {n : Nat} {l : List Int} {i : Int} : i ∈ extrasOf n l ↔ i ∈ l ∧ (n : Int) ≤ i := by
  simp [extrasOf, mem_sortedSet]

theorem mem_ownedOf {range : Nat × Nat} {l : List Int} {i : Int} :
    i ∈ ownedOf range l ↔ i ∈ l ∧ range.1 ≤ i ∧ i < range.2 := by
  simp [ownedOf]

theorem indexOf_ok {l : List Int} {i : Int} {msg : String} {n : Nat} :
    indexOf l i msg = .ok n ↔ i ∈ l ∧ l.idxOf i = n := by
  unfold indexOf
  split
  · rename_i h
    exact ⟨fun he => ⟨h, by cases he; rfl⟩, fun he => by rw [he.2]⟩
  · rename_i h
    exact ⟨nofun, fun he => absurd he.1 h⟩

/-! ## Owned counts -/

theorem le_foldl_max (f : Nat → Nat) : ∀ (l : List Nat) (m : Nat),
    m ≤ l.foldl (fun m r => max m (f r)) m ∧ ∀ r ∈ l, f r ≤ l.foldl (fun m r => max m (f r)) m
  | [], m => ⟨le_refl m, nofun⟩
  | r :: l, m => by
    obtain ⟨h₁, h₂⟩ := le_foldl_max f l (max m (f r))
    rw [List.foldl_cons]
    refine ⟨le_trans (le_max_left _ _) h₁, fun r' hr => ?_⟩
    rcases List.mem_cons.mp hr with he | hr
    · subst he
      exact le_trans (le_max_right _ _) h₁
    · exact h₂ r' hr

/-- No rank owns more layers of a family than the family has owned slots. -/
theorem ownedOf_length_le {l : List Int} {rank size total : Nat} (hl : l ≠ []) (hs : 1 < size) (hr : rank < size) :
    (ownedOf (getLayerShardRange rank size total) l).length ≤ maxOwnedCountForLayers l total size := by
  rw [maxOwnedCountForLayers, if_neg (by simp [hl]; omega)]
  exact (le_foldl_max (fun r => (ownedOf (getLayerShardRange r size total) l).length) _ 0).2 rank
    (List.mem_range.mpr hr)

/-! ## Slots -/

section
variable (state : LayerSplitState) (indices : List Int)

def scratchSlot : Nat :=
  maxOwnedCountForLayers (backboneOf state.totalLayers indices) state.totalLayers state.shardSize

def familySlots : Nat := physSlotsForLayerFamily indices state.totalLayers state.shardSize

/-- What the slot of layer `i` is in its family. -/
inductive SlotSpec (i : Int) : Nat → Prop
  | ordered : backboneOf state.totalLayers indices = [] → i ∈ indices → SlotSpec i (indices.idxOf i)
  | extra : backboneOf state.totalLayers indices ≠ [] → i ∈ extrasOf state.totalLayers indices →
    SlotSpec i (scratchSlot state indices + 1 + (extrasOf state.totalLayers indices).idxOf i)
  | scratch : backboneOf state.totalLayers indices ≠ [] → i ∈ backboneOf state.totalLayers indices →
    state.isOwned i = false → SlotSpec i (scratchSlot state indices)
  | owned : backboneOf state.totalLayers indices ≠ [] → state.isOwned i = true →
    i ∈ ownedOf state.ownedRange (backboneOf state.totalLayers indices) →
    SlotSpec i ((ownedOf state.ownedRange (backboneOf state.totalLayers indices)).idxOf i)

variable {state indices}

theorem slot_spec {i : Int} {slot : Nat} (h : localPackedSlotForFamilyLayer state i indices = .ok slot) :
    SlotSpec state indices i slot := by
  have hsize : ¬ state.shardSize ≤ 1 := Nat.not_le.mpr state.one_lt_shardSize
  unfold localPackedSlotForFamilyLayer at h
  dsimp only at h
  split at h
  · rename_i hb
    obtain ⟨hm, he⟩ := indexOf_ok.mp h
    subst he
    exact .ordered (hb.resolve_right hsize) hm
  · rename_i hb
    have hne : backboneOf state.totalLayers indices ≠ [] := fun he => hb (.inl he)
    split at h
    · cases hi : indexOf (extrasOf state.totalLayers indices) i "extra layer_idx not in family extras" with
      | error e => rw [hi] at h; cases h
      | ok n =>
        rw [hi] at h
        obtain ⟨hm, he⟩ := indexOf_ok.mp hi
        subst he
        cases h
        exact .extra hne hm
    · split at h
      · cases h
      · rename_i hmem
        rw [not_not] at hmem
        split at h
        · rename_i ho
          cases h
          exact .scratch hne hmem ho
        · rename_i ho
          obtain ⟨hm, he⟩ := indexOf_ok.mp h
          subst he
          exact .owned hne (by simpa using ho) hm

theorem covers_of_not_owned {i : Int} (h : state.isOwned i = false) : 0 ≤ i ∧ i < state.totalLayers := by
  unfold LayerSplitState.isOwned at h
  split at h
  · rename_i hc
    simpa [LayerSplitState.covers] using hc
  · cases h

theorem owned_length_le (hb : backboneOf state.totalLayers indices ≠ []) :
    (ownedOf state.ownedRange (backboneOf state.totalLayers indices)).length ≤ scratchSlot state indices :=
  ownedOf_length_le hb state.one_lt_shardSize state.shardRank_lt

theorem SlotSpec.of_not_owned {i : Int} {slot : Nat} (h : SlotSpec state indices i slot)
    (ho : state.isOwned i = false) :
    backboneOf state.totalLayers indices ≠ [] ∧ slot = scratchSlot state indices := by
  have hc := covers_of_not_owned ho
  cases h with
  | ordered hb hm =>
    have : i ∈ backboneOf state.totalLayers indices := mem_backboneOf.mpr ⟨hm, hc⟩
    rw [hb] at this
    cases this
  | extra hb hm =>
    have := (mem_extrasOf.mp hm).2
    omega
  | scratch hb _ _ => exact ⟨hb, rfl⟩
  | owned _ ho' _ => rw [ho] at ho'; cases ho'

theorem SlotSpec.ne_scratch {i : Int} {slot : Nat} (h : SlotSpec state indices i slot)
    (ho : state.isOwned i = true) (hb : backboneOf state.totalLayers indices ≠ []) :
    slot ≠ scratchSlot state indices := by
  cases h with
  | ordered hb' _ => exact absurd hb' hb
  | extra _ _ => omega
  | scratch _ _ ho' => rw [ho] at ho'; cases ho'
  | owned _ _ hm =>
    have := List.idxOf_lt_length_of_mem hm
    have := owned_length_le hb
    omega

theorem SlotSpec.inj {i j : Int} {slot : Nat} (hi : SlotSpec state indices i slot)
    (hj : SlotSpec state indices j slot) (hoi : state.isOwned i = true) (hoj : state.isOwned j = true) :
    i = j := by
  generalize he : slot = slot' at hj
  cases hi with
  | ordered hb hm =>
    cases hj with
    | ordered _ hm' => exact (List.idxOf_inj hm).mp he
    | extra hb' _ => exact absurd hb hb'
    | scratch _ _ ho => rw [hoj] at ho; cases ho
    | owned hb' _ _ => exact absurd hb hb'
  | extra hb hm =>
    cases hj with
    | ordered hb' _ => exact absurd hb' hb
    | extra _ hm' => exact (List.idxOf_inj hm).mp (by omega)
    | scratch _ _ ho => rw [hoj] at ho; cases ho
    | owned _ _ hm' =>
      have := List.idxOf_lt_length_of_mem hm'
      have := owned_length_le hb
      omega
  | scratch _ _ ho => rw [hoi] at ho; cases ho
  | owned hb _ hm =>
    cases hj with
    | ordered hb' _ => exact absurd hb' hb
    | extra _ hm' =>
      have := List.idxOf_lt_length_of_mem hm
      have := owned_length_le hb
      omega
    | scratch _ _ ho => rw [hoj] at ho; cases ho
    | owned _ _ hm' => exact (List.idxOf_inj hm).mp he

theorem familySlots_of_backbone (hb : backboneOf state.totalLayers indices ≠ []) :
    familySlots state indices = scratchSlot state indices + 1 +
      (indices.filter fun i => (state.totalLayers : Int) ≤ i).length := by
  have hsize : ¬ state.shardSize ≤ 1 := Nat.not_le.mpr state.one_lt_shardSize
  rw [familySlots, physSlotsForLayerFamily, if_neg (by simp [hb, hsize]), scratchSlot]

theorem scratchSlot_lt (hb : backboneOf state.totalLayers indices ≠ []) :
    scratchSlot state indices < familySlots state indices := by
  rw [familySlots_of_backbone hb]
  omega

end

end VllmHcu.Dsa
