import VllmHcu.Dsa.RemapSound

/-!
# Planner and worker

The planner sees the groups, a worker sees the packed tensors of the shared
configuration. Whatever order these name the layers in, both derive the same
families, slots and bytes, so a worker's remap accepts the planner's stride and
skips exactly the layouts that the planner left alone.
-/

namespace VllmHcu.Dsa

/-! ## Orders of one family -/

theorem sort_dedup_perm {α : Type} [LinearOrder α] {l₁ l₂ : List α} (h : l₁.Perm l₂) :
    l₁.dedup.insertionSort (· ≤ ·) = l₂.dedup.insertionSort (· ≤ ·) := by
  refine List.Perm.eq_of_pairwise' (List.pairwise_insertionSort _ _) (List.pairwise_insertionSort _ _) ?_
  exact (List.perm_insertionSort _ _).trans (h.dedup.trans (List.perm_insertionSort _ _).symm)

theorem backboneOf_perm {n : Nat} {l₁ l₂ : List Int} (h : l₁.Perm l₂) : backboneOf n l₁ = backboneOf n l₂ :=
  sort_dedup_perm (h.filter _)

theorem physSlotsForLayerFamily_perm {n size : Nat} {l₁ l₂ : List Int} (h : l₁.Perm l₂) :
    physSlotsForLayerFamily l₁ n size = physSlotsForLayerFamily l₂ n size := by
  rw [physSlotsForLayerFamily, physSlotsForLayerFamily, backboneOf_perm h, h.length_eq, (h.filter _).length_eq]

/-! ## Slots of a worker -/

section
variable {state : LayerSplitState} {indices : List Int}

theorem extrasOf_length_le (n : Nat) (l : List Int) :
    (extrasOf n l).length ≤ (l.filter fun i => (n : Int) ≤ i).length := by
  rw [extrasOf, sortedSet, List.length_insertionSort]
  exact (List.dedup_sublist _).length_le

theorem SlotSpec.lt {i : Int} {slot : Nat} (h : SlotSpec state indices i slot) : slot < familySlots state indices := by
  cases h with
  | ordered hb hm =>
    rw [familySlots, physSlotsForLayerFamily, if_pos (.inl hb)]
    exact List.idxOf_lt_length_of_mem hm
  | extra hb hm =>
    have h₁ := List.idxOf_lt_length_of_mem hm
    have h₂ := extrasOf_length_le state.totalLayers indices
    rw [familySlots_of_backbone hb]
    omega
  | scratch hb _ _ => exact scratchSlot_lt hb
  | owned hb _ hm =>
    have h₁ := List.idxOf_lt_length_of_mem hm
    have h₂ := owned_length_le hb
    exact lt_trans (lt_of_lt_of_le h₁ h₂) (scratchSlot_lt hb)

theorem slot_of_mem {i : Int} (hi : i ∈ indices) (h0 : 0 ≤ i) :
    ∃ slot, localPackedSlotForFamilyLayer state i indices = .ok slot := by
  have hsize : ¬ state.shardSize ≤ 1 := Nat.not_le.mpr state.one_lt_shardSize
  unfold localPackedSlotForFamilyLayer
  dsimp only
  by_cases hb : backboneOf state.totalLayers indices = []
  · rw [if_pos (.inl hb)]
    exact ⟨_, indexOf_ok.mpr ⟨hi, rfl⟩⟩
  · rw [if_neg (by simp [hb, hsize])]
    by_cases hx : (state.totalLayers : Int) ≤ i
    · have hmem : i ∈ extrasOf state.totalLayers indices := mem_extrasOf.mpr ⟨hi, hx⟩
      rw [if_pos hx, indexOf_ok.mpr ⟨hmem, rfl⟩]
      exact ⟨_, rfl⟩
    · have hmem : i ∈ backboneOf state.totalLayers indices := mem_backboneOf.mpr ⟨hi, h0, Int.not_le.mp hx⟩
      rw [if_neg hx, if_neg (not_not.mpr hmem)]
      by_cases ho : state.isOwned i = false
      · rw [if_pos ho]
        exact ⟨_, rfl⟩
      · rw [if_neg ho]
        refine ⟨_, indexOf_ok.mpr ⟨mem_ownedOf.mpr ⟨hmem, ?_⟩, rfl⟩⟩
        have hc : state.covers i = true := by simp [LayerSplitState.covers, h0, Int.not_le.mp hx]
        simpa [LayerSplitState.isOwned, hc] using ho

end

/-! ## Page sizes of the groups -/

section
variable {Name : Type} [DecidableEq Name]

/-- The layer names of a group. -/
def KVCacheGroup.names (g : KVCacheGroup Name) : List Name :=
  let keys := g.kvCacheSpecs.map (·.1)
  keys ++ g.layerNames.filter fun n => decide (n ∉ keys)

/-- What one group adds to `layer_ps`. -/
def groupPageSizes (layerPs : Name → Option Nat) (g : KVCacheGroup Name) : Name → Option Nat :=
  g.layerNames.foldl (fun (layerPs : Name → Option Nat) name =>
      if (layerPs name).isSome then layerPs
      else Function.update layerPs name (some g.kvCacheSpec.pageSizeBytes))
    (g.kvCacheSpecs.foldl
      (fun (layerPs : Name → Option Nat) e => Function.update layerPs e.1 (some e.2.pageSizeBytes)) layerPs)

theorem layerPageSizes_eq (groups : List (KVCacheGroup Name)) :
    layerPageSizes groups = groups.foldl groupPageSizes fun _ => none := rfl

theorem specs_foldl_of_not_mem {n : Name} : ∀ (l : List (Name × KVCacheSpec)) (m : Name → Option Nat),
    n ∉ l.map (·.1) →
    l.foldl (fun (m : Name → Option Nat) e => Function.update m e.1 (some e.2.pageSizeBytes)) m n = m n
  | [], _, _ => rfl
  | e :: l, m, h => by
    rw [List.map_cons, List.mem_cons, not_or] at h
    rw [List.foldl_cons, specs_foldl_of_not_mem l _ h.2, Function.update_of_ne h.1]

theorem specs_foldl_of_mem {n : Name} {s : KVCacheSpec} : ∀ (l : List (Name × KVCacheSpec)) (m : Name → Option Nat),
    (l.map (·.1)).Nodup → (n, s) ∈ l →
    l.foldl (fun (m : Name → Option Nat) e => Function.update m e.1 (some e.2.pageSizeBytes)) m n =
      some s.pageSizeBytes
  | e :: l, m, hnd, h => by
    rw [List.map_cons, List.nodup_cons] at hnd
    rw [List.foldl_cons]
    rcases List.mem_cons.mp h with he | h
    · subst he
      rw [specs_foldl_of_not_mem l _ hnd.1, Function.update_self]
    · exact specs_foldl_of_mem l _ hnd.2 h

theorem names_foldl {n : Name} {ps : Nat} : ∀ (l : List Name) (m : Name → Option Nat),
    l.foldl (fun (m : Name → Option Nat) name =>
      if (m name).isSome then m else Function.update m name (some ps)) m n =
      if n ∈ l ∧ m n = none then some ps else m n
  | [], m => by simp
  | a :: l, m => by
    rw [List.foldl_cons, names_foldl l]
    by_cases ha : (m a).isSome = true
    · rw [if_pos ha]
      by_cases hn : n = a
      · subst hn
        have hne : m n ≠ none := Option.isSome_iff_ne_none.mp ha
        simp [hne]
      · simp [hn]
    · rw [if_neg ha]
      by_cases hn : n = a
      · subst hn
        have he : m n = none := by simpa using ha
        simp [he]
      · simp [hn]

theorem groupPageSizes_of_not_mem {g : KVCacheGroup Name} {m : Name → Option Nat} {n : Name} (h : n ∉ g.names) :
    groupPageSizes m g n = m n := by
  rw [KVCacheGroup.names, List.mem_append, not_or, List.mem_filter, not_and] at h
  have hl : n ∉ g.layerNames := fun hm => h.2 hm (by simpa using h.1)
  rw [groupPageSizes, names_foldl, if_neg (fun hc => hl hc.1), specs_foldl_of_not_mem _ _ h.1]

theorem foldl_groups_of_not_mem {n : Name} : ∀ (groups : List (KVCacheGroup Name)) (m : Name → Option Nat),
    n ∉ groups.flatMap KVCacheGroup.names → groups.foldl groupPageSizes m n = m n
  | [], _, _ => rfl
  | g :: groups, m, h => by
    rw [List.flatMap_cons, List.mem_append, not_or] at h
    rw [List.foldl_cons, foldl_groups_of_not_mem groups _ h.2, groupPageSizes_of_not_mem h.1]

/-- The layers a group contributes to the planner's buckets. -/
def KVCacheGroup.planned (g : KVCacheGroup Name) : List (Name × Nat) :=
  if g.kvCacheSpecs = [] then g.layerNames.map fun n => (n, g.kvCacheSpec.pageSizeBytes)
  else g.kvCacheSpecs.map fun e => (e.1, e.2.pageSizeBytes)

omit [DecidableEq Name] in
theorem plannedLayers_eq (groups : List (KVCacheGroup Name)) :
    plannedLayers groups = groups.flatMap KVCacheGroup.planned := rfl

theorem planned_names_sublist (g : KVCacheGroup Name) : (g.planned.map (·.1)).Sublist g.names := by
  unfold KVCacheGroup.planned KVCacheGroup.names
  dsimp only
  split
  · rename_i h
    rw [h]
    simp [Function.comp_def]
  · rw [List.map_map]
    exact List.sublist_append_left _ _

theorem groupPageSizes_of_planned {g : KVCacheGroup Name} {m : Name → Option Nat} {n : Name} {ps : Nat}
    (hnd : g.names.Nodup) (hm : m n = none) (h : (n, ps) ∈ g.planned) : groupPageSizes m g n = some ps := by
  unfold KVCacheGroup.planned at h
  rw [groupPageSizes, names_foldl]
  split at h
  · rename_i hs
    obtain ⟨a, ha, he⟩ := List.mem_map.mp h
    cases he
    rw [hs, List.foldl_nil, if_pos ⟨ha, hm⟩]
  · obtain ⟨e, he, heq⟩ := List.mem_map.mp h
    cases heq
    have hkeys : (g.kvCacheSpecs.map (·.1)).Nodup := hnd.sublist (List.sublist_append_left _ _)
    rw [specs_foldl_of_mem _ _ hkeys he, if_neg (by simp)]

section
variable {groups : List (KVCacheGroup Name)} (hnd : (groups.flatMap KVCacheGroup.names).Nodup)

include hnd in
/-- The page size map of a worker gives every planned layer its planned page size. -/
theorem layerPageSizes_of_planned {n : Name} {ps : Nat} (h : (n, ps) ∈ plannedLayers groups) :
    layerPageSizes groups n = some ps := by
  rw [plannedLayers_eq, List.mem_flatMap] at h
  obtain ⟨g, hg, h⟩ := h
  obtain ⟨before, after, he⟩ := List.append_of_mem hg
  have hn : n ∈ g.names := (planned_names_sublist g).subset (List.mem_map.mpr ⟨_, h, rfl⟩)
  subst he
  rw [List.flatMap_append, List.flatMap_cons, List.nodup_append, List.nodup_append] at hnd
  obtain ⟨_, ⟨hgd, _, hafter⟩, hbefore⟩ := hnd
  have hnb : n ∉ before.flatMap KVCacheGroup.names :=
    fun hb => hbefore n hb n (List.mem_append_left _ hn) rfl
  have hna : n ∉ after.flatMap KVCacheGroup.names := fun ha => hafter n hn n ha rfl
  rw [layerPageSizes_eq, List.foldl_append, List.foldl_cons, foldl_groups_of_not_mem after _ hna]
  exact groupPageSizes_of_planned hgd (foldl_groups_of_not_mem before _ hnb) h

include hnd in
theorem nodup_planned : ((plannedLayers groups).map (·.1)).Nodup := by
  rw [plannedLayers_eq, List.map_flatMap]
  refine hnd.sublist ?_
  clear hnd
  induction groups with
  | nil => exact List.Sublist.refl _
  | cons g groups ih =>
    rw [List.flatMap_cons, List.flatMap_cons]
    exact (planned_names_sublist g).append ih

end

/-! ## What a worker derives -/

def plannedNames (groups : List (KVCacheGroup Name)) : List Name := (plannedLayers groups).map (·.1)

def plannedPageSizes (groups : List (KVCacheGroup Name)) : List Nat :=
  ((plannedLayers groups).map (·.2)).dedup.insertionSort (· ≤ ·)

def plannedIndices (parse : Name → Option Int) (groups : List (KVCacheGroup Name)) (ps : Nat) : List Int :=
  (plannedBucket groups ps).map fun n => (parse n).getD (-1)

/-- The bytes of one block with the backbone layers of a rank and one scratch slot per family. -/
def plannedBytes (parse : Name → Option Int) (totalLayers pcp : Nat) (groups : List (KVCacheGroup Name)) : Nat :=
  ((plannedPageSizes groups).map fun ps =>
    ps * physSlotsForLayerFamily (plannedIndices parse groups ps) totalLayers pcp).sum

def plannedFullBytes (groups : List (KVCacheGroup Name)) : Nat :=
  ((plannedPageSizes groups).map fun ps => ps * (plannedBucket groups ps).length).sum

/-- A shared configuration over `groups` whose packed tensors name the planned layers, in any order. -/
structure SharedConfig (groups : List (KVCacheGroup Name)) (cfg : KVCacheConfig Name) : Prop where
  groups_eq : cfg.kvCacheGroups = groups
  notApplied : cfg.remapApplied = false
  names : ∀ n, n ∈ packedNames cfg.kvCacheTensors ↔ n ∈ plannedNames groups

/-- Distinct layer names that parse to layer indices. -/
structure ValidGroups (parse : Name → Option Int) (groups : List (KVCacheGroup Name)) : Prop where
  nodup : (groups.flatMap KVCacheGroup.names).Nodup
  parses : ∀ n ∈ plannedNames groups, ∃ i, 0 ≤ i ∧ parse n = some i

section
variable {parse : Name → Option Int} {groups : List (KVCacheGroup Name)} {cfg : KVCacheConfig Name}
  (hv : ValidGroups parse groups) (hc : SharedConfig groups cfg)

include hv in
theorem nodup_plannedNames : (plannedNames groups).Nodup := nodup_planned hv.nodup

include hv hc in
theorem SharedConfig.names_perm : (packedNames cfg.kvCacheTensors).Perm (plannedNames groups) :=
  (List.perm_ext_iff_of_nodup (nodup_firstSeen _) (nodup_plannedNames hv)).mpr hc.names

include hv hc in
theorem SharedConfig.pageSize_planned {n : Name} {ps : Nat} (h : (n, ps) ∈ plannedLayers groups) :
    cfg.pageSize n = some ps := by
  rw [KVCacheConfig.pageSize, hc.groups_eq, layerPageSizes_of_planned hv.nodup h]

include hv hc in
theorem SharedConfig.pageSizes_eq :
    pageSizesOf (packedNames cfg.kvCacheTensors) (fun n => (cfg.pageSize n).getD 0) = plannedPageSizes groups := by
  have he : (plannedNames groups).map (fun n => (cfg.pageSize n).getD 0) = (plannedLayers groups).map (·.2) := by
    rw [plannedNames, List.map_map]
    refine List.map_congr_left fun l hl => ?_
    simp [hc.pageSize_planned hv (show (l.1, l.2) ∈ plannedLayers groups from hl)]
  rw [pageSizesOf, plannedPageSizes, ← he]
  exact sort_dedup_perm ((hc.names_perm hv).map _)

include hv hc in
theorem SharedConfig.bucket_perm (ps : Nat) :
    (bucket (packedNames cfg.kvCacheTensors) (fun n => (cfg.pageSize n).getD 0) ps).Perm (plannedBucket groups ps) := by
  have he : (plannedNames groups).filter (fun n => (cfg.pageSize n).getD 0 == ps) = plannedBucket groups ps := by
    rw [plannedNames, List.filter_map, plannedBucket]
    refine congrArg (List.map _) (List.filter_congr fun l hl => ?_)
    simp [hc.pageSize_planned hv (show (l.1, l.2) ∈ plannedLayers groups from hl)]
  rw [bucket, ← he]
  exact (hc.names_perm hv).filter _

omit [DecidableEq Name] in
theorem mem_plannedBucket {n : Name} {ps : Nat} : n ∈ plannedBucket groups ps ↔ (n, ps) ∈ plannedLayers groups := by
  simp [plannedBucket]

omit [DecidableEq Name] in
theorem mem_plannedNames {n : Name} : n ∈ plannedNames groups ↔ ∃ ps, (n, ps) ∈ plannedLayers groups := by
  simp [plannedNames]

include hv hc in
theorem SharedConfig.indices_perm (ps : Nat) :
    (familyIndices (packedNames cfg.kvCacheTensors) (fun n => (cfg.pageSize n).getD 0)
      (fun n => (parse n).getD 0) ps).Perm (plannedIndices parse groups ps) := by
  have he : (plannedBucket groups ps).map (fun n => (parse n).getD 0) = plannedIndices parse groups ps := by
    refine List.map_congr_left fun n hn => ?_
    obtain ⟨i, _, hi⟩ := hv.parses n (mem_plannedNames.mpr ⟨ps, mem_plannedBucket.mp hn⟩)
    rw [hi]
    rfl
  rw [← he]
  exact (hc.bucket_perm hv ps).map _

include hv hc in
theorem SharedConfig.ownedScratchBytes_eq (totalLayers pcp : Nat) :
    ((pageSizesOf (packedNames cfg.kvCacheTensors) (fun n => (cfg.pageSize n).getD 0)).map fun ps =>
      ps * physSlotsForLayerFamily (familyIndices (packedNames cfg.kvCacheTensors)
        (fun n => (cfg.pageSize n).getD 0) (fun n => (parse n).getD 0) ps) totalLayers pcp).sum =
      plannedBytes parse totalLayers pcp groups := by
  rw [hc.pageSizes_eq hv, plannedBytes]
  congr 1
  exact List.map_congr_left fun ps _ => by rw [physSlotsForLayerFamily_perm (hc.indices_perm hv ps)]

include hv hc in
theorem SharedConfig.fullBytes_eq :
    ((pageSizesOf (packedNames cfg.kvCacheTensors) (fun n => (cfg.pageSize n).getD 0)).map fun ps =>
      ps * (bucket (packedNames cfg.kvCacheTensors) (fun n => (cfg.pageSize n).getD 0) ps).length).sum =
      plannedFullBytes groups := by
  rw [hc.pageSizes_eq hv, plannedFullBytes]
  congr 1
  exact List.map_congr_left fun ps _ => by rw [(hc.bucket_perm hv ps).length_eq]

/-! ## The remap of a shared configuration -/

include hv hc in
theorem remap_of_shared (state : LayerSplitState) (hp : packedTensors cfg.kvCacheTensors ≠ []) :
    remapPackedKvTensorOffsets (some state) parse cfg =
      remapResolved state cfg (fun n => (cfg.pageSize n).getD 0) fun n => (parse n).getD 0 := by
  have hpage : ¬ ∃ n ∈ packedNames cfg.kvCacheTensors, cfg.pageSize n = none := by
    intro ⟨n, hn, he⟩
    obtain ⟨ps, hps⟩ := mem_plannedNames.mp ((hc.names n).mp hn)
    rw [hc.pageSize_planned hv hps] at he
    cases he
  have hparse : ¬ ∃ n ∈ packedNames cfg.kvCacheTensors, parse n = none := by
    intro ⟨n, hn, he⟩
    obtain ⟨i, _, hi⟩ := hv.parses n ((hc.names n).mp hn)
    rw [hi] at he
    cases he
  unfold remapPackedKvTensorOffsets
  dsimp only
  rw [if_neg (by rw [hc.notApplied]; decide), if_neg hp, if_neg hpage, if_neg hparse]

include hv hc in
/-- A layout that the planner does not shrink is left alone by every rank. -/
theorem remap_of_not_shrunk (state : LayerSplitState)
    (h : plannedFullBytes groups ≤ plannedBytes parse state.totalLayers state.shardSize groups) :
    remapPackedKvTensorOffsets (some state) parse cfg = .ok (false, cfg) := by
  by_cases hp : packedTensors cfg.kvCacheTensors = []
  · unfold remapPackedKvTensorOffsets
    dsimp only
    rw [if_neg (by rw [hc.notApplied]; decide), if_pos hp]
  · rw [remap_of_shared hv hc state hp]
    unfold remapResolved
    dsimp only
    rw [hc.ownedScratchBytes_eq hv, hc.fullBytes_eq hv, if_pos h]

omit [DecidableEq Name] in
theorem layerOffsets_ok {state : LayerSplitState} {names : List Name} {page : Name → Nat} {parse : Name → Int}
    (hparse : ∀ n ∈ names, 0 ≤ parse n) : ∀ (pss : List Nat) (base : Nat),
    ∃ offs, layerOffsets state names page parse base pss = .ok offs
  | [], _ => ⟨[], rfl⟩
  | ps :: pss, base => by
    obtain ⟨here, hh⟩ : ∃ here, familyOffsets state names page parse base ps = .ok here := by
      refine mapM_ok_of_forall fun n hn => ?_
      have hmem : parse n ∈ familyIndices names page parse ps := List.mem_map.mpr ⟨n, hn, rfl⟩
      obtain ⟨slot, hs⟩ : ∃ slot, localPackedSlotForFamilyLayer state (parse n) (familyIndices names page parse ps) =
          .ok slot := slot_of_mem hmem (hparse n (List.mem_filter.mp hn).1)
      refine ⟨(n, base + slot * ps, ps), bind_eq_ok.mpr ⟨slot, hs, ?_⟩⟩
      have hlt : slot < physSlotsForLayerFamily (familyIndices names page parse ps) state.totalLayers state.shardSize :=
        (slot_spec hs).lt
      rw [if_pos hlt]
      rfl
    obtain ⟨more, hm⟩ := layerOffsets_ok hparse pss
      (base + physSlotsForLayerFamily (familyIndices names page parse ps) state.totalLayers state.shardSize * ps)
    exact ⟨here ++ more, bind_eq_ok.mpr ⟨here, hh, bind_eq_ok.mpr ⟨more, hm, rfl⟩⟩⟩

theorem remapTensor_ok {layerPs : Name → Option Nat} {offs : List (Name × Nat × Nat)} {stride : Nat}
    {t : KVCacheTensor Name} {p : Name} (hp : t.layerNames.head? = some p) (hmem : ∃ e ∈ offs, e.1 = p)
    (hpos : ∀ e ∈ offs, 0 < e.2.2) : ∃ t', remapTensor layerPs offs stride t = .ok t' := by
  unfold remapTensor
  split
  · exact ⟨t, rfl⟩
  · split
    · rename_i hnil
      rw [hnil] at hp
      cases hp
    · rename_i q rest hnames
      rw [hnames] at hp
      cases hp
      obtain ⟨e, he, hep⟩ := hmem
      obtain ⟨e', he'⟩ : ∃ e', offs.find? (fun e => e.1 == p) = some e' := by
        rw [← Option.isSome_iff_exists, List.find?_isSome]
        exact ⟨e, he, by simp [hep]⟩
      dsimp only
      rw [he']
      dsimp only
      rw [if_neg (Nat.ne_of_gt (hpos e' (List.mem_of_find?_eq_some he')))]
      exact ⟨_, rfl⟩

include hv hc in
theorem remap_of_shrunk (state : LayerSplitState)
    (h : plannedBytes parse state.totalLayers state.shardSize groups < plannedFullBytes groups)
    (hne : ∀ t ∈ packedTensors cfg.kvCacheTensors, t.layerNames ≠ [])
    (hhead : (packedTensors cfg.kvCacheTensors).head?.map (·.blockStride) =
      some (alignPackedBlockStride (plannedBytes parse state.totalLayers state.shardSize groups) groups)) :
    ∃ cfg', remapPackedKvTensorOffsets (some state) parse cfg = .ok (true, cfg') := by
  have hp : packedTensors cfg.kvCacheTensors ≠ [] := by
    intro hnil
    rw [hnil] at hhead
    cases hhead
  rw [remap_of_shared hv hc state hp]
  unfold remapResolved
  dsimp only
  rw [hc.ownedScratchBytes_eq hv, hc.fullBytes_eq hv, if_neg (Nat.not_le.mpr h), hc.groups_eq,
    if_neg (not_not.mpr hhead)]
  have hidx : ∀ n ∈ packedNames cfg.kvCacheTensors, 0 ≤ (parse n).getD 0 := by
    intro n hn
    obtain ⟨i, hi, he⟩ := hv.parses n ((hc.names n).mp hn)
    rw [he]
    exact hi
  obtain ⟨offs, ho⟩ : ∃ offs, layerOffsets state (packedNames cfg.kvCacheTensors) (fun n => (cfg.pageSize n).getD 0)
      (fun n => (parse n).getD 0) 0 (pageSizesOf (packedNames cfg.kvCacheTensors) fun n => (cfg.pageSize n).getD 0) =
      .ok offs := layerOffsets_ok hidx _ 0
  obtain ⟨hcomplete, hentries⟩ := layerOffsets_spec (nodup_pageSizesOf _ _) ho
  have hpos : ∀ e ∈ offs, 0 < e.2.2 := by
    intro e he
    obtain ⟨hn, _, slot, _, _, heq⟩ := hentries e he
    obtain ⟨ps, hps⟩ := mem_plannedNames.mp ((hc.names e.1).mp hn)
    have hpage := hc.pageSize_planned hv hps
    rw [heq]
    dsimp only
    rw [hpage]
    exact pageSize_pos hpage
  obtain ⟨tensors, ht⟩ := mapM_ok_of_forall (l := cfg.kvCacheTensors)
    (f := remapTensor (layerPageSizes groups) offs (alignPackedBlockStride
      (plannedBytes parse state.totalLayers state.shardSize groups) groups)) fun t ht => by
    by_cases hs : t.blockStride = 0
    · exact ⟨t, by unfold remapTensor; rw [if_pos hs]⟩
    · have hpt : t ∈ packedTensors cfg.kvCacheTensors :=
        List.mem_filter.mpr ⟨ht, by simpa using Nat.pos_of_ne_zero hs⟩
      obtain ⟨p, hhd⟩ := Option.isSome_iff_exists.mp (List.isSome_head?.mpr (hne t hpt))
      have hpn : p ∈ packedNames cfg.kvCacheTensors :=
        mem_firstSeen.mpr (List.mem_flatMap.mpr ⟨t, hpt, List.mem_of_head? hhd⟩)
      exact remapTensor_ok hhd (hcomplete p hpn (page_mem hpn)) hpos
  exact ⟨_, bind_eq_ok.mpr ⟨offs, ho, bind_eq_ok.mpr ⟨tensors, ht, rfl⟩⟩⟩

end

/-! ## The plan -/

section
variable {groups : List (KVCacheGroup Name)} {layout : ShrunkLayout} {size : Nat} {backing : BackingId}

omit [DecidableEq Name] in
theorem plannedTensors_mem {t : KVCacheTensor Name} : ∀ {pss : List Nat} {base : Nat},
    t ∈ plannedTensors groups layout size backing base pss →
    t.blockStride = layout.totalNumBytesPerBlock ∧ ∃ ps ∈ pss, ∃ n ∈ plannedBucket groups ps, t.layerNames = [n]
  | ps :: pss, base, h => by
    rw [plannedTensors, List.mem_append] at h
    rcases h with h | h
    · obtain ⟨e, he, heq⟩ := List.mem_map.mp h
      subst heq
      exact ⟨rfl, ps, List.mem_cons_self .., e.1, List.fst_mem_of_mem_zipIdx he, rfl⟩
    · obtain ⟨hstride, ps', hps, hn⟩ := plannedTensors_mem h
      exact ⟨hstride, ps', List.mem_cons_of_mem _ hps, hn⟩

omit [DecidableEq Name] in
theorem plannedTensors_of_bucket {n : Name} {ps : Nat} (hn : n ∈ plannedBucket groups ps) :
    ∀ {pss : List Nat} {base : Nat}, ps ∈ pss →
    ∃ t ∈ plannedTensors groups layout size backing base pss, t.layerNames = [n]
  | ps' :: pss, base, h => by
    rw [plannedTensors]
    rcases List.mem_cons.mp h with he | h
    · subst he
      obtain ⟨i, hi⟩ := List.mem_iff_getElem?.mp hn
      have hz : (n, i) ∈ (plannedBucket groups ps).zipIdx := List.mk_mem_zipIdx_iff_getElem?.mpr hi
      exact ⟨_, List.mem_append_left _ (List.mem_map.mpr ⟨(n, i), hz, rfl⟩), rfl⟩
    · obtain ⟨t, ht, he⟩ := plannedTensors_of_bucket hn h
      exact ⟨t, List.mem_append_right _ ht, he⟩

omit [DecidableEq Name] in
theorem mem_plannedPageSizes {ps : Nat} : ps ∈ plannedPageSizes groups ↔ ∃ n, (n, ps) ∈ plannedLayers groups := by
  rw [plannedPageSizes, List.mem_insertionSort, List.mem_dedup]
  simp

omit [DecidableEq Name] in
theorem packedTensors_planned (hpos : 0 < layout.totalNumBytesPerBlock) (base : Nat) (pss : List Nat) :
    packedTensors (plannedTensors groups layout size backing base pss) =
      plannedTensors groups layout size backing base pss := by
  refine List.filter_eq_self.mpr fun t ht => ?_
  rw [(plannedTensors_mem ht).1]
  simpa using hpos

theorem sharedConfig_planned (hpos : 0 < layout.totalNumBytesPerBlock) :
    SharedConfig groups
      { kvCacheTensors := plannedTensors groups layout size backing 0 (plannedPageSizes groups)
        kvCacheGroups := groups } := by
  refine ⟨rfl, rfl, fun n => ?_⟩
  rw [packedNames, mem_firstSeen, List.mem_flatMap, packedTensors_planned hpos, mem_plannedNames]
  constructor
  · intro ⟨t, ht, hn⟩
    obtain ⟨_, ps, _, m, hm, he⟩ := plannedTensors_mem ht
    rw [he, List.mem_singleton] at hn
    subst hn
    exact ⟨ps, mem_plannedBucket.mp hm⟩
  · intro ⟨ps, h⟩
    obtain ⟨t, ht, he⟩ := plannedTensors_of_bucket (mem_plannedBucket.mpr h) (mem_plannedPageSizes.mpr ⟨n, h⟩)
    exact ⟨t, ht, by rw [he]; exact List.mem_singleton_self n⟩

end

section
variable {parse : Name → Option Int} {mayOverride : Nat → Nat} {totalLayers pcp mem : Nat}
  {groups : List (KVCacheGroup Name)}

theorem physSlots_pos {indices : List Int} {n size : Nat} (h : physSlotsForLayerFamily indices n size = 0) :
    indices = [] := by
  unfold physSlotsForLayerFamily at h
  dsimp only at h
  split at h
  · exact List.length_eq_zero_iff.mp h
  · omega

omit [DecidableEq Name] in
theorem fullBytes_zero (h : plannedBytes parse totalLayers pcp groups = 0) : plannedFullBytes groups = 0 := by
  rw [plannedBytes, List.sum_eq_zero_iff_forall_eq_nat] at h
  rw [plannedFullBytes, List.sum_eq_zero_iff_forall_eq_nat]
  intro x hx
  obtain ⟨ps, hps, he⟩ := List.mem_map.mp hx
  subst he
  rcases Nat.mul_eq_zero.mp (h _ (List.mem_map.mpr ⟨ps, hps, rfl⟩)) with h0 | h0
  · rw [h0, Nat.zero_mul]
  · have hnil := List.map_eq_nil_iff.mp (physSlots_pos h0)
    rw [hnil]
    rfl

omit [DecidableEq Name] in
theorem bytes_of_no_backbone : plannedBytes parse 0 pcp groups = plannedFullBytes groups := by
  rw [plannedBytes, plannedFullBytes]
  congr 1
  refine List.map_congr_left fun ps _ => ?_
  have hb : backboneOf 0 (plannedIndices parse groups ps) = [] := by
    refine List.eq_nil_iff_forall_not_mem.mpr fun i hi => ?_
    have := (mem_backboneOf.mp hi).2
    omega
  rw [physSlotsForLayerFamily, if_pos (.inl hb), plannedIndices, List.length_map]

omit [DecidableEq Name] in
/-- The planner keeps the original layout exactly when the split does not save bytes. -/
theorem plan_none (h : shrunkPackedPlan parse mayOverride totalLayers pcp groups mem = .ok none) :
    plannedFullBytes groups ≤ plannedBytes parse totalLayers pcp groups := by
  unfold shrunkPackedPlan at h
  split at h
  · rename_i hl
    unfold shrunkLayout at hl
    split at hl
    · rename_i h0
      rw [h0, bytes_of_no_backbone]
    · dsimp only at hl
      split at hl
      · rename_i hb
        rw [fullBytes_zero hb]
        exact Nat.zero_le _
      · cases hl
  · rename_i layout hl
    split at h
    · rename_i hs
      unfold shrunkLayout at hl
      split at hl
      · cases hl
      · dsimp only at hl
        split at hl
        · cases hl
        · cases hl
          exact Nat.not_lt.mp (of_decide_eq_false hs)
    · obtain ⟨_, _, h⟩ := bind_eq_ok.mp h
      cases h

omit [DecidableEq Name] in
theorem plan_some {numBlocks : Nat} {tensors : List (KVCacheTensor Name)}
    (h : shrunkPackedPlan parse mayOverride totalLayers pcp groups mem = .ok (some (numBlocks, tensors))) :
    plannedBytes parse totalLayers pcp groups < plannedFullBytes groups ∧
      0 < plannedBytes parse totalLayers pcp groups ∧
      ∃ layout size backing, layout.totalNumBytesPerBlock =
          alignPackedBlockStride (plannedBytes parse totalLayers pcp groups) groups ∧
        tensors = plannedTensors groups layout size backing 0 (plannedPageSizes groups) := by
  unfold shrunkPackedPlan at h
  split at h
  · cases h
  · rename_i layout hl
    split at h
    · cases h
    · rename_i hs
      obtain ⟨_, _, h⟩ := bind_eq_ok.mp h
      cases h
      unfold shrunkLayout at hl
      split at hl
      · cases hl
      · dsimp only at hl
        split at hl
        · cases hl
        · rename_i hb
          cases hl
          have hlt : plannedBytes parse totalLayers pcp groups < plannedFullBytes groups :=
            Nat.not_le.mp fun hle => hs (decide_eq_false (Nat.not_lt.mpr hle))
          refine ⟨hlt, Nat.pos_of_ne_zero hb, _, _, _, ?_, rfl⟩
          exact if_pos (decide_eq_true hlt)

end

/-! ## Agreement -/

/-- The slots of a rank: below the scratch slot for an owned layer, the scratch slot for another
backbone layer, above it for a layer outside the backbone, never shared by two layers kept on the
rank. -/
structure SplitSlots (state : LayerSplitState) (names : List Name) (page : Name → Nat) (parse : Name → Int) :
    Prop where
  total : ∀ n ∈ names, ∃ slot, slotOf state names page parse n = .ok slot
  owned : ∀ n ∈ names, ∀ slot, slotOf state names page parse n = .ok slot → state.covers (parse n) = true →
    state.isOwned (parse n) = true → slot < scratchSlot state (familyIndices names page parse (page n))
  remote : ∀ n ∈ names, ∀ slot, slotOf state names page parse n = .ok slot → state.isOwned (parse n) = false →
    slot = scratchSlot state (familyIndices names page parse (page n))
  extra : ∀ n ∈ names, ∀ slot, slotOf state names page parse n = .ok slot → state.covers (parse n) = false →
    hasScratch state names page parse (page n) →
    scratchSlot state (familyIndices names page parse (page n)) < slot
  distinct : ∀ n ∈ names, ∀ n' ∈ names, ∀ slot, slotOf state names page parse n = .ok slot →
    slotOf state names page parse n' = .ok slot → page n = page n' → state.isOwned (parse n) = true →
    state.isOwned (parse n') = true → n = n'

omit [DecidableEq Name] in
theorem splitSlots {state : LayerSplitState} {names : List Name} {page : Name → Nat} {parse : Name → Int}
    (hparse : ∀ n ∈ names, 0 ≤ parse n)
    (hdist : ∀ n ∈ names, ∀ n' ∈ names, page n = page n' → parse n = parse n' → n = n') :
    SplitSlots state names page parse := by
  have hmem : ∀ n ∈ names, parse n ∈ familyIndices names page parse (page n) := fun n hn =>
    List.mem_map.mpr ⟨n, List.mem_filter.mpr ⟨hn, by simp⟩, rfl⟩
  have hbackbone : ∀ n ∈ names, state.covers (parse n) = true →
      parse n ∈ backboneOf state.totalLayers (familyIndices names page parse (page n)) := fun n hn hc =>
    mem_backboneOf.mpr ⟨hmem n hn, by simpa [LayerSplitState.covers] using hc⟩
  refine ⟨fun n hn => slot_of_mem (hmem n hn) (hparse n hn), ?_, ?_, ?_, ?_⟩
  · intro n hn slot hs hc ho
    cases slot_spec hs with
    | ordered hb _ =>
      have := hbackbone n hn hc
      rw [hb] at this
      cases this
    | extra _ hm =>
      have h₁ := (mem_extrasOf.mp hm).2
      have h₂ := (mem_backboneOf.mp (hbackbone n hn hc)).2
      omega
    | scratch _ _ ho' => rw [ho] at ho'; cases ho'
    | owned hb _ hm => exact lt_of_lt_of_le (List.idxOf_lt_length_of_mem hm) (owned_length_le hb)
  · intro n hn slot hs ho
    exact ((slot_spec hs).of_not_owned ho).2
  · intro n hn slot hs hc hb
    cases slot_spec hs with
    | ordered hb' _ => exact absurd hb' hb
    | extra _ _ => omega
    | scratch _ _ ho =>
      have := covers_of_not_owned ho
      simp [LayerSplitState.covers] at hc
      omega
    | owned _ _ hm =>
      have := (mem_backboneOf.mp (mem_ownedOf.mp hm).1).2
      simp [LayerSplitState.covers] at hc
      omega
  · intro n hn n' hn' slot hs hs' hp ho ho'
    rw [slotOf, ← hp] at hs'
    exact hdist n hn n' hn' hp ((slot_spec hs).inj (slot_spec hs') ho ho')

/-- What a worker makes of the shared configuration `cfg` with blocks of `stride` bytes. -/
structure WorkerLayout (parse : Name → Option Int) (cfg : KVCacheConfig Name) (stride : Nat)
    (state : LayerSplitState) (cfg' : KVCacheConfig Name) : Prop where
  remapped : remapPackedKvTensorOffsets (some state) parse cfg = .ok (true, cfg')
  stride_eq : ∀ t ∈ cfg'.kvCacheTensors, t.blockStride = stride
  slots : SplitSlots state (packedNames cfg.kvCacheTensors) (fun n => (cfg.pageSize n).getD 0)
    fun n => (parse n).getD 0
  -- the runner binds every layer at its slot
  offsets : ∀ n ∈ packedNames cfg.kvCacheTensors, ∃ slot,
    slotOf state (packedNames cfg.kvCacheTensors) (fun n => (cfg.pageSize n).getD 0) (fun n => (parse n).getD 0) n =
      .ok slot ∧
    layerPacking cfg'.kvCacheTensors n = some (Packing.slotStart id
      (slotCount state (packedNames cfg.kvCacheTensors) (fun n => (cfg.pageSize n).getD 0) fun n => (parse n).getD 0)
      (pageSizesOf (packedNames cfg.kvCacheTensors) fun n => (cfg.pageSize n).getD 0) ((cfg.pageSize n).getD 0) slot,
      stride)

/-- No two layers share page size and layer index. -/
def DistinctLayers (parse : Name → Option Int) (groups : List (KVCacheGroup Name)) : Prop :=
  (plannedLayers groups).Pairwise fun l l' => (l.2, parse l.1) ≠ (l'.2, parse l'.1)

omit [DecidableEq Name] in
theorem DistinctLayers.inj {parse : Name → Option Int} {groups : List (KVCacheGroup Name)}
    (h : DistinctLayers parse groups) {n n' : Name} {ps : Nat} (hn : (n, ps) ∈ plannedLayers groups)
    (hn' : (n', ps) ∈ plannedLayers groups) (he : parse n = parse n') : n = n' := by
  have hinj : ((plannedLayers groups).map fun l => (l.2, parse l.1)).Nodup := by
    rw [List.Nodup, List.pairwise_map]
    exact h
  exact congrArg Prod.fst (List.inj_on_of_nodup_map hinj hn hn' (by dsimp only; rw [he]))

section
variable {parse : Name → Option Int} {groups : List (KVCacheGroup Name)} {cfg : KVCacheConfig Name}

/-- Every tensor of the configuration is packed, names one layer and has blocks of `stride` bytes. -/
def OneLayerTensors (cfg : KVCacheConfig Name) (stride : Nat) : Prop :=
  ∀ t ∈ cfg.kvCacheTensors, t.blockStride = stride ∧ ∃ n, t.layerNames = [n]

omit [DecidableEq Name] in
theorem OneLayerTensors.packed {stride : Nat} (h : OneLayerTensors cfg stride) (hpos : 0 < stride) :
    packedTensors cfg.kvCacheTensors = cfg.kvCacheTensors := by
  refine List.filter_eq_self.mpr fun t ht => ?_
  rw [(h t ht).1]
  simpa using hpos

theorem OneLayerTensors.primary {stride : Nat} (h : OneLayerTensors cfg stride) {n : Name}
    (hn : n ∈ packedNames cfg.kvCacheTensors) : primaryOf cfg.kvCacheTensors n = some n := by
  obtain ⟨t, ht, hmem, hnt⟩ := boundTensor_of_mem hn
  obtain ⟨_, m, hm⟩ := h t (List.mem_filter.mp hmem).1
  rw [hm, List.mem_singleton] at hnt
  rw [primaryOf, ht, Option.bind_some, hm, hnt]
  rfl

theorem SharedConfig.tensors_ne_nil (hc : SharedConfig groups cfg) (h : 0 < plannedFullBytes groups) :
    cfg.kvCacheTensors ≠ [] := by
  intro hnil
  have hnames : plannedNames groups = [] := by
    refine List.eq_nil_iff_forall_not_mem.mpr fun n hn => ?_
    have := (hc.names n).mpr hn
    rw [hnil] at this
    cases this
  rw [plannedFullBytes, plannedPageSizes, List.map_eq_nil_iff.mp hnames] at h
  exact Nat.lt_irrefl _ h

theorem SharedConfig.splitSlots (hv : ValidGroups parse groups) (hc : SharedConfig groups cfg)
    (hd : DistinctLayers parse groups) (state : LayerSplitState) :
    SplitSlots state (packedNames cfg.kvCacheTensors) (fun n => (cfg.pageSize n).getD 0)
      fun n => (parse n).getD 0 := by
  refine Dsa.splitSlots (fun n hn => ?_) fun n hn n' hn' hp hi => ?_
  · obtain ⟨i, hi, he⟩ := hv.parses n ((hc.names n).mp hn)
    rw [he]
    exact hi
  · obtain ⟨ps, hps⟩ := mem_plannedNames.mp ((hc.names n).mp hn)
    obtain ⟨ps', hps'⟩ := mem_plannedNames.mp ((hc.names n').mp hn')
    obtain ⟨i, _, he⟩ := hv.parses n ((hc.names n).mp hn)
    obtain ⟨i', _, he'⟩ := hv.parses n' ((hc.names n').mp hn')
    rw [hc.pageSize_planned hv hps, hc.pageSize_planned hv hps'] at hp
    cases hp
    rw [he, he'] at hi
    cases hi
    exact hd.inj hps hps' (he.trans he'.symm)

theorem SharedConfig.workerLayout (hv : ValidGroups parse groups) (hc : SharedConfig groups cfg)
    (hd : DistinctLayers parse groups) (state : LayerSplitState)
    (hlt : plannedBytes parse state.totalLayers state.shardSize groups < plannedFullBytes groups) {stride : Nat}
    (hpos : 0 < stride)
    (hstride : stride = alignPackedBlockStride (plannedBytes parse state.totalLayers state.shardSize groups) groups)
    (ht : OneLayerTensors cfg stride) : ∃ cfg', WorkerLayout parse cfg stride state cfg' := by
  have hpacked := ht.packed hpos
  have hne : cfg.kvCacheTensors ≠ [] := hc.tensors_ne_nil (Nat.lt_of_le_of_lt (Nat.zero_le _) hlt)
  obtain ⟨t, hhead⟩ := Option.isSome_iff_exists.mp (List.isSome_head?.mpr hne)
  have hheadStride : (packedTensors cfg.kvCacheTensors).head?.map (·.blockStride) = some stride := by
    rw [hpacked, hhead, Option.map_some, (ht t (List.mem_of_head? hhead)).1]
  obtain ⟨cfg', hr⟩ := remap_of_shrunk hv hc state hlt
    (fun t htm => by
      obtain ⟨_, n, hn⟩ := ht t (List.mem_filter.mp htm).1
      rw [hn]
      exact List.cons_ne_nil _ _)
    (hstride ▸ hheadStride)
  have hr' := hr
  rw [remap_of_shared hv hc state (hpacked.symm ▸ hne)] at hr'
  obtain ⟨offs, stride', hR⟩ := remapResolved_true hr'
  cases hheadStride.symm.trans hR.head_stride
  refine ⟨cfg', hr, fun t' ht' => ?_, hc.splitSlots hv hd state, fun n hn => ?_⟩
  · obtain ⟨t, htm, htr⟩ := forall₂_mem_right hR.tensors ht'
    refine ((remapTensor_spec htr).2.2 ?_).1
    rw [(ht t htm).1]
    exact Nat.ne_of_gt hpos
  · obtain ⟨p, _, hprim, slot, hs, _, hpack⟩ := hR.packing hn
    cases (ht.primary hn).symm.trans hprim
    exact ⟨slot, hs, hpack⟩

end

/-- When the planner shrinks, every rank remaps the plan at the planner's stride, with its owned layers
below the scratch slot, the other backbone layers on it and the rest above it; when it does not, every
rank leaves a configuration over the same layers as it is. -/
theorem planner_worker_agree (parseLayerIndex : Name → Option Int) (mayOverride : Nat → Nat)
    (totalLayers pcp availableMemory : Nat) (groups : List (KVCacheGroup Name))
    (hv : ValidGroups parseLayerIndex groups) (hd : DistinctLayers parseLayerIndex groups) :
    (∀ numBlocks tensors,
      shrunkPackedPlan parseLayerIndex mayOverride totalLayers pcp groups availableMemory =
        .ok (some (numBlocks, tensors)) →
      ∃ stride, (∀ t ∈ tensors, t.blockStride = stride) ∧
        ∀ state : LayerSplitState, state.shardSize = pcp → state.totalLayers = totalLayers →
          ∃ cfg', WorkerLayout parseLayerIndex { kvCacheTensors := tensors, kvCacheGroups := groups } stride state
            cfg') ∧
    (shrunkPackedPlan parseLayerIndex mayOverride totalLayers pcp groups availableMemory = .ok none →
      ∀ cfg, SharedConfig groups cfg ∨ packedTensors cfg.kvCacheTensors = [] →
        ∀ state : LayerSplitState, state.shardSize = pcp → state.totalLayers = totalLayers →
          remapPackedKvTensorOffsets (some state) parseLayerIndex cfg = .ok (false, cfg)) := by
  refine ⟨fun numBlocks tensors h => ?_, fun h cfg hcfg state hs hl => ?_⟩
  · obtain ⟨hlt, hpos, layout, size, backing, htotal, he⟩ := plan_some h
    have htpos : 0 < layout.totalNumBytesPerBlock := by
      rw [htotal]
      exact lt_of_lt_of_le hpos (le_align _ _)
    subst he
    refine ⟨layout.totalNumBytesPerBlock, fun t ht => (plannedTensors_mem ht).1, fun state hs hl => ?_⟩
    subst hs hl
    refine (sharedConfig_planned htpos).workerLayout hv hd state hlt htpos htotal fun t ht => ?_
    obtain ⟨hstride, _, _, n, _, hn⟩ := plannedTensors_mem ht
    exact ⟨hstride, n, hn⟩
  · subst hs hl
    rcases hcfg with hc | hp
    · exact remap_of_not_shrunk hv hc state (plan_none h)
    · unfold remapPackedKvTensorOffsets
      dsimp only
      rw [if_pos hp, ite_self]

end

/-- Layers 0 to 3 and a draft layer 4 on two ranks. -/
theorem planner_worker_agree_draft_layer :
    ∃ numBlocks tensors stride,
      shrunkPackedPlan lastDigit id 4 2 draftConfig.kvCacheGroups 4800 = .ok (some (numBlocks, tensors)) ∧
      (∀ t ∈ tensors, t.blockStride = stride) ∧
      ∀ state : LayerSplitState, state.shardSize = 2 → state.totalLayers = 4 →
        ∃ cfg', WorkerLayout lastDigit { kvCacheTensors := tensors, kvCacheGroups := draftConfig.kvCacheGroups } stride
          state cfg' := by
  have hv : ValidGroups lastDigit draftConfig.kvCacheGroups :=
    ⟨by decide +kernel, fun n _ => ⟨(n % 10 : Nat), Int.natCast_nonneg _, rfl⟩⟩
  have hd : DistinctLayers lastDigit draftConfig.kvCacheGroups := by
    unfold DistinctLayers
    decide +kernel
  have hplan : ∃ numBlocks tensors,
      shrunkPackedPlan lastDigit id 4 2 draftConfig.kvCacheGroups 4800 = .ok (some (numBlocks, tensors)) := by
    exact ⟨_, _, rfl⟩
  obtain ⟨numBlocks, tensors, hplan⟩ := hplan
  obtain ⟨stride, hs, hall⟩ := (planner_worker_agree lastDigit id 4 2 4800 draftConfig.kvCacheGroups hv hd).1
    numBlocks tensors hplan
  exact ⟨numBlocks, tensors, stride, hplan, hs, hall⟩

end VllmHcu.Dsa
