import Mathlib.Data.List.Induction
import VllmHcu.Dsa.SlotSound
import VllmHcu.Lib.Packing
import VllmHcu.Lib.Result

/-!
# The worker's remap

The remap gives a layer the offset of the first layer of its tensor. Its byte
ranges are those of the family slots exactly when every layer kept on the rank
is the first of the tensor that binds it and no two of them share page size and
layer index.
-/

namespace VllmHcu.Dsa

section
variable {Name : Type} [DecidableEq Name]

/-! ## Bound tensors -/

/-- The tensor that binds a layer: the last packed one that names it. -/
def boundTensor (tensors : List (KVCacheTensor Name)) (n : Name) : Option (KVCacheTensor Name) :=
  (packedTensors tensors).reverse.find? fun t => decide (n ∈ t.layerNames)

theorem foldl_update_names {v : Nat × Nat} {n : Name} : ∀ (l : List Name) (p : Name → Option (Nat × Nat)),
    l.foldl (fun (p : Name → Option (Nat × Nat)) n => Function.update p n (some v)) p n =
      if n ∈ l then some v else p n
  | [], p => by simp
  | m :: l, p => by
    rw [List.foldl_cons, foldl_update_names l]
    by_cases hm : n ∈ l
    · simp [hm]
    · by_cases he : n = m
      · subst he
        simp [hm]
      · simp [hm, he]

theorem layerPacking_eq (tensors : List (KVCacheTensor Name)) (n : Name) :
    layerPacking tensors n = (boundTensor tensors n).map fun t => (t.offset, t.blockStride) := by
  induction tensors using List.reverseRecOn with
  | nil => rfl
  | append_singleton ts t ih =>
    rw [layerPacking, List.foldl_append, List.foldl_cons, List.foldl_nil, ← layerPacking]
    by_cases hs : t.blockStride = 0
    · have hp : packedTensors (ts ++ [t]) = packedTensors ts := by
        rw [packedTensors, packedTensors, List.filter_append]
        simp [hs]
      rw [if_pos hs, ih, boundTensor, boundTensor, hp]
    · have hp : packedTensors (ts ++ [t]) = packedTensors ts ++ [t] := by
        rw [packedTensors, packedTensors, List.filter_append]
        simp [Nat.pos_of_ne_zero hs]
      rw [if_neg hs, foldl_update_names, boundTensor, hp, List.reverse_append, List.reverse_singleton,
        List.singleton_append, List.find?_cons]
      by_cases hn : n ∈ t.layerNames
      · simp [hn]
      · rw [if_neg hn, ih, boundTensor]
        simp [hn]

/-- The layer whose offset a layer gets: the first of its bound tensor. -/
def primaryOf (tensors : List (KVCacheTensor Name)) (n : Name) : Option Name :=
  (boundTensor tensors n).bind fun t => t.layerNames.head?

theorem mem_firstSeen {n : Name} : ∀ {l : List Name}, n ∈ firstSeen l ↔ n ∈ l
  | [] => Iff.rfl
  | m :: l => by
    rw [firstSeen, List.mem_cons, List.mem_filter, mem_firstSeen, List.mem_cons]
    by_cases h : n = m
    · simp [h]
    · simp [h]

theorem nodup_firstSeen : ∀ l : List Name, (firstSeen l).Nodup
  | [] => List.nodup_nil
  | m :: l => by
    rw [firstSeen, List.nodup_cons]
    exact ⟨by simp, (nodup_firstSeen l).filter _⟩

theorem boundTensor_of_mem {tensors : List (KVCacheTensor Name)} {n : Name} (h : n ∈ packedNames tensors) :
    ∃ t, boundTensor tensors n = some t ∧ t ∈ packedTensors tensors ∧ n ∈ t.layerNames := by
  obtain ⟨t, ht, hn⟩ := List.mem_flatMap.mp (mem_firstSeen.mp h)
  have hsome : (boundTensor tensors n).isSome := by
    rw [boundTensor, List.find?_isSome]
    exact ⟨t, List.mem_reverse.mpr ht, by simpa using hn⟩
  obtain ⟨t', ht'⟩ := Option.isSome_iff_exists.mp hsome
  refine ⟨t', ht', List.mem_reverse.mp (List.mem_of_find?_eq_some ht'), ?_⟩
  simpa using List.find?_some ht'

/-- A tensor that binds `n` first names `p`: `p` is bound by it or by a later tensor. -/
theorem primary_induction {tensors : List (KVCacheTensor Name)} {P : Name → Prop}
    (hp : ∀ n, P n → ∀ p, primaryOf tensors n = some p → p ≠ n → P p ∧ primaryOf tensors p ≠ some p) :
    ∀ {n p : Name}, P n → primaryOf tensors n = some p → p = n := by
  suffices ∀ (k : Nat) (n p : Name), ((packedTensors tensors).reverse.findIdx fun t => decide (n ∈ t.layerNames)) = k →
      P n → primaryOf tensors n = some p → p = n from fun {n p} => this _ n p rfl
  intro k
  induction k using Nat.strongRecOn with
  | ind k ih =>
    intro n p hk hn hprim
    by_contra hne
    obtain ⟨hP, hself⟩ := hp n hn p hprim hne
    obtain ⟨t, ht, hhead⟩ := Option.bind_eq_some_iff.mp hprim
    have hpt : p ∈ t.layerNames := List.mem_of_head? hhead
    rw [boundTensor, List.find?_eq_getElem?_findIdx, hk] at ht
    have hlt : k < (packedTensors tensors).reverse.length := (List.getElem?_eq_some_iff.mp ht).1
    have hle : ((packedTensors tensors).reverse.findIdx fun t => decide (p ∈ t.layerNames)) ≤ k := by
      refine Nat.le_of_not_lt fun hgt => ?_
      have := List.not_of_lt_findIdx hgt
      rw [(List.getElem?_eq_some_iff.mp ht).2] at this
      simp [hpt] at this
    obtain ⟨q, hq⟩ : ∃ q, primaryOf tensors p = some q := by
      have hmem : t ∈ (packedTensors tensors).reverse := List.mem_of_getElem? ht
      have hsome : (boundTensor tensors p).isSome := by
        rw [boundTensor, List.find?_isSome]
        exact ⟨t, hmem, by simpa using hpt⟩
      obtain ⟨t', ht'⟩ := Option.isSome_iff_exists.mp hsome
      have hin : p ∈ t'.layerNames := by simpa using List.find?_some ht'
      rw [primaryOf, ht', Option.bind_some]
      exact Option.isSome_iff_exists.mp (List.isSome_head?.mpr (List.ne_nil_of_mem hin))
    rcases Nat.lt_or_eq_of_le hle with hlt' | heq
    · exact hself (by rw [hq, ih _ hlt' p q rfl hP hq])
    · refine hself ?_
      rw [primaryOf, boundTensor, List.find?_eq_getElem?_findIdx, heq, ht, Option.bind_some, hhead]

/-! ## Offsets of the families -/

section
variable (state : LayerSplitState) (names : List Name) (page : Name → Nat) (parse : Name → Int)

/-- The slots of the family of page size `ps`. -/
def slotCount (ps : Nat) : Nat := familySlots state (familyIndices names page parse ps)

def slotOf (n : Name) : Except String Nat :=
  localPackedSlotForFamilyLayer state (parse n) (familyIndices names page parse (page n))

/-- An entry of `layer_offset` and `layer_page`: the slot of its layer, in a layout over `pss` from `base`. -/
def OffsetEntry (base : Nat) (pss : List Nat) (e : Name × Nat × Nat) : Prop :=
  e.1 ∈ names ∧ page e.1 ∈ pss ∧ ∃ slot, slotOf state names page parse e.1 = .ok slot ∧
    slot < slotCount state names page parse (page e.1) ∧
    e.2 = (base + Packing.slotStart id (slotCount state names page parse) pss (page e.1) slot, page e.1)

variable {state names page parse}

omit [DecidableEq Name] in
theorem familyOffsets_spec {base ps : Nat} {offs : List (Name × Nat × Nat)}
    (h : familyOffsets state names page parse base ps = .ok offs) :
    (∀ n ∈ names, page n = ps → ∃ e ∈ offs, e.1 = n) ∧
      ∀ e ∈ offs, e.1 ∈ names ∧ page e.1 = ps ∧ ∃ slot, slotOf state names page parse e.1 = .ok slot ∧
        slot < slotCount state names page parse ps ∧ e.2 = (base + slot * ps, ps) := by
  have hall := (mapM_eq_ok _).mp h
  have hentry : ∀ n e, (do
      let slot ← localPackedSlotForFamilyLayer state (parse n) (familyIndices names page parse ps)
      if slot < physSlotsForLayerFamily (familyIndices names page parse ps) state.totalLayers state.shardSize then
        return (n, base + slot * ps, ps)
      else throw "DSA layer-split slot out of range" : Except String (Name × Nat × Nat)) = .ok e →
      e.1 = n ∧ ∃ slot, localPackedSlotForFamilyLayer state (parse n) (familyIndices names page parse ps) = .ok slot ∧
        slot < slotCount state names page parse ps ∧ e.2 = (base + slot * ps, ps) := by
    intro n e he
    obtain ⟨slot, hs, he⟩ := bind_eq_ok.mp he
    split at he
    · rename_i hlt
      cases he
      exact ⟨rfl, slot, hs, hlt, rfl⟩
    · cases he
  refine ⟨fun n hn hp => ?_, fun e he => ?_⟩
  · obtain ⟨e, he, hr⟩ := forall₂_mem_left hall (a := n) (List.mem_filter.mpr ⟨hn, by simpa using hp⟩)
    exact ⟨e, he, (hentry n e hr).1⟩
  · obtain ⟨n, hn, hr⟩ := forall₂_mem_right hall he
    obtain ⟨hmem, hp⟩ := List.mem_filter.mp hn
    have hp : page n = ps := by simpa using hp
    obtain ⟨he₁, slot, hs, hlt, he₂⟩ := hentry n e hr
    subst hp
    rw [he₁]
    exact ⟨hmem, rfl, slot, hs, hlt, he₂⟩

omit [DecidableEq Name] in
theorem layerOffsets_spec : ∀ {pss : List Nat} {base : Nat} {offs : List (Name × Nat × Nat)}, pss.Nodup →
    layerOffsets state names page parse base pss = .ok offs →
    (∀ n ∈ names, page n ∈ pss → ∃ e ∈ offs, e.1 = n) ∧
      ∀ e ∈ offs, OffsetEntry state names page parse base pss e
  | [], base, offs, _, h => by
    cases h
    exact ⟨nofun, nofun⟩
  | ps :: pss, base, offs, hnd, h => by
    obtain ⟨hnot, hnd⟩ := List.nodup_cons.mp hnd
    obtain ⟨here, hh, h⟩ := bind_eq_ok.mp h
    obtain ⟨more, hm, h⟩ := bind_eq_ok.mp h
    cases h
    obtain ⟨hc₁, hs₁⟩ := familyOffsets_spec hh
    obtain ⟨hc₂, hs₂⟩ := layerOffsets_spec hnd hm
    refine ⟨fun n hn hp => ?_, fun e he => ?_⟩
    · rcases List.mem_cons.mp hp with hp | hp
      · obtain ⟨e, he, h⟩ := hc₁ n hn hp
        exact ⟨e, List.mem_append_left _ he, h⟩
      · obtain ⟨e, he, h⟩ := hc₂ n hn hp
        exact ⟨e, List.mem_append_right _ he, h⟩
    · rcases List.mem_append.mp he with he | he
      · obtain ⟨hn, hp, slot, hs, hlt, he⟩ := hs₁ e he
        refine ⟨hn, by simp [hp], slot, hs, by rwa [hp], ?_⟩
        rw [he, hp, Packing.slotStart, Packing.base_cons_self, Nat.zero_add]
        rfl
      · obtain ⟨hn, hp, slot, hs, hlt, he⟩ := hs₂ e he
        refine ⟨hn, List.mem_cons_of_mem _ hp, slot, hs, hlt, ?_⟩
        have hne : ps ≠ page e.1 := fun h => hnot (h ▸ hp)
        rw [he, Packing.slotStart, Packing.slotStart, Packing.base_cons_of_ne _ _ hne]
        simp only [slotCount, familySlots, id]
        rw [Nat.add_assoc, Nat.add_assoc]

/-! ## A remap that rewrites the offsets -/

/-- What a remap returning `True` did. -/
structure Remapped (state : LayerSplitState) (cfg cfg' : KVCacheConfig Name) (page : Name → Nat)
    (parse : Name → Int) (offs : List (Name × Nat × Nat)) (stride : Nat) : Prop where
  head_stride : (packedTensors cfg.kvCacheTensors).head?.map (·.blockStride) = some stride
  payload_le : Packing.total id (slotCount state (packedNames cfg.kvCacheTensors) page parse)
    (pageSizesOf (packedNames cfg.kvCacheTensors) page) ≤ stride
  complete : ∀ n ∈ packedNames cfg.kvCacheTensors, ∃ e ∈ offs, e.1 = n
  entries : ∀ e ∈ offs, OffsetEntry state (packedNames cfg.kvCacheTensors) page parse 0
    (pageSizesOf (packedNames cfg.kvCacheTensors) page) e
  tensors : List.Forall₂ (fun t t' => remapTensor (layerPageSizes cfg.kvCacheGroups) offs stride t = .ok t')
    cfg.kvCacheTensors cfg'.kvCacheTensors

omit [DecidableEq Name] in
theorem mem_pageSizesOf {names : List Name} {page : Name → Nat} {ps : Nat} :
    ps ∈ pageSizesOf names page ↔ ∃ n ∈ names, page n = ps := by
  rw [pageSizesOf, List.mem_insertionSort, List.mem_dedup, List.mem_map]

omit [DecidableEq Name] in
theorem nodup_pageSizesOf (names : List Name) (page : Name → Nat) : (pageSizesOf names page).Nodup :=
  (List.perm_insertionSort _ _).nodup_iff.mpr (List.nodup_dedup _)

omit [DecidableEq Name] in
theorem le_align (payload : Nat) (groups : List (KVCacheGroup Name)) :
    payload ≤ alignPackedBlockStride payload groups := by
  unfold alignPackedBlockStride
  dsimp only
  split
  · rename_i h
    generalize (List.foldl _ 1 _) = align at h ⊢
    have h₁ := Nat.div_add_mod (payload + align - 1) align
    have h₂ := Nat.mod_lt (payload + align - 1) (Nat.lt_trans Nat.zero_lt_one h.1)
    rw [Nat.mul_comm] at h₁
    omega
  · exact le_refl payload

omit [DecidableEq Name] in
theorem sum_eq_total {names : List Name} {page : Name → Nat} (pss : List Nat) :
    (pss.map fun ps => ps * physSlotsForLayerFamily (familyIndices names page parse ps) state.totalLayers
      state.shardSize).sum = Packing.total id (slotCount state names page parse) pss := by
  rw [Packing.total]
  congr 1
  exact List.map_congr_left fun ps _ => Nat.mul_comm _ _

theorem remapResolved_true {state : LayerSplitState} {cfg cfg' : KVCacheConfig Name} {page : Name → Nat}
    {parse : Name → Int} (h : remapResolved state cfg page parse = .ok (true, cfg')) :
    ∃ offs stride, Remapped state cfg cfg' page parse offs stride := by
  unfold remapResolved at h
  dsimp only at h
  split at h
  · cases h
  · split at h
    · cases h
    · rename_i hstride
      obtain ⟨offs, ho, h⟩ := bind_eq_ok.mp h
      obtain ⟨tensors, ht, h⟩ := bind_eq_ok.mp h
      cases h
      obtain ⟨hc, hs⟩ := layerOffsets_spec (nodup_pageSizesOf _ _) ho
      refine ⟨offs, _, not_not.mp hstride, ?_, fun n hn => hc n hn (mem_pageSizesOf.mpr ⟨n, hn, rfl⟩), hs,
        (mapM_eq_ok _).mp ht⟩
      rw [← sum_eq_total]
      exact le_align _ _

theorem Remapped.stride_pos {state : LayerSplitState} {cfg cfg' : KVCacheConfig Name}
    {page : Name → Nat} {parse : Name → Int} {offs : List (Name × Nat × Nat)} {stride : Nat}
    (h : Remapped state cfg cfg' page parse offs stride) : 0 < stride := by
  obtain ⟨t, ht, he⟩ := Option.map_eq_some_iff.mp h.head_stride
  rw [← he]
  simpa [packedTensors] using (List.mem_filter.mp (List.mem_of_head? ht)).2

end

/-! ## Byte ranges -/

section
variable (state : LayerSplitState) (names : List Name) (page : Name → Nat) (parse : Name → Int)

/-- The bytes of a layer in one block, as the runner binds it. -/
def layerRange (tensors : List (KVCacheTensor Name)) (page : Name → Nat) (n : Name) : Set Nat :=
  match layerPacking tensors n with
  | none => ∅
  | some (offset, _) => Set.Ico offset (offset + page n)

def hasScratch (ps : Nat) : Prop := backboneOf state.totalLayers (familyIndices names page parse ps) ≠ []

/-- The scratch slot of the family of page size `ps`. -/
def scratchRange (ps : Nat) : Set Nat :=
  Packing.slotRange id (slotCount state names page parse) (pageSizesOf names page) ps
    (scratchSlot state (familyIndices names page parse ps))

/-- The layout of one block after a remap: the layers kept on the rank and the scratch slots share
no byte, everything lies in the block, and the other layers are in the scratch of their family. -/
structure RemapSafe (tensors : List (KVCacheTensor Name)) : Prop where
  disjoint : ∀ n ∈ names, ∀ n' ∈ names, n ≠ n' → state.isOwned (parse n) = true →
    state.isOwned (parse n') = true → Disjoint (layerRange tensors page n) (layerRange tensors page n')
  scratchDisjoint : ∀ n ∈ names, state.isOwned (parse n) = true → ∀ ps ∈ pageSizesOf names page,
    hasScratch state names page parse ps →
    Disjoint (layerRange tensors page n) (scratchRange state names page parse ps)
  inBlock : ∃ blockStride, (∀ n ∈ names, ∃ offset, layerPacking tensors n = some (offset, blockStride) ∧
      offset + page n ≤ blockStride) ∧
    ∀ ps ∈ pageSizesOf names page, hasScratch state names page parse ps →
      scratchRange state names page parse ps ⊆ Set.Iio blockStride
  scratchShared : ∀ n ∈ names, state.isOwned (parse n) = false →
    layerRange tensors page n = scratchRange state names page parse (page n)

/-- Every layer kept on the rank is the first layer of the tensor that binds it, every other layer
is bound through another one of its family, and no two layers kept on the rank share page size and
layer index. -/
structure Addressable (tensors : List (KVCacheTensor Name)) : Prop where
  ownedFirst : ∀ n ∈ names, state.isOwned (parse n) = true → primaryOf tensors n = some n
  scratchFirst : ∀ n ∈ names, state.isOwned (parse n) = false → ∀ p, primaryOf tensors n = some p →
    state.isOwned (parse p) = false ∧ page p = page n
  distinct : ∀ n ∈ names, ∀ n' ∈ names, n ≠ n' → state.isOwned (parse n) = true →
    state.isOwned (parse n') = true → page n = page n' → parse n ≠ parse n'

end

section
variable {state : LayerSplitState} {cfg cfg' : KVCacheConfig Name} {page : Name → Nat} {parse : Name → Int}
  {offs : List (Name × Nat × Nat)} {stride : Nat}

theorem remapTensor_spec {layerPs : Name → Option Nat} {t t' : KVCacheTensor Name}
    (h : remapTensor layerPs offs stride t = .ok t') :
    t'.layerNames = t.layerNames ∧ (t.blockStride = 0 → t' = t) ∧
      (t.blockStride ≠ 0 → t'.blockStride = stride ∧ ∃ p, t.layerNames.head? = some p ∧
        ∀ e, offs.find? (fun e => e.1 == p) = some e → t'.offset = e.2.1) := by
  unfold remapTensor at h
  split at h
  · rename_i hs
    cases h
    exact ⟨rfl, fun _ => rfl, fun hn => absurd hs hn⟩
  · rename_i hs
    split at h
    · cases h
    · rename_i p rest hnames
      have hhead : t.layerNames.head? = some p := by rw [hnames]; rfl
      dsimp only at h
      cases hf : offs.find? fun e => e.1 == p with
      | none =>
        rw [hf] at h
        dsimp only at h
        generalize (if t.layerStride ≠ 0 then t.layerStride else (layerPs p).getD 0) = ps at h
        split at h
        · cases h
        · cases h
          refine ⟨rfl, fun h0 => absurd h0 hs, fun _ => ⟨rfl, p, hhead, fun e he => ?_⟩⟩
          rw [hf] at he
          cases he
      | some e =>
        rw [hf] at h
        dsimp only at h
        split at h
        · cases h
        · cases h
          refine ⟨rfl, fun h0 => absurd h0 hs, fun _ => ⟨rfl, p, hhead, fun e' he => ?_⟩⟩
          rw [hf] at he
          cases he
          rfl

theorem forall₂_find? {α β : Type} {R : α → β → Prop} (p : α → Bool) (q : β → Bool) {l : List α} {r : List β}
    (h : List.Forall₂ R l r) (hpq : ∀ a b, R a b → p a = q b) {a : α} (ha : l.find? p = some a) :
    ∃ b, r.find? q = some b ∧ R a b := by
  induction h with
  | nil => cases ha
  | @cons x y l r hxy _ ih =>
    have hq := hpq x y hxy
    rw [List.find?_cons] at ha ⊢
    cases hp : p x with
    | true =>
      rw [hp] at ha hq
      cases ha
      rw [← hq]
      exact ⟨y, rfl, hxy⟩
    | false =>
      rw [hp] at ha hq
      rw [← hq]
      exact ih ha

theorem Remapped.packing (h : Remapped state cfg cfg' page parse offs stride) {n : Name}
    (hn : n ∈ packedNames cfg.kvCacheTensors) :
    ∃ p ∈ packedNames cfg.kvCacheTensors, primaryOf cfg.kvCacheTensors n = some p ∧
      ∃ slot, slotOf state (packedNames cfg.kvCacheTensors) page parse p = .ok slot ∧
        slot < slotCount state (packedNames cfg.kvCacheTensors) page parse (page p) ∧
        layerPacking cfg'.kvCacheTensors n = some (Packing.slotStart id
          (slotCount state (packedNames cfg.kvCacheTensors) page parse)
          (pageSizesOf (packedNames cfg.kvCacheTensors) page) (page p) slot, stride) := by
  obtain ⟨t, ht, hmem, hnt⟩ := boundTensor_of_mem hn
  have hrel : List.Forall₂ (fun t t' => remapTensor (layerPageSizes cfg.kvCacheGroups) offs stride t = .ok t')
      (packedTensors cfg.kvCacheTensors).reverse (packedTensors cfg'.kvCacheTensors).reverse := by
    rw [List.forall₂_reverse_iff]
    refine List.rel_filter (fun t t' hr => ?_) h.tensors
    obtain ⟨_, h₀, h₁⟩ := remapTensor_spec hr
    by_cases hs : t.blockStride = 0
    · rw [h₀ hs]
    · simp [(h₁ hs).1, Nat.pos_of_ne_zero hs, h.stride_pos]
  obtain ⟨t', ht', hr⟩ := forall₂_find? (fun t : KVCacheTensor Name => decide (n ∈ t.layerNames))
    (fun t : KVCacheTensor Name => decide (n ∈ t.layerNames)) hrel
    (fun t t' hr => by rw [(remapTensor_spec hr).1]) ht
  obtain ⟨_, _, h₁⟩ := remapTensor_spec hr
  have hs : t.blockStride ≠ 0 := by
    have := (List.mem_filter.mp hmem).2
    simp only [decide_eq_true_eq] at this
    omega
  obtain ⟨hstride, p, hp, hoff⟩ := h₁ hs
  have hpn : p ∈ packedNames cfg.kvCacheTensors :=
    mem_firstSeen.mpr (List.mem_flatMap.mpr ⟨t, hmem, List.mem_of_head? hp⟩)
  refine ⟨p, hpn, by rw [primaryOf, ht, Option.bind_some, hp], ?_⟩
  obtain ⟨e, he, hep⟩ := h.complete p hpn
  obtain ⟨e', he'⟩ : ∃ e', offs.find? (fun e => e.1 == p) = some e' := by
    rw [← Option.isSome_iff_exists, List.find?_isSome]
    exact ⟨e, he, by simp [hep]⟩
  have hep' : e'.1 = p := by simpa using List.find?_some he'
  obtain ⟨_, _, slot, hslot, hlt, heq⟩ := h.entries e' (List.mem_of_find?_eq_some he')
  rw [hep'] at hslot hlt heq
  refine ⟨slot, hslot, hlt, ?_⟩
  rw [layerPacking_eq, boundTensor, ht', Option.map_some, hstride, hoff e' he', heq, Nat.zero_add]

/-! ## Safety of a remap -/

theorem foldl_induction {α β : Type} {P : β → Prop} {f : β → α → β} (hf : ∀ b a, P b → P (f b a)) :
    ∀ (l : List α) (b : β), P b → P (l.foldl f b)
  | [], _, h => h
  | a :: l, b, h => foldl_induction hf l (f b a) (hf b a h)

theorem layerPageSizes_pos (groups : List (KVCacheGroup Name)) :
    ∀ n ps, layerPageSizes groups n = some ps → 0 < ps := by
  have hup : ∀ (m : Name → Option Nat) (n : Name) (v : Nat), 0 < v → (∀ n ps, m n = some ps → 0 < ps) →
      ∀ n' ps, Function.update m n (some v) n' = some ps → 0 < ps := by
    intro m n v hv hm n' ps h
    by_cases he : n' = n
    · subst he
      rw [Function.update_self] at h
      cases h
      exact hv
    · rw [Function.update_of_ne he] at h
      exact hm n' ps h
  unfold layerPageSizes
  refine foldl_induction (P := fun m : Name → Option Nat => ∀ n ps, m n = some ps → 0 < ps)
    (fun m g hm => ?_) groups _ fun n ps h => by cases h
  refine foldl_induction (P := fun m : Name → Option Nat => ∀ n ps, m n = some ps → 0 < ps)
    (fun m n hm => ?_) _ _ ?_
  · split
    · exact hm
    · exact hup m n _ g.kvCacheSpec.pageSize_pos hm
  · exact foldl_induction (P := fun m : Name → Option Nat => ∀ n ps, m n = some ps → 0 < ps)
      (fun m e hm => hup m e.1 _ e.2.pageSize_pos hm) _ _ hm

theorem pageSize_pos {n : Name} {ps : Nat} (h : cfg.pageSize n = some ps) : 0 < ps := by
  unfold KVCacheConfig.pageSize at h
  split at h
  · rename_i hl
    cases h
    exact layerPageSizes_pos _ _ _ hl
  · unfold inferPageSizeFromPacked at h
    split at h
    · cases h
    · dsimp only at h
      split at h
      · cases h
      · split at h
        · rename_i hg
          cases h
          exact hg
        · cases h

/-- The range of a layer is the slot of the first layer of its tensor, as wide as its own page. -/
theorem Remapped.range (h : Remapped state cfg cfg' page parse offs stride) {n : Name}
    (hn : n ∈ packedNames cfg.kvCacheTensors) :
    ∃ p ∈ packedNames cfg.kvCacheTensors, primaryOf cfg.kvCacheTensors n = some p ∧
      ∃ slot, slotOf state (packedNames cfg.kvCacheTensors) page parse p = .ok slot ∧
        slot < slotCount state (packedNames cfg.kvCacheTensors) page parse (page p) ∧
        layerRange cfg'.kvCacheTensors page n = Set.Ico
          (Packing.slotStart id (slotCount state (packedNames cfg.kvCacheTensors) page parse)
            (pageSizesOf (packedNames cfg.kvCacheTensors) page) (page p) slot)
          (Packing.slotStart id (slotCount state (packedNames cfg.kvCacheTensors) page parse)
            (pageSizesOf (packedNames cfg.kvCacheTensors) page) (page p) slot + page n) := by
  obtain ⟨p, hp, hprim, slot, hs, hlt, hpack⟩ := h.packing hn
  refine ⟨p, hp, hprim, slot, hs, hlt, ?_⟩
  rw [layerRange, hpack]

omit [DecidableEq Name] in
theorem page_mem {names : List Name} {n : Name} (hn : n ∈ names) : page n ∈ pageSizesOf names page :=
  mem_pageSizesOf.mpr ⟨n, hn, rfl⟩

theorem Remapped.own_range (h : Remapped state cfg cfg' page parse offs stride) {n : Name}
    (hn : n ∈ packedNames cfg.kvCacheTensors) (hself : primaryOf cfg.kvCacheTensors n = some n) :
    ∃ slot, SlotSpec state (familyIndices (packedNames cfg.kvCacheTensors) page parse (page n)) (parse n) slot ∧
      slot < slotCount state (packedNames cfg.kvCacheTensors) page parse (page n) ∧
      layerRange cfg'.kvCacheTensors page n = Packing.slotRange id
        (slotCount state (packedNames cfg.kvCacheTensors) page parse)
        (pageSizesOf (packedNames cfg.kvCacheTensors) page) (page n) slot := by
  obtain ⟨p, _, hprim, slot, hs, hlt, hr⟩ := h.range hn
  cases hself.symm.trans hprim
  exact ⟨slot, slot_spec hs, hlt, hr⟩

theorem Remapped.safe (h : Remapped state cfg cfg' page parse offs stride)
    (ha : Addressable state (packedNames cfg.kvCacheTensors) page parse cfg.kvCacheTensors) :
    RemapSafe state (packedNames cfg.kvCacheTensors) page parse cfg'.kvCacheTensors := by
  refine ⟨?_, ?_, ?_, ?_⟩
  · intro n hn n' hn' hne ho ho'
    obtain ⟨slot, hs, hlt, hr⟩ := h.own_range hn (ha.ownedFirst n hn ho)
    obtain ⟨slot', hs', hlt', hr'⟩ := h.own_range hn' (ha.ownedFirst n' hn' ho')
    rw [hr, hr']
    refine Packing.slotRange_disjoint (page_mem hn) (page_mem hn') hlt hlt' fun he => ?_
    obtain ⟨hp, hsl⟩ := Prod.mk.inj he
    subst hsl
    rw [← hp] at hs'
    exact ha.distinct n hn n' hn' hne ho ho' hp (hs.inj hs' ho ho')
  · intro n hn ho ps hps hb
    obtain ⟨slot, hs, hlt, hr⟩ := h.own_range hn (ha.ownedFirst n hn ho)
    rw [hr]
    refine Packing.slotRange_disjoint (page_mem hn) hps hlt (scratchSlot_lt hb) fun he => ?_
    obtain ⟨hp, hsl⟩ := Prod.mk.inj he
    subst hp
    exact hs.ne_scratch ho hb hsl
  · refine ⟨stride, fun n hn => ?_, fun ps hps hb x hx => ?_⟩
    · obtain ⟨p, hp, hprim, slot, hs, hlt, hpack⟩ := h.packing hn
      refine ⟨_, hpack, ?_⟩
      have hend : Packing.slotStart id _ _ (page p) slot + id (page p) ≤ _ :=
        Packing.slot_end_le hlt (page_mem hp)
      have hpage : page p = page n := by
        cases ho : state.isOwned (parse n) with
        | true => cases (ha.ownedFirst n hn ho).symm.trans hprim; rfl
        | false => exact (ha.scratchFirst n hn ho p hprim).2
      have := h.payload_le
      simp only [id] at hend
      omega
    · have hlt : scratchSlot state (familyIndices (packedNames cfg.kvCacheTensors) page parse ps) <
          slotCount state (packedNames cfg.kvCacheTensors) page parse ps := scratchSlot_lt hb
      exact lt_of_lt_of_le hx.2 (le_trans (Packing.slot_end_le hlt hps) h.payload_le)
  · intro n hn ho
    obtain ⟨p, hp, hprim, slot, hs, hlt, hr⟩ := h.range hn
    obtain ⟨hop, hpp⟩ := ha.scratchFirst n hn ho p hprim
    rw [hr, hpp, scratchRange, Packing.slotRange]
    have hspec := slot_spec hs
    rw [hpp] at hspec
    rw [(hspec.of_not_owned hop).2]
    rfl

theorem start_eq_of_Ico_eq {a b w w' : Nat} (hw : 0 < w) (hw' : 0 < w')
    (h : Set.Ico a (a + w) = Set.Ico b (b + w')) : a = b := by
  have ha : a ∈ Set.Ico b (b + w') := h ▸ Set.left_mem_Ico.mpr (by omega)
  have hb : b ∈ Set.Ico a (a + w) := h ▸ Set.left_mem_Ico.mpr (by omega)
  exact le_antisymm hb.1 ha.1

theorem Remapped.addressable (h : Remapped state cfg cfg' page parse offs stride)
    (hpos : ∀ n ∈ packedNames cfg.kvCacheTensors, 0 < page n)
    (hs : RemapSafe state (packedNames cfg.kvCacheTensors) page parse cfg'.kvCacheTensors) :
    Addressable state (packedNames cfg.kvCacheTensors) page parse cfg.kvCacheTensors := by
  have hstart : ∀ {a b : Nat}, 0 < b → a ∈ Set.Ico a (a + b) := fun hb => ⟨le_refl _, by omega⟩
  have hfirst : ∀ {n p}, (n ∈ packedNames cfg.kvCacheTensors ∧ state.isOwned (parse n) = true) →
      primaryOf cfg.kvCacheTensors n = some p → p = n := by
    refine primary_induction
      (P := fun n => n ∈ packedNames cfg.kvCacheTensors ∧ state.isOwned (parse n) = true) fun n hn p hprim hne => ?_
    obtain ⟨hn, ho⟩ := hn
    obtain ⟨p', hp, hprim', slot, hslot, hlt, hr⟩ := h.range hn
    cases hprim.symm.trans hprim'
    by_cases hop : state.isOwned (parse p) = true
    · refine ⟨⟨hp, hop⟩, fun hself => ?_⟩
      -- two layers kept on the rank start at one byte
      obtain ⟨p'', _, hprim'', slot', hslot', _, hr'⟩ := h.range hp
      cases hself.symm.trans hprim''
      cases hslot.symm.trans hslot'
      have hdisj := hs.disjoint n hn p hp (Ne.symm hne) ho hop
      rw [hr, hr'] at hdisj
      exact Set.disjoint_left.mp hdisj (hstart (hpos n hn)) (hstart (hpos p hp))
    · -- a layer kept on the rank starts at a scratch slot
      obtain ⟨hb, hsl⟩ := (slot_spec hslot).of_not_owned (by simpa using hop)
      have hdisj := hs.scratchDisjoint n hn ho (page p) (page_mem hp) hb
      rw [hr, hsl, scratchRange, Packing.slotRange] at hdisj
      exact absurd (hstart (hpos p hp)) (Set.disjoint_left.mp hdisj (hstart (hpos n hn)))
  have howned : ∀ n ∈ packedNames cfg.kvCacheTensors, state.isOwned (parse n) = true →
      primaryOf cfg.kvCacheTensors n = some n := by
    intro n hn ho
    obtain ⟨p, _, hprim, _⟩ := h.range hn
    rw [hprim, hfirst ⟨hn, ho⟩ hprim]
  refine ⟨howned, ?_, ?_⟩
  · intro n hn ho p hprim
    obtain ⟨p', hp, hprim', slot, hslot, hlt, hr⟩ := h.range hn
    cases hprim.symm.trans hprim'
    have hshared := hs.scratchShared n hn ho
    have hscr : hasScratch state (packedNames cfg.kvCacheTensors) page parse (page n) := by
      refine List.ne_nil_of_mem (mem_backboneOf.mpr ⟨?_, covers_of_not_owned ho⟩)
      exact List.mem_map.mpr ⟨n, List.mem_filter.mpr ⟨hn, by simp⟩, rfl⟩
    rw [hr, scratchRange, Packing.slotRange] at hshared
    obtain ⟨hpp, hsl⟩ := Packing.slotStart_inj (page_mem hp) (page_mem hn) hlt (scratchSlot_lt hscr)
      (hpos p hp) (hpos n hn) (start_eq_of_Ico_eq (hpos n hn) (hpos n hn) hshared)
    refine ⟨?_, hpp⟩
    by_contra hop
    have hspec := slot_spec hslot
    rw [hpp] at hspec
    exact hspec.ne_scratch (by simpa using hop) hscr hsl
  · intro n hn n' hn' hne ho ho' hpage hidx
    obtain ⟨p, _, hprim, slot, hslot, _, hr⟩ := h.range hn
    obtain ⟨p', _, hprim', slot', hslot', _, hr'⟩ := h.range hn'
    cases (howned n hn ho).symm.trans hprim
    cases (howned n' hn' ho').symm.trans hprim'
    have hsame : slotOf state (packedNames cfg.kvCacheTensors) page parse n =
        slotOf state (packedNames cfg.kvCacheTensors) page parse n' := by rw [slotOf, slotOf, hidx, hpage]
    cases hslot.symm.trans (hsame.trans hslot')
    have hdisj := hs.disjoint n hn n' hn' hne ho ho'
    rw [hr, hr', hpage] at hdisj
    exact Set.disjoint_left.mp hdisj (hstart (hpos n' hn')) (hstart (hpos n' hn'))

/-- A remap that returns `True` lays one block out safely exactly when the tensors name the layers
the way the remap addresses them. -/
theorem remap_safe_iff_addressable (state : LayerSplitState) (parseLayerIndex : Name → Option Int)
    (cfg cfg' : KVCacheConfig Name)
    (h : remapPackedKvTensorOffsets (some state) parseLayerIndex cfg = .ok (true, cfg')) :
    RemapSafe state (packedNames cfg.kvCacheTensors) (fun n => (cfg.pageSize n).getD 0)
        (fun n => (parseLayerIndex n).getD 0) cfg'.kvCacheTensors ↔
      Addressable state (packedNames cfg.kvCacheTensors) (fun n => (cfg.pageSize n).getD 0)
        (fun n => (parseLayerIndex n).getD 0) cfg.kvCacheTensors := by
  unfold remapPackedKvTensorOffsets at h
  dsimp only at h
  split at h
  · cases h
  · split at h
    · cases h
    · split at h
      · cases h
      · rename_i hpages
        split at h
        · cases h
        · obtain ⟨offs, stride, hr⟩ := remapResolved_true h
          refine ⟨hr.addressable fun n hn => ?_, hr.safe⟩
          cases hp : cfg.pageSize n with
          | none => exact absurd ⟨n, hn, hp⟩ hpages
          | some ps => exact pageSize_pos hp

end

end

/-! ## Two caches of one layer -/

/-- Rank 0 of two ranks over four backbone layers. -/
def rankZero : LayerSplitState := ⟨0, 2, 4, by decide, by decide⟩

/-- One packed tensor per layer, all of one page size, in blocks of `stride` bytes. -/
def onePageConfig (names : List Nat) (pageSize stride : Nat) (h : 0 < pageSize) : KVCacheConfig Nat where
  kvCacheTensors := names.map fun n => { size := stride, layerNames := [n], blockStride := stride }
  kvCacheGroups := [{ layerNames := names, kvCacheSpec := { pageSizeBytes := pageSize, pageSize_pos := h } }]

/-- The last digit of a name is its layer. -/
def lastDigit (n : Nat) : Option Int := some (n % 10 : Nat)

/-- The new tensors of a remap that returns `True`. -/
def remappedTensors (state : LayerSplitState) (cfg : KVCacheConfig Nat) : Option (List (KVCacheTensor Nat)) :=
  match remapPackedKvTensorOffsets (some state) lastDigit cfg with
  | .ok (true, cfg') => some cfg'.kvCacheTensors
  | _ => none

theorem remap_of_remappedTensors {state : LayerSplitState} {cfg : KVCacheConfig Nat} {ts : List (KVCacheTensor Nat)}
    (h : remappedTensors state cfg = some ts) :
    ∃ cfg', remapPackedKvTensorOffsets (some state) lastDigit cfg = .ok (true, cfg') ∧ cfg'.kvCacheTensors = ts := by
  unfold remappedTensors at h
  split at h
  · rename_i cfg' he
    cases h
    exact ⟨cfg', he, rfl⟩
  · cases h

/-- Layers 0 to 3 and a draft layer 4. -/
def draftConfig : KVCacheConfig Nat := onePageConfig [0, 1, 2, 3, 4] 8 32 (by decide)

theorem remap_safe_draft_layer :
    ∃ cfg', remapPackedKvTensorOffsets (some rankZero) lastDigit draftConfig = .ok (true, cfg') ∧
      RemapSafe rankZero (packedNames draftConfig.kvCacheTensors) (fun n => (draftConfig.pageSize n).getD 0)
        (fun n => (lastDigit n).getD 0) cfg'.kvCacheTensors := by
  obtain ⟨ts, hts⟩ : ∃ ts, remappedTensors rankZero draftConfig = some ts :=
    Option.isSome_iff_exists.mp (by decide +kernel)
  obtain ⟨cfg', hcfg, _⟩ := remap_of_remappedTensors hts
  refine ⟨cfg', hcfg, (remap_safe_iff_addressable rankZero lastDigit draftConfig cfg' hcfg).mpr ?_⟩
  have hself : ∀ n ∈ packedNames draftConfig.kvCacheTensors, primaryOf draftConfig.kvCacheTensors n = some n := by
    decide +kernel
  refine ⟨fun n hn _ => hself n hn, fun n hn ho p hp => ?_, by decide +kernel⟩
  cases (hself n hn).symm.trans hp
  exact ⟨ho, rfl⟩

/-- Name 10 is a second cache of layer 0, with the page size of the first. -/
def twoCachesConfig : KVCacheConfig Nat := onePageConfig [0, 1, 2, 3, 10] 8 24 (by decide)

theorem remap_aliases_second_cache :
    ∃ cfg', remapPackedKvTensorOffsets (some rankZero) lastDigit twoCachesConfig = .ok (true, cfg') ∧
      ¬ RemapSafe rankZero (packedNames twoCachesConfig.kvCacheTensors) (fun n => (twoCachesConfig.pageSize n).getD 0)
        (fun n => (lastDigit n).getD 0) cfg'.kvCacheTensors := by
  obtain ⟨ts, hts⟩ : ∃ ts, remappedTensors rankZero twoCachesConfig = some ts :=
    Option.isSome_iff_exists.mp (by decide +kernel)
  have hoff : ∀ n ∈ [0, 10], (remappedTensors rankZero twoCachesConfig).bind (layerPacking · n) = some (0, 24) := by
    decide +kernel
  have hpage : ∀ n ∈ [0, 10], (twoCachesConfig.pageSize n).getD 0 = 8 := by decide +kernel
  obtain ⟨cfg', hcfg, hts'⟩ := remap_of_remappedTensors hts
  refine ⟨cfg', hcfg, fun h => ?_⟩
  have hdisj := h.disjoint 0 (by decide +kernel) 10 (by decide +kernel) (by decide) (by decide) (by decide)
  -- both names start at byte 0
  have hmem : ∀ n ∈ [0, 10], 0 ∈ layerRange cfg'.kvCacheTensors (fun n => (twoCachesConfig.pageSize n).getD 0) n := by
    intro n hn
    have hp := hoff n hn
    rw [hts, Option.bind_some] at hp
    rw [layerRange, hts', hp]
    exact Set.left_mem_Ico.mpr (by rw [hpage n hn]; decide)
  exact Set.disjoint_left.mp hdisj (hmem 0 (by decide)) (hmem 10 (by decide))

end VllmHcu.Dsa
