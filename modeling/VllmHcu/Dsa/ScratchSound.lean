import Mathlib.Algebra.BigOperators.Ring.List
import Mathlib.Algebra.Order.BigOperators.Group.List
import VllmHcu.Dsa.BudgetSound

/-!
# The scratch stays within its reservation

Every buffer is at most as large as the largest cache that asked for it. Charge
a buffer to the pool that the planner reserved for that cache's page: no other
buffer of the same stream of broadcasts is charged to it.
-/

namespace VllmHcu.Dsa

theorem sum_le_of_charged {α β : Type*} {l : List α} {m : List β} (place : α → β) (cost : α → Nat) (price : β → Nat)
    (hinj : (l.map place).Nodup) (hmem : ∀ a ∈ l, place a ∈ m) (hle : ∀ a ∈ l, cost a ≤ price (place a)) :
    (l.map cost).sum ≤ (m.map price).sum := by
  have hsub : (l.map place).Subperm m := hinj.subperm fun b hb => by
    obtain ⟨a, ha, rfl⟩ := List.mem_map.mp hb
    exact hmem a ha
  obtain ⟨l', hperm, hsublist⟩ := hsub
  calc (l.map cost).sum ≤ (l.map fun a => price (place a)).sum := List.sum_le_sum hle
    _ = ((l.map place).map price).sum := by rw [List.map_map]; rfl
    _ = (l'.map price).sum := (hperm.map price).sum_eq.symm
    _ ≤ (m.map price).sum := (hsublist.map price).sum_le_sum fun _ _ => Nat.zero_le _

section
variable {Name : Type} (groups : List (KVCacheGroup Name))

/-- The specs that the layers of a configuration are bound with. -/
def IsLayerSpec (spec : KVCacheSpec) : Prop :=
  ∃ g ∈ groups, (g.kvCacheSpecs = [] ∧ g.layerNames ≠ [] ∧ spec = g.kvCacheSpec) ∨ ∃ n, (n, spec) ∈ g.kvCacheSpecs

/-- The cache of a layer has at most a page for each block; its dtype is that of the spec, where it has one. -/
structure ConfigCache (numBlocks : Nat) (elementSize : String → Nat) (undeclared device : String) (c : CacheTensor) :
    Prop where
  spec : ∃ spec, IsLayerSpec groups spec ∧ c.dtype = spec.dtype.getD undeclared ∧
    c.numel * elementSize c.dtype ≤ numBlocks * spec.pageSizeBytes
  device : c.device = device

/-- Block ids are distinct and below the block count. -/
def ScratchRequest.Valid : ScratchRequest → Prop
  | .full _ _ => True
  | .blocks _ cache blockIds => blockIds.Nodup ∧ ∀ i ∈ blockIds, i < cache.rows

/-! ## The reserved pools -/

def cacheSpecs : List KVCacheSpec :=
  groups.flatMap fun g => if g.kvCacheSpecs = [] then [g.kvCacheSpec] else g.kvCacheSpecs.map (·.2)

/-- The reserved pool of a spec: its dtype, or its page where it has none. -/
def poolKey (spec : KVCacheSpec) : Option String × Nat :=
  match spec.dtype with
  | none => (none, spec.pageSizeBytes)
  | some d => (some d, 0)

def reservedPools (pageSizes : List Nat) : List ((Option String × Nat) × Nat) :=
  pageSizes.flatMap fun page =>
    let dtypes := (((cacheSpecs groups).filter fun s => s.pageSizeBytes == page).map (·.dtype)).dedup
    (if dtypes = [] then [none] else dtypes).map fun
      | none => ((none, page), page)
      | some d => ((some d, 0), page)

def poolPrice (pools : List ((Option String × Nat) × Nat)) (key : Option String × Nat) : Nat :=
  ((pools.filter fun p => p.1 == key).map (·.2)).foldl max 0

theorem bounceBytesPerBlock_eq (pageSizes : List Nat) : bounceBytesPerBlock groups pageSizes =
    2 * ((((reservedPools groups pageSizes).map (·.1)).dedup).map (poolPrice (reservedPools groups pageSizes))).sum := rfl

variable {groups}

theorem mem_cacheSpecs {spec : KVCacheSpec} (h : IsLayerSpec groups spec) : spec ∈ cacheSpecs groups := by
  obtain ⟨g, hg, h⟩ := h
  apply List.mem_flatMap.mpr
  refine ⟨g, hg, ?_⟩
  rcases h with ⟨hnil, -, rfl⟩ | ⟨n, hn⟩
  · simp [hnil]
  · rw [if_neg (List.ne_nil_of_mem hn)]
    exact List.mem_map.mpr ⟨_, hn, rfl⟩

theorem page_planned {spec : KVCacheSpec} (h : IsLayerSpec groups spec) : spec.pageSizeBytes ∈ plannedPageSizes groups := by
  obtain ⟨g, hg, h⟩ := h
  rcases h with ⟨hnil, hnames, rfl⟩ | ⟨n, hn⟩
  · obtain ⟨n, hn⟩ := List.exists_mem_of_ne_nil _ hnames
    apply mem_plannedPageSizes.mpr
    refine ⟨n, List.mem_flatMap.mpr ⟨g, hg, ?_⟩⟩
    rw [if_pos hnil]
    exact List.mem_map.mpr ⟨n, hn, rfl⟩
  · apply mem_plannedPageSizes.mpr
    refine ⟨n, List.mem_flatMap.mpr ⟨g, hg, ?_⟩⟩
    rw [if_neg (List.ne_nil_of_mem hn)]
    exact List.mem_map.mpr ⟨_, hn, rfl⟩

theorem mem_reservedPools {spec : KVCacheSpec} (h : IsLayerSpec groups spec) :
    (poolKey spec, spec.pageSizeBytes) ∈ reservedPools groups (plannedPageSizes groups) := by
  apply List.mem_flatMap.mpr
  refine ⟨_, page_planned h, ?_⟩
  have hdtype : spec.dtype ∈
      (((cacheSpecs groups).filter fun s => s.pageSizeBytes == spec.pageSizeBytes).map (·.dtype)).dedup := by
    rw [List.mem_dedup]
    exact List.mem_map.mpr ⟨spec, List.mem_filter.mpr ⟨mem_cacheSpecs h, beq_self_eq_true _⟩, rfl⟩
  dsimp only
  rw [if_neg (List.ne_nil_of_mem hdtype)]
  refine List.mem_map.mpr ⟨spec.dtype, hdtype, ?_⟩
  unfold poolKey
  cases spec.dtype with
  | none => rfl
  | some d => rfl

theorem page_le_price {spec : KVCacheSpec} (h : IsLayerSpec groups spec) :
    spec.pageSizeBytes ≤ poolPrice (reservedPools groups (plannedPageSizes groups)) (poolKey spec) := by
  apply (le_foldl_max id _ 0).2
  exact List.mem_map.mpr ⟨_, List.mem_filter.mpr ⟨mem_reservedPools h, beq_self_eq_true _⟩, rfl⟩

theorem dtype_of_poolKey {spec spec' : KVCacheSpec} (undeclared : String) (h : poolKey spec = poolKey spec') :
    spec.dtype.getD undeclared = spec'.dtype.getD undeclared := by
  unfold poolKey at h
  cases hd : spec.dtype with
  | none =>
    cases hd' : spec'.dtype with
    | none => rfl
    | some d' => simp [hd, hd'] at h
  | some d =>
    cases hd' : spec'.dtype with
    | none => simp [hd, hd'] at h
    | some d' =>
      simp only [hd, hd', Prod.mk.injEq, Option.some.injEq, and_true] at h
      rw [h]

/-! ## The buffers -/

section
variable {numBlocks : Nat} {elementSize : String → Nat} {undeclared device : String}

/-- One buffer for a key, each at most as large as some cache of the configuration. -/
structure ScratchInv (groups : List (KVCacheGroup Name)) (numBlocks : Nat) (elementSize : String → Nat)
    (undeclared device : String) (scratch : BroadcastScratch) : Prop where
  keys : (scratch.map Prod.fst).Nodup
  buffers : ∀ b ∈ scratch, ∃ c, ConfigCache groups numBlocks elementSize undeclared device c ∧
    b.1.2 = (c.device, c.dtype) ∧ b.2 ≤ c.numel

theorem ScratchInv.insert {scratch : BroadcastScratch} (h : ScratchInv groups numBlocks elementSize undeclared device scratch)
    {c : CacheTensor} (hc : ConfigCache groups numBlocks elementSize undeclared device c) (pool : Pool) {n : Nat}
    (hn : n ≤ c.numel) : ScratchInv groups numBlocks elementSize undeclared device
      (insertKey (pool, c.device, c.dtype) (max n c.numel) scratch) := by
  refine ⟨nodup_insertKey _ _ h.keys, fun b hb => ?_⟩
  rcases mem_insertKey hb with rfl | hb
  · exact ⟨c, hc, rfl, max_le hn (Nat.le_refl _)⟩
  · exact h.buffers b hb

theorem ScratchInv.scratchFor {scratch : BroadcastScratch}
    (h : ScratchInv groups numBlocks elementSize undeclared device scratch) {c : CacheTensor}
    (hc : ConfigCache groups numBlocks elementSize undeclared device c) (pool : Pool) {numel : Option Nat}
    (hn : numel.getD c.numel ≤ c.numel) :
    ScratchInv groups numBlocks elementSize undeclared device (scratchFor scratch c pool numel) := by
  unfold Dsa.scratchFor
  dsimp only
  split
  · split
    · exact h.insert hc pool hn
    · exact h
  · exact h.insert hc pool hn

theorem blocks_numel_le {c : CacheTensor} {blockIds : List Nat} (hnodup : blockIds.Nodup)
    (hlt : ∀ i ∈ blockIds, i < c.rows) : blockIds.length * c.rowNumel ≤ c.numel := by
  have hlen : blockIds.length ≤ (List.range c.rows).length :=
    (hnodup.subperm fun i hi => List.mem_range.mpr (hlt i hi)).length_le
  rw [List.length_range] at hlen
  exact Nat.mul_le_mul_right _ hlen

theorem ScratchInv.step {scratch : BroadcastScratch}
    (h : ScratchInv groups numBlocks elementSize undeclared device scratch) {r : ScratchRequest}
    (hc : ConfigCache groups numBlocks elementSize undeclared device r.cache) (hr : r.Valid) :
    ScratchInv groups numBlocks elementSize undeclared device (broadcastScratch scratch r) := by
  cases r with
  | full pool cache => exact h.scratchFor hc pool (Nat.le_refl _)
  | blocks pool cache blockIds => exact h.scratchFor hc pool (blocks_numel_le hr.1 hr.2)

theorem ScratchInv.run : ∀ {requests : List ScratchRequest} {scratch : BroadcastScratch},
    ScratchInv groups numBlocks elementSize undeclared device scratch →
    (∀ r ∈ requests, ConfigCache groups numBlocks elementSize undeclared device r.cache ∧ r.Valid) →
    ScratchInv groups numBlocks elementSize undeclared device (requests.foldl broadcastScratch scratch)
  | [], _, h, _ => h
  | r :: requests, scratch, h, hall => by
    obtain ⟨hc, hr⟩ := hall r List.mem_cons_self
    exact (h.step hc hr).run fun r' hr' => hall r' (List.mem_cons_of_mem _ hr')

def pools : List Pool := [.sync, .prefetch]

theorem mem_pools (p : Pool) : p ∈ pools := by
  cases p with
  | sync => exact List.mem_cons_self
  | prefetch => exact List.mem_cons_of_mem _ List.mem_cons_self

theorem ScratchInv.bytes_le {scratch : BroadcastScratch}
    (h : ScratchInv groups numBlocks elementSize undeclared device scratch) :
    scratchBytes elementSize scratch ≤ numBlocks * bounceBytesPerBlock groups (plannedPageSizes groups) := by
  have hkey : ∀ b, ∃ key : Pool × Option String × Nat, b ∈ scratch → ∃ spec, IsLayerSpec groups spec ∧
      key = (b.1.1, poolKey spec) ∧ b.1.2 = (device, spec.dtype.getD undeclared) ∧
      b.2 * elementSize b.1.2.2 ≤ numBlocks * spec.pageSizeBytes := by
    intro b
    by_cases hb : b ∈ scratch
    · obtain ⟨c, ⟨⟨spec, hspec, hdtype, hbytes⟩, hdevice⟩, hkey, hle⟩ := h.buffers b hb
      refine ⟨(b.1.1, poolKey spec), fun _ => ⟨spec, hspec, rfl, by rw [hkey, hdevice, hdtype], ?_⟩⟩
      rw [hkey]
      exact (Nat.mul_le_mul_right _ hle).trans hbytes
    · exact ⟨(.sync, none, 0), fun hmem => absurd hmem hb⟩
  choose place hplace using hkey
  have hinj : (scratch.map place).Nodup := by
    refine List.Nodup.map_on (fun b hb b' hb' heq => ?_) (h.keys.of_map _)
    obtain ⟨spec, -, hp, hb2, -⟩ := hplace b hb
    obtain ⟨spec', -, hp', hb2', -⟩ := hplace b' hb'
    rw [hp, hp', Prod.mk.injEq] at heq
    apply List.inj_on_of_nodup_map h.keys hb hb'
    refine Prod.ext heq.1 ?_
    rw [hb2, hb2', dtype_of_poolKey undeclared heq.2]
  refine (sum_le_of_charged (m := pools.product ((reservedPools groups (plannedPageSizes groups)).map (·.1)).dedup) place
    (fun b => b.2 * elementSize b.1.2.2)
    (fun key => numBlocks * poolPrice (reservedPools groups (plannedPageSizes groups)) key.2) hinj ?_ ?_).trans ?_
  · intro b hb
    obtain ⟨spec, hspec, hp, -, -⟩ := hplace b hb
    rw [hp]
    apply List.mem_product.mpr
    exact ⟨mem_pools _, List.mem_dedup.mpr (List.mem_map.mpr ⟨_, mem_reservedPools hspec, rfl⟩)⟩
  · intro b hb
    obtain ⟨spec, hspec, hp, -, hbytes⟩ := hplace b hb
    rw [hp]
    exact hbytes.trans (Nat.mul_le_mul_left _ (page_le_price hspec))
  · rw [bounceBytesPerBlock_eq]
    generalize ((reservedPools groups (plannedPageSizes groups)).map (·.1)).dedup = keys
    change ((pools.flatMap fun p => keys.map (Prod.mk p)).map _).sum ≤ _
    simp only [pools, List.flatMap_cons, List.flatMap_nil, List.append_nil, List.map_append, List.sum_append, List.map_map,
      Function.comp_def, List.sum_map_mul_left]
    exact Nat.le_of_eq (by ring)

/-- The bytes held never exceed what the planner reserved for the blocks of the pool. -/
theorem scratch_within_reservation {parse : Name → Option Int} {totalLayers pcp : Nat} {layout : ShrunkLayout}
    (hl : shrunkLayout parse totalLayers pcp groups = some layout) (requests : List ScratchRequest)
    (hrequests : ∀ r ∈ requests, ConfigCache groups numBlocks elementSize undeclared device r.cache ∧ r.Valid) :
    scratchBytes elementSize (requests.foldl broadcastScratch []) ≤ numBlocks * layout.bounceBytesPerBlock := by
  rw [(shrunkLayout_some hl).2.2.2.1]
  have hnil : ScratchInv groups numBlocks elementSize undeclared device [] := ⟨List.nodup_nil, nofun⟩
  exact (hnil.run hrequests).bytes_le

end

end

/-- The first broadcast of the whole cache of a layer, then of two blocks, on a pool of three blocks. -/
theorem scratch_within_reservation_draft_layer : ∃ layout, shrunkLayout lastDigit 4 2 draftConfig.kvCacheGroups = some layout ∧
    scratchBytes (fun _ => 1) ([.full .sync ⟨3, 8, "uint8", "hcu"⟩, .blocks .prefetch ⟨3, 8, "uint8", "hcu"⟩ [0, 2]].foldl
      broadcastScratch []) ≤ 3 * layout.bounceBytesPerBlock := by
  obtain ⟨layout, hl⟩ : ∃ layout, shrunkLayout lastDigit 4 2 draftConfig.kvCacheGroups = some layout :=
    Option.isSome_iff_exists.mp (by decide +kernel)
  have hcache : ConfigCache draftConfig.kvCacheGroups 3 (fun _ => 1) "uint8" "hcu" ⟨3, 8, "uint8", "hcu"⟩ := by
    refine ⟨⟨_, ⟨_, List.mem_cons_self, .inl ⟨rfl, by decide, rfl⟩⟩, rfl, by decide⟩, rfl⟩
  refine ⟨layout, hl, scratch_within_reservation hl _ fun r hr => (?_ : ConfigCache _ 3 _ "uint8" "hcu" r.cache ∧ r.Valid)⟩
  rcases List.mem_cons.mp hr with rfl | hr
  · exact ⟨hcache, trivial⟩
  · obtain rfl := List.mem_singleton.mp hr
    exact ⟨hcache, by decide, by decide⟩

end VllmHcu.Dsa
