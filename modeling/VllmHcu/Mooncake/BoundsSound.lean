import VllmHcu.Mooncake.TransferSound

/-!
# Descriptors stay in their regions

`descriptors_in_bounds`: with capacities on both sides, every descriptor of an
accepted pull reads and writes inside the registered blocks, one that is not
coalesced inside one block's payload, and no assertion of the region loop fails.
-/

namespace VllmHcu.Mooncake

variable {ReqId TransferId : Type}

/-! ## Expanded regions -/

/-- A region whose payload fits its stride, with a capacity. -/
structure TransferRegion.Sized (l : TransferRegion) (numBlocks : Nat) : Prop where
  payload : l.kvBlockLen ≤ l.blockLen
  capacity : l.numBlocks = some numBlocks

theorem expandEntry_sized {baseAddr blockLen kvBlockLen layerIndex groupIndex : Int} {layerName : String} {split : Bool}
    {n : Int} {regions : List TransferRegion}
    (h : expandEntry (baseAddr, blockLen, kvBlockLen, layerName, layerIndex, groupIndex, split, some n) = .ok regions)
    {l : TransferRegion} (hl : l ∈ regions) : l.Sized n.toNat := by
  unfold expandEntry at h
  cases split with
  | true =>
    simp only [if_true] at h
    split at h
    · cases h
    · split at h
      · cases h
      · split at h
        · cases h
        · cases h
          have hle : kvBlockLen.toNat ≤ blockLen.toNat := by omega
          rcases List.mem_cons.mp hl with rfl | hl
          · exact ⟨hle, rfl⟩
          · cases List.mem_singleton.mp hl
            exact ⟨hle, rfl⟩
  | false =>
    simp only [Bool.false_eq_true, if_false] at h
    split at h
    · cases h
    · split at h
      · cases h
      · split at h
        · cases h
        · cases h
          have hle : kvBlockLen.toNat ≤ blockLen.toNat := by omega
          cases List.mem_singleton.mp hl
          exact ⟨hle, rfl⟩

theorem expandTransferRegions_sized {md : RegionMetadata} {L : List TransferRegion}
    (h : expandTransferRegions md = .ok L) (hcap : md.numBlocksPerLayer.isSome = true) {l : TransferRegion} (hl : l ∈ L) :
    ∃ n, l.Sized n := by
  unfold expandTransferRegions at h
  dsimp only at h
  split at h
  · cases h
  · split at h
    · cases h
    · split at h
      · cases h
      · split at h
        · cases h
        · rename_i hvalid
          obtain ⟨rs, hrs, rfl⟩ := map_eq_ok.mp h
          obtain ⟨regions, hregions, hl⟩ := List.mem_flatten.mp hl
          obtain ⟨e, he, heq⟩ := forall₂_mem_right ((mapM_eq_ok expandEntry).mp hrs) hregions
          obtain ⟨baseAddr, blockLen, kvBlockLen, layerName, layerIndex, groupIndex, split, numBlocks⟩ := e
          have hlast := (List.of_mem_zip (List.of_mem_zip (List.of_mem_zip (List.of_mem_zip (List.of_mem_zip
            (List.of_mem_zip (List.of_mem_zip he).2).2).2).2).2).2).2
          cases hc : md.numBlocksPerLayer with
          | none =>
            rw [hc] at hcap
            cases hcap
          | some counts =>
            rw [hc] at hvalid hlast
            cases counts with
            | nil =>
              -- no capacity at all means no region
              simp [validBlockCapacities] at hvalid
              simp [hvalid] at hlast
            | cons c cs =>
              obtain ⟨n, _, rfl⟩ := List.mem_map.mp hlast
              exact ⟨n.toNat, expandEntry_sized heq hl⟩

/-! ## Bounds of one descriptor -/

/-- `len` bytes from `ptr` lie in the registered blocks of the region. -/
def TransferRegion.Contains (l : TransferRegion) (ptr : Int) (len : Nat) : Prop :=
  ∃ n, l.numBlocks = some n ∧ (l.baseAddr : Int) ≤ ptr ∧ ptr + (len : Int) ≤ (l.baseAddr : Int) + (n : Int) * l.blockLen

/-- `len` bytes from `ptr` lie in the payload of one block. -/
def TransferRegion.InPayload (l : TransferRegion) (ptr : Int) (len : Nat) : Prop :=
  ∃ id : Int, (l.baseAddr : Int) + id * l.blockLen ≤ ptr ∧
    ptr + (len : Int) ≤ (l.baseAddr : Int) + id * l.blockLen + l.kvBlockLen

theorem contains_blocks {l : TransferRegion} {n : Nat} (hl : l.Sized n) {id : Int} (h0 : 0 ≤ id) (blocks : Nat)
    {off len : Nat} (hlt : id + (blocks : Int) ≤ n) (hfit : off + len ≤ blocks * l.blockLen) :
    l.Contains ((l.baseAddr : Int) + id * l.blockLen + (off : Int)) len := by
  refine ⟨n, hl.capacity, ?_, ?_⟩
  · have : 0 ≤ id * l.blockLen := Int.mul_nonneg h0 (by omega)
    omega
  · have hmul : (id + (blocks : Int)) * l.blockLen ≤ (n : Int) * l.blockLen := Int.mul_le_mul_of_nonneg_right hlt (by omega)
    have hfit : (off : Int) + len ≤ blocks * l.blockLen := by exact_mod_cast hfit
    rw [Int.add_mul] at hmul
    omega

theorem inPayload_block {l : TransferRegion} {id : Int} {off len : Nat} (hfit : off + len ≤ l.kvBlockLen) :
    l.InPayload ((l.baseAddr : Int) + id * l.blockLen + (off : Int)) len := by
  refine ⟨id, ?_, ?_⟩
  · omega
  · omega

/-! ## Bounds of the descriptors of a pair -/

/-- Both pointers of a descriptor stay in their regions, and in one block unless it is coalesced. -/
structure DescriptorFits (x : RegionTransfer) (l r : TransferRegion) (d : Int × Int × Nat) : Prop where
  reads : l.Contains d.1 d.2.2
  writes : r.Contains d.2.1 d.2.2
  oneBlock : x.coalesces l r = false → l.InPayload d.1 d.2.2 ∧ r.InPayload d.2.1 d.2.2

section
variable {x : RegionTransfer} {tpSize : Nat} {L R : List TransferRegion} (hx : x.Accepted tpSize L R)
  {l r : TransferRegion} (hm : (l, r) ∈ x.localRegions.zip x.remoteRegions) {n n' : Nat} (hl : l.Sized n) (hr : r.Sized n')

include hx hm hl hr in
theorem block_fits {a b : Int} (ha : 0 ≤ a ∧ a < (n : Int)) (hb : 0 ≤ b ∧ b < (n' : Int)) :
    DescriptorFits x l r (x.descriptor l r a b 1) := by
  obtain ⟨hfit₁, hfit₂⟩ := plan_fits hx hm
  have hpay₁ : (x.senderPlan l r).srcRegionOffset + (x.senderPlan l r).transferLen ≤ 1 * l.blockLen := by
    have := hl.payload
    omega
  have hpay₂ : (x.senderPlan l r).dstRegionOffset + (x.senderPlan l r).transferLen ≤ 1 * r.blockLen := by
    have := hr.payload
    omega
  unfold RegionTransfer.descriptor
  rw [Nat.mul_one]
  refine ⟨contains_blocks hl ha.1 1 (by omega) hpay₁, contains_blocks hr hb.1 1 (by omega) hpay₂, ?_⟩
  intro _
  exact ⟨inPayload_block hfit₁, inPayload_block hfit₂⟩

theorem run_below {a b : Int} {g : List (Int × Int)}
    (hchain : ((a, b) :: g).IsChain fun x y => y.1 - x.1 == 1 && y.2 - x.2 == 1) {n n' : Nat}
    (hg : ∀ p ∈ (a, b) :: g, (0 ≤ p.1 ∧ p.1 < (n : Int)) ∧ 0 ≤ p.2 ∧ p.2 < (n' : Int)) :
    a + ((g.length + 1 : Nat) : Int) ≤ n ∧ b + ((g.length + 1 : Nat) : Int) ≤ n' := by
  have hlast : (a + (g.length : Int), b + (g.length : Int)) ∈ (a, b) :: g := by
    rw [chain_eq_run hchain]
    exact List.mem_map.mpr ⟨g.length, List.mem_range.mpr (Nat.lt_succ_self _), rfl⟩
  have hlt := hg _ hlast
  push_cast
  constructor
  · omega
  · omega

include hl hr in
theorem coalesced_fits (hc : x.coalesces l r = true) {a b : Int} (h0 : 0 ≤ a ∧ 0 ≤ b) {blocks : Nat}
    (hlt : a + (blocks : Int) ≤ n ∧ b + (blocks : Int) ≤ n') : DescriptorFits x l r (x.descriptor l r a b blocks) := by
  have hcan := hc
  unfold RegionTransfer.coalesces canCoalesceBlockTransfers at hcan
  simp only [Bool.and_eq_true, beq_iff_eq] at hcan
  obtain ⟨⟨⟨hsrc, hdst⟩, hlen⟩, hlen'⟩ := hcan
  unfold RegionTransfer.descriptor
  refine ⟨contains_blocks hl h0.1 blocks hlt.1 ?_, contains_blocks hr h0.2 blocks hlt.2 ?_, ?_⟩
  · rw [hsrc, hlen, Nat.zero_add, Nat.mul_comm]
  · rw [hdst, hlen', Nat.zero_add, Nat.mul_comm]
  · intro hf
    rw [hc] at hf
    cases hf

include hx hm hl hr in
theorem descriptors_fit {locals remotes : List Int} (hlocals : ∀ id ∈ locals, 0 ≤ id ∧ id < (n : Int))
    (hremotes : ∀ id ∈ remotes, 0 ≤ id ∧ id < (n' : Int)) {d : Int × Int × Nat}
    (hd : d ∈ x.descriptors l r locals remotes) : DescriptorFits x l r d := by
  unfold RegionTransfer.descriptors groupConcurrentContiguous at hd
  dsimp only at hd
  rw [zip_groups, List.flatMap_map, List.mem_flatMap] at hd
  obtain ⟨g, hg, hd⟩ := hd
  have hchain := List.isChain_of_mem_splitBy hg
  have hmem : ∀ p ∈ g, (0 ≤ p.1 ∧ p.1 < (n : Int)) ∧ 0 ≤ p.2 ∧ p.2 < (n' : Int) := by
    intro p hp
    have hz : p ∈ locals.zip remotes := by
      rw [← List.flatten_splitBy (fun a b => b.1 - a.1 == 1 && b.2 - a.2 == 1) (locals.zip remotes)]
      exact List.mem_flatten.mpr ⟨g, hg, hp⟩
    obtain ⟨h₁, h₂⟩ := List.of_mem_zip (a := p.1) (b := p.2) hz
    exact ⟨hlocals _ h₁, hremotes _ h₂⟩
  by_cases hc : x.coalesces l r = true
  · simp only [hc, if_true, List.mem_singleton] at hd
    subst hd
    cases g with
    | nil => exact absurd rfl (List.ne_nil_of_mem_splitBy hg)
    | cons p g =>
      obtain ⟨a, b⟩ := p
      have h0 := hmem (a, b) List.mem_cons_self
      simp only [List.map_cons, List.headD_cons, List.length_cons, List.length_map]
      exact coalesced_fits hl hr hc ⟨h0.1.1, h0.2.1⟩ (run_below hchain hmem)
  · simp only [hc, Bool.false_eq_true, if_false] at hd
    rw [zip_unzipped] at hd
    obtain ⟨p, hp, rfl⟩ := List.mem_map.mp hd
    obtain ⟨ha, hb⟩ := hmem p hp
    exact block_fits hx hm hl hr ha hb

end

/-! ## Bounds of a pull -/

theorem nonnegative_spec {locals remotes : List (List Int)} (h : validateNonnegativeBlockIds locals remotes = none) :
    (∀ g ∈ locals, ∀ id ∈ g, 0 ≤ id) ∧ ∀ g ∈ remotes, ∀ id ∈ g, 0 ≤ id := by
  have hside : ∀ {side : String} {groups : List (List Int)},
      (groups.zipIdx.findSome? fun g => (g.1.find? (· < 0)).map fun b =>
        s!"Mooncake {side} block ID {b} is negative in KV group {g.2}.") = none → ∀ g ∈ groups, ∀ id ∈ g, 0 ≤ id := by
    intro side groups h g hg id hid
    obtain ⟨i, hi⟩ := List.getElem?_of_mem hg
    have hz : (g, i) ∈ groups.zipIdx := List.mem_zipIdx_iff_getElem?.mpr hi
    have hnone := Option.map_eq_none_iff.mp (List.findSome?_eq_none_iff.mp h _ hz)
    have := List.find?_eq_none.mp hnone id hid
    simpa using this
  unfold validateNonnegativeBlockIds at h
  obtain ⟨h₁, h₂⟩ := Option.or_eq_none_iff.mp h
  exact ⟨hside h₁, hside h₂⟩

theorem mem_groupIds {groups : List (List Int)} {l : TransferRegion} {id : Int} (h : id ∈ groupIds groups l) :
    ∃ g ∈ groups, id ∈ g := by
  unfold groupIds at h
  rw [List.getD_eq_getElem?_getD] at h
  cases hg : groups[l.groupIndex.toNat]? with
  | none =>
    rw [hg] at h
    cases h
  | some g =>
    rw [hg] at h
    exact ⟨g, List.mem_of_getElem? hg, h⟩

section
variable [DecidableEq ReqId] {x : RegionTransfer} {tpSize : Nat} {L R : List TransferRegion} (hx : x.Accepted tpSize L R)
  {ml mr : RegionMetadata} (hL : expandTransferRegions ml = .ok L) (hR : expandTransferRegions mr = .ok R)
  (hcap : ml.numBlocksPerLayer.isSome = true ∧ mr.numBlocksPerLayer.isSome = true)
  (w : Worker ReqId TransferId) (m : XferMetadata ReqId TransferId) (heap : Nat → SendBlockMeta ReqId TransferId)
include hx hL hR hcap

theorem taskDescriptors_fit {t : ReqId × Nat} {d : Int × Int × Nat} (hd : d ∈ taskDescriptors (x.worker w) m heap t) :
    ∃ l r, (l, r) ∈ x.localRegions.zip x.remoteRegions ∧
      d ∈ x.descriptors l r (groupIds (selectedBlocks w (heap t.2).localBlockIds (remoteIds m t.1)).1 l)
        (groupIds (selectedBlocks w (heap t.2).localBlockIds (remoteIds m t.1)).2 l) ∧ DescriptorFits x l r d := by
  unfold taskDescriptors taskPlan at hd
  rcases planRequest_cases hx w m (heap t.2).localBlockIds (remoteIds m t.1) with ⟨h, _⟩ | ⟨_, h⟩ | ⟨h, hnn, hl, hr⟩
  · rw [h] at hd
    cases hd
  · rw [h] at hd
    cases hd
  · rw [h] at hd
    generalize selectedBlocks w (heap t.2).localBlockIds (remoteIds m t.1) = sel at *
    obtain ⟨⟨l, r⟩, hm, hd⟩ := List.mem_flatMap.mp hd
    refine ⟨l, r, hm, ?_⟩
    unfold pairDescriptors at hd
    split at hd
    · refine ⟨hd, ?_⟩
      obtain ⟨hgroup, hlL, hrR⟩ := aligned_spec hx hm
      obtain ⟨n, hln⟩ := expandTransferRegions_sized hL hcap.1 hlL
      obtain ⟨n', hrn⟩ := expandTransferRegions_sized hR hcap.2 hrR
      have hbl := (boundsError_spec hl (List.of_mem_zip hm).1).2.2 n hln.capacity
      have hbr := (boundsError_spec hr (List.of_mem_zip hm).2).2.2 n' hrn.capacity
      have hsame : groupIds sel.2 l = groupIds sel.2 r := by
        unfold groupIds
        rw [hgroup]
      obtain ⟨hnl, hnr⟩ := nonnegative_spec hnn
      refine descriptors_fit hx hm hln hrn ?_ ?_ hd
      · intro id hid
        obtain ⟨g, hg, hmem⟩ := mem_groupIds hid
        exact ⟨hnl g hg id hmem, hbl id hid⟩
      · intro id hid
        obtain ⟨g, hg, hmem⟩ := mem_groupIds hid
        exact ⟨hnr g hg id hmem, hbr id (hsame ▸ hid)⟩
    · cases hd

/-- In an accepted pull no assertion fails, and every descriptor stays in the regions that it was built for. -/
theorem descriptors_in_bounds (ready : List (ReqId × Nat)) :
    ∃ ps, buildTransferParams (x.worker w) m heap ready = .ok ps ∧ ∀ d ∈ ps.descriptors,
      ∃ t ∈ ready, ∃ l r, (l, r) ∈ x.localRegions.zip x.remoteRegions ∧
        d ∈ x.descriptors l r (groupIds (selectedBlocks w (heap t.2).localBlockIds (remoteIds m t.1)).1 l)
          (groupIds (selectedBlocks w (heap t.2).localBlockIds (remoteIds m t.1)).2 l) ∧ DescriptorFits x l r d := by
  obtain ⟨ps, hps, hds, _⟩ :=
    buildTransferParams_spec (x.worker w) m heap ready fun t _ => taskPlan_not_raised hx w m heap t
  refine ⟨ps, hps, ?_⟩
  intro d hd
  rw [hds] at hd
  obtain ⟨t, ht, hd⟩ := List.mem_flatMap.mp hd
  exact ⟨t, ht, taskDescriptors_fit hx hL hR hcap w m heap hd⟩

end

def nineBlocks (baseAddr : Int) : RegionMetadata where
  baseAddrs := [baseAddr]
  blockLens := [8]
  kvBlockLens := [8]
  layerNames := ["layer"]
  layerIndices := [0]
  numBlocksPerLayer := some [9]

/-- Blocks 3 and 4 go to blocks 5 and 6 in one descriptor. -/
theorem descriptors_in_bounds_two_blocks :
    ∃ ps, buildTransferParams (oneRegion.worker idleWorker) twoBlocks threeBlocks [(10, 0)] = .ok ps ∧
      ∀ d ∈ ps.descriptors, ∃ l r, (l, r) ∈ oneRegion.localRegions.zip oneRegion.remoteRegions ∧ DescriptorFits oneRegion l r d := by
  have hl : expandTransferRegions (nineBlocks 100) = .ok oneRegion.localRegions := rfl
  have hr : expandTransferRegions (nineBlocks 200) = .ok oneRegion.remoteRegions := rfl
  obtain ⟨ps, hps, hds⟩ := descriptors_in_bounds oneRegion_accepted hl hr ⟨rfl, rfl⟩ idleWorker twoBlocks threeBlocks [(10, 0)]
  refine ⟨ps, hps, ?_⟩
  intro d hd
  obtain ⟨_, _, l, r, hm, _, hfit⟩ := hds d hd
  exact ⟨l, r, hm, hfit⟩

end VllmHcu.Mooncake
