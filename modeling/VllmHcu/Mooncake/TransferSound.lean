import Mathlib.Data.List.Zip
import VllmHcu.Lib.Copies
import VllmHcu.Lib.Result
import VllmHcu.Mooncake.CoverageSound

/-!
# Descriptors copy the selected blocks

`descriptors_copy_blocks`: the descriptors of a request relate the bytes of the
`i`-th selected local block with those of the `i`-th selected remote block, for
every region pair that the rank sends. `descriptors_in_bounds`: each stays in its
two regions.
-/

namespace VllmHcu.Mooncake

variable {ReqId TransferId : Type}

/-! ## One region pair -/

section
variable (x : RegionTransfer) (l r : TransferRegion)

theorem zip_groups (groups : List (List (Int × Int))) :
    (groups.map (·.map Prod.fst)).zip (groups.map (·.map Prod.snd)) =
      groups.map fun g => (g.map Prod.fst, g.map Prod.snd) :=
  List.zip_map'

theorem zip_unzipped (g : List (Int × Int)) : (g.map Prod.fst).zip (g.map Prod.snd) = g := by
  rw [List.zip_map']
  exact List.map_id g

theorem copies_coalesced (hc : x.coalesces l r = true) {g : List (Int × Int)} (hg : g ≠ [])
    (hchain : g.IsChain fun a b => b.1 - a.1 == 1 && b.2 - a.2 == 1) :
    copies [x.descriptor l r ((g.map Prod.fst).headD 0) ((g.map Prod.snd).headD 0) (g.map Prod.fst).length] =
      copies (g.map fun p => x.descriptor l r p.1 p.2 1) := by
  cases g with
  | nil => exact absurd rfl hg
  | cons p g =>
    obtain ⟨a, b⟩ := p
    unfold RegionTransfer.coalesces canCoalesceBlockTransfers at hc
    simp only [Bool.and_eq_true, beq_iff_eq] at hc
    obtain ⟨⟨⟨_, _⟩, hl⟩, hr⟩ := hc
    have hblock : ∀ i : Nat, x.descriptor l r (a + (i : Int)) (b + (i : Int)) 1 =
        ((x.descriptor l r a b 1).1 + (i : Int) * (x.senderPlan l r).transferLen,
          (x.descriptor l r a b 1).2.1 + (i : Int) * (x.senderPlan l r).transferLen,
          (x.senderPlan l r).transferLen) := by
      intro i
      unfold RegionTransfer.descriptor
      rw [hl, Nat.mul_one, ← hr, hl]
      congr 1
      · ring
      · congr 1
        ring
    calc copies [x.descriptor l r a b (((a, b) :: g).map Prod.fst).length]
      _ = copies ((List.range (g.length + 1)).map fun i : Nat => x.descriptor l r (a + (i : Int)) (b + (i : Int)) 1) := by
        simp only [hblock, List.length_map, List.length_cons]
        exact copies_run _ _ (x.senderPlan l r).transferLen (g.length + 1)
      _ = copies (((a, b) :: g).map fun p => x.descriptor l r p.1 p.2 1) := by
        rw [chain_eq_run hchain, List.map_map]
        rfl

theorem copies_descriptors (locals remotes : List Int) :
    copies (x.descriptors l r locals remotes) =
      copies ((locals.zip remotes).map fun p => x.descriptor l r p.1 p.2 1) := by
  unfold RegionTransfer.descriptors groupConcurrentContiguous
  dsimp only
  rw [zip_groups, List.flatMap_map]
  generalize hgroups : (locals.zip remotes).splitBy (fun a b => b.1 - a.1 == 1 && b.2 - a.2 == 1) = groups
  have hflat : locals.zip remotes = groups.flatten := by
    rw [← hgroups, List.flatten_splitBy]
  rw [hflat, List.map_flatten, ← List.flatMap_def]
  apply copies_flatMap_congr
  intro g hg
  rw [← hgroups] at hg
  by_cases hc : x.coalesces l r = true
  · simp only [hc, if_true]
    exact copies_coalesced x l r hc (List.ne_nil_of_mem_splitBy hg) (List.isChain_of_mem_splitBy hg)
  · simp only [hc, Bool.false_eq_true, if_false]
    rw [zip_unzipped]

end

/-! ## Accepted region lists -/

theorem mem_of_keyedRegions {counts : String → Nat} {L : List TransferRegion} {key : String × Nat} {l : TransferRegion}
    (h : (key, l) ∈ keyedRegions counts L) : l ∈ L := by
  induction L generalizing counts with
  | nil => cases h
  | cons region L ih =>
    rcases List.mem_cons.mp h with h | h
    · cases h
      exact List.mem_cons_self
    · exact List.mem_cons_of_mem _ (ih h)

theorem alignKeyed_spec {remoteByKey keyed : List ((String × Nat) × TransferRegion)} {L R : List TransferRegion}
    (h : alignKeyed remoteByKey keyed = .ok (L, R)) {l r : TransferRegion} (hm : (l, r) ∈ L.zip R) :
    l.groupIndex = r.groupIndex ∧ l ∈ keyed.map Prod.snd ∧ r ∈ remoteByKey.map Prod.snd := by
  induction keyed generalizing L R with
  | nil =>
    cases h
    cases hm
  | cons entry keyed ih =>
    obtain ⟨key, region⟩ := entry
    unfold alignKeyed at h
    split at h
    · cases h
    · rename_i remote hlookup
      split at h
      · cases h
      · split at h
        · cases h
        · rename_i hgroup
          obtain ⟨⟨L', R'⟩, hrest, heq⟩ := bind_eq_ok.mp h
          cases heq
          rcases List.mem_cons.mp hm with hm | hm
          · cases hm
            obtain ⟨pre, post, hkeyed, _⟩ := List.lookup_eq_some_iff.mp hlookup
            refine ⟨not_not.mp hgroup, List.mem_cons_self, ?_⟩
            rw [hkeyed]
            simp
          · obtain ⟨h1, h2, h3⟩ := ih hrest hm
            exact ⟨h1, List.mem_cons_of_mem _ h2, h3⟩

/-- The checks before the wait loop, on the expanded regions of both sides. -/
structure RegionTransfer.Accepted (x : RegionTransfer) (tpSize : Nat) (L R : List TransferRegion) : Prop where
  pos : 0 < tpSize ∧ 0 < x.remoteTpSize
  divides : x.remoteTpSize ∣ tpSize ∨ tpSize ∣ x.remoteTpSize
  ratio : RatioOf x.topo.tpRatio tpSize
  aligned : alignTransferRegions L R = .ok (x.localRegions, x.remoteRegions)
  lengths : validateAsymmetricRegionLengths x.localRegions x.remoteRegions x.topo x.remoteTpSize
    x.producerCacheReplicated = none

section
variable {x : RegionTransfer} {tpSize : Nat} {L R : List TransferRegion} (hx : x.Accepted tpSize L R)
  {l r : TransferRegion} (hm : (l, r) ∈ x.localRegions.zip x.remoteRegions)
include hx hm

theorem aligned_spec : l.groupIndex = r.groupIndex ∧ l ∈ L ∧ r ∈ R := by
  obtain ⟨hgroup, hl, hr⟩ := alignKeyed_spec hx.aligned hm
  obtain ⟨e, he, rfl⟩ := List.mem_map.mp hl
  obtain ⟨e', he', rfl⟩ := List.mem_map.mp hr
  exact ⟨hgroup, mem_of_keyedRegions he, mem_of_keyedRegions he'⟩

theorem plan_fits : (x.senderPlan l r).srcRegionOffset + (x.senderPlan l r).transferLen ≤ l.kvBlockLen ∧
    (x.senderPlan l r).dstRegionOffset + (x.senderPlan l r).transferLen ≤ r.kvBlockLen := by
  obtain ⟨hrep, hquot, hneg⟩ := validate_spec hx.lengths hm
  unfold RegionTransfer.senderPlan
  rcases ratio_cases hx.pos.1 hx.pos.2 hx.divides hx.ratio with ⟨m, hpos, _, hratio, _⟩ | ⟨m, hpos, _, hratio, _⟩
  · rw [plan_of_quotient hpos hratio]
    cases hc : x.producerCacheReplicated with
    | true => simpa using (hrep hc).le
    | false =>
      have hlen := hquot hc (by rw [hratio]; exact_mod_cast hpos)
      rw [hratio] at hlen
      have hlen : r.kvBlockLen = l.kvBlockLen * m := by exact_mod_cast hlen
      simp only [Bool.false_eq_true, if_false]
      refine ⟨by simp, ?_⟩
      rw [hlen]
      exact mod_mul_add_le hpos
  · rw [plan_of_negated hpos hratio]
    cases hc : x.producerCacheReplicated with
    | true => simpa using (hrep hc).le
    | false =>
      have hlen := hneg hc (by rw [hratio]; omega)
      rw [hratio, neg_neg] at hlen
      have hlen : l.kvBlockLen = r.kvBlockLen * m := by exact_mod_cast hlen
      simp only [Bool.false_eq_true, if_false]
      refine ⟨?_, by simp⟩
      rw [hlen]
      exact mod_mul_add_le hpos

end

/-! ## The region loop -/

/-- The block lists that a region pair reads. -/
def groupIds (groups : List (List Int)) (l : TransferRegion) : List Int := groups.getD l.groupIndex.toNat []

/-- The descriptors of a pair, where the rank sends it. -/
def pairDescriptors (x : RegionTransfer) (locals remotes : List (List Int)) (l r : TransferRegion) :
    List (Int × Int × Nat) :=
  if (x.senderPlan l r).shouldTransfer then x.descriptors l r (groupIds locals l) (groupIds remotes l) else []

theorem descriptors_nil (x : RegionTransfer) (l r : TransferRegion) (remotes : List Int) :
    x.descriptors l r [] remotes = [] := rfl

theorem boundsError_spec {side : String} {regions : List TransferRegion} {groups : List (List Int)}
    (h : RegionTransfer.boundsError side regions groups = none) {region : TransferRegion} (hm : region ∈ regions) :
    0 ≤ region.groupIndex ∧ region.groupIndex < (groups.length : Int) ∧
      ∀ n, region.numBlocks = some n → ∀ id ∈ groupIds groups region, id < (n : Int) := by
  have hc := List.findSome?_eq_none_iff.mp h region hm
  split at hc
  · cases hc
  · rename_i hgroup
    obtain ⟨h0, hlt⟩ := not_not.mp hgroup
    refine ⟨h0, hlt, ?_⟩
    intro n hn id hid
    rw [hn] at hc
    dsimp only at hc
    split at hc
    · cases hc
    · rename_i hmax
      unfold groupIds at hid
      cases hmx : (groups.getD region.groupIndex.toNat []).max? with
      | none =>
        rw [List.max?_eq_none_iff] at hmx
        rw [hmx] at hid
        cases hid
      | some m =>
        have hle := (List.max?_eq_some_iff.mp hmx).2 id hid
        rw [hmx, Option.getD_some] at hmax
        omega

section
variable {x : RegionTransfer} {tpSize : Nat} {L R : List TransferRegion} (hx : x.Accepted tpSize L R)
  {locals : List (List Int)} (hbounds : RegionTransfer.boundsError "producer" x.localRegions locals = none)
  (remotes : List (List Int))
include hx hbounds

theorem transferRegion_ok {l r : TransferRegion} (hm : (l, r) ∈ x.localRegions.zip x.remoteRegions) :
    x.transferRegion locals remotes l r = .ok (pairDescriptors x locals remotes l r) := by
  obtain ⟨hfit₁, hfit₂⟩ := plan_fits hx hm
  obtain ⟨hgroup, _, _⟩ := aligned_spec hx hm
  obtain ⟨_, hlt, _⟩ := boundsError_spec hbounds (List.of_mem_zip hm).1
  unfold RegionTransfer.transferRegion pairDescriptors groupIds
  dsimp only
  rw [if_neg (by simp [hgroup]), if_neg (by simp [hlt])]
  by_cases hempty : (locals.getD l.groupIndex.toNat []).isEmpty = true
  · rw [if_pos hempty, List.isEmpty_iff.mp hempty, descriptors_nil, ite_self]
  · rw [if_neg hempty]
    by_cases hsend : (x.senderPlan l r).shouldTransfer = true
    · rw [if_neg (by simp [hsend]), if_neg (not_not.mpr hfit₁), if_neg (not_not.mpr hfit₂), if_pos hsend]
    · rw [if_pos (by simp [hsend]), if_neg hsend]

theorem transferRegions_ok {pairs : List (TransferRegion × TransferRegion)}
    (hpairs : ∀ p ∈ pairs, p ∈ x.localRegions.zip x.remoteRegions) :
    x.transferRegions locals remotes pairs = .ok (pairs.flatMap fun p => pairDescriptors x locals remotes p.1 p.2) := by
  induction pairs with
  | nil => rfl
  | cons p pairs ih =>
    have hp := transferRegion_ok hx hbounds remotes (hpairs p List.mem_cons_self)
    unfold RegionTransfer.transferRegions
    rw [hp, ih fun p hp => hpairs p (List.mem_cons_of_mem _ hp)]
    rfl

end

/-! ## One request -/

/-- The blocks that the group loop selects, on both sides. -/
def selectedBlocks (w : Worker ReqId TransferId) (locals remotes : List (List Int)) : List (List Int) × List (List Int) :=
  match alignGroups w.isMambaGroup 0 locals remotes with
  | none => ([], [])
  | some groups => (logicalToKernelBlockIds w (groups.map (·.1)), logicalToKernelBlockIds w (groups.map (·.2)))

theorem groupIds_nil {groups : List (List Int)} (h : ∀ g ∈ groups, g = []) (l : TransferRegion) : groupIds groups l = [] := by
  unfold groupIds
  rw [List.getD_eq_getElem?_getD]
  cases hg : groups[l.groupIndex.toNat]? with
  | none => rfl
  | some g => exact h g (List.mem_of_getElem? hg)

theorem logicalToKernelBlockIds_nil {w : Worker ReqId TransferId} {groups : List (List Int)} (h : ∀ g ∈ groups, g = []) :
    ∀ g ∈ logicalToKernelBlockIds w groups, g = [] := by
  unfold logicalToKernelBlockIds
  split
  · exact h
  · intro g hg
    obtain ⟨⟨ids, i⟩, hi, rfl⟩ := List.mem_map.mp hg
    have hids : ids ∈ groups := List.mem_of_getElem? (List.mem_zipIdx_iff_getElem?.mp hi)
    dsimp only
    rw [h ids hids, w.blockTable.expands, kernelBlocks, List.flatMap_nil, ite_self]

/-- The blocks of a group that carry state. -/
def keptIds (isMambaGroup : Nat → Bool) (g : Nat) (ids : List Int) : List Int :=
  if isMambaGroup g then ids.filter (· ≠ nullBlockId) else ids

theorem alignGroups_cons (isMambaGroup : Nat → Bool) (g : Nat) (ids rids : List Int) (locals remotes : List (List Int)) :
    alignGroups isMambaGroup g (ids :: locals) (rids :: remotes) =
      if (keptIds isMambaGroup g ids).length < (keptIds isMambaGroup g rids).length then none
      else (alignGroups isMambaGroup (g + 1) locals remotes).map fun rest =>
        ((keptIds isMambaGroup g ids).drop ((keptIds isMambaGroup g ids).length - (keptIds isMambaGroup g rids).length),
          keptIds isMambaGroup g rids) :: rest := rfl

theorem alignGroups_remote_nil {isMamba : Nat → Bool} {g : Nat} {locals remotes : List (List Int)}
    {groups : List (List Int × List Int)} (h : alignGroups isMamba g locals remotes = some groups)
    (hnil : ∀ ids ∈ remotes, ids = []) : ∀ p ∈ groups, p.2 = [] := by
  induction locals generalizing g remotes groups with
  | nil =>
    unfold alignGroups at h
    cases h
    simp
  | cons ids locals ih =>
    cases remotes with
    | nil =>
      unfold alignGroups at h
      cases h
      simp
    | cons rids remotes =>
      rw [alignGroups_cons] at h
      split at h
      · cases h
      · obtain ⟨rest, hrest, rfl⟩ := Option.map_eq_some_iff.mp h
        intro p hp
        rcases List.mem_cons.mp hp with rfl | hp
        · rw [hnil rids List.mem_cons_self]
          simp [keptIds]
        · exact ih hrest (fun ids hids => hnil ids (List.mem_cons_of_mem _ hids)) p hp

theorem plan_eq {x : RegionTransfer} {tpSize : Nat} {L R : List TransferRegion} (hx : x.Accepted tpSize L R)
    (locals remotes : List (List Int)) :
    (∃ msg, x.plan locals remotes = .boundsError msg) ∨
    (x.plan locals remotes = .descriptors
        ((x.localRegions.zip x.remoteRegions).flatMap fun p => pairDescriptors x locals remotes p.1 p.2) ∧
      RegionTransfer.boundsError "producer" x.localRegions locals = none ∧
      RegionTransfer.boundsError "consumer" x.remoteRegions remotes = none) := by
  unfold RegionTransfer.plan
  cases hl : RegionTransfer.boundsError "producer" x.localRegions locals with
  | some msg => exact Or.inl ⟨msg, rfl⟩
  | none =>
    cases hr : RegionTransfer.boundsError "consumer" x.remoteRegions remotes with
    | some msg => exact Or.inl ⟨msg, rfl⟩
    | none =>
      refine Or.inr ⟨?_, rfl, rfl⟩
      rw [transferRegions_ok hx hl remotes fun p hp => hp]
      rfl

theorem planRequest_cases {x : RegionTransfer} {tpSize : Nat} {L R : List TransferRegion} (hx : x.Accepted tpSize L R)
    (w : Worker ReqId TransferId) (m : XferMetadata ReqId TransferId) (locals remotes : List (List Int)) :
    (planRequest (x.worker w) m locals remotes = .skip ∧
      ∀ l, groupIds (selectedBlocks w locals remotes).1 l = [] ∨ groupIds (selectedBlocks w locals remotes).2 l = []) ∨
    (∃ msg, planRequest (x.worker w) m locals remotes = .reject msg) ∨
    (planRequest (x.worker w) m locals remotes = .send (selectedBlocks w locals remotes).1
        ((x.localRegions.zip x.remoteRegions).flatMap fun p =>
          pairDescriptors x (selectedBlocks w locals remotes).1 (selectedBlocks w locals remotes).2 p.1 p.2) ∧
      validateNonnegativeBlockIds (selectedBlocks w locals remotes).1 (selectedBlocks w locals remotes).2 = none ∧
      RegionTransfer.boundsError "producer" x.localRegions (selectedBlocks w locals remotes).1 = none ∧
      RegionTransfer.boundsError "consumer" x.remoteRegions (selectedBlocks w locals remotes).2 = none) := by
  have hmamba : (x.worker w).isMambaGroup = w.isMambaGroup := rfl
  have hkernel : ∀ groups, logicalToKernelBlockIds (x.worker w) groups = logicalToKernelBlockIds w groups := fun _ => rfl
  have hplan : (x.worker w).regionPlan m = x.plan := rfl
  unfold planRequest selectedBlocks
  rw [hmamba]
  split
  · rename_i hall
    left
    refine ⟨rfl, ?_⟩
    intro l
    right
    cases hg : alignGroups w.isMambaGroup 0 locals remotes with
    | none => exact groupIds_nil (by simp) l
    | some groups =>
      apply groupIds_nil
      apply logicalToKernelBlockIds_nil
      intro ids hids
      obtain ⟨p, hp, rfl⟩ := List.mem_map.mp hids
      refine alignGroups_remote_nil hg ?_ p hp
      intro ids hids
      exact List.isEmpty_iff.mp (List.all_eq_true.mp hall ids hids)
  · split
    · exact Or.inr (Or.inl ⟨_, rfl⟩)
    · cases hg : alignGroups w.isMambaGroup 0 locals remotes with
      | none => exact Or.inr (Or.inl ⟨_, rfl⟩)
      | some groups =>
        dsimp only
        split
        · rename_i hall
          left
          refine ⟨rfl, ?_⟩
          intro l
          left
          apply groupIds_nil
          apply logicalToKernelBlockIds_nil
          intro ids hids
          obtain ⟨p, hp, rfl⟩ := List.mem_map.mp hids
          exact List.isEmpty_iff.mp (List.all_eq_true.mp hall p hp)
        · right
          simp only [hkernel, hplan]
          split
          · exact Or.inl ⟨_, rfl⟩
          · rename_i hnonneg
            rcases plan_eq hx (logicalToKernelBlockIds w (groups.map (·.1))) (logicalToKernelBlockIds w (groups.map (·.2)))
              with ⟨msg, hmsg⟩ | ⟨hds, hl, hr⟩
            · rw [hmsg]
              exact Or.inl ⟨msg, rfl⟩
            · rw [hds]
              exact Or.inr ⟨rfl, hnonneg, hl, hr⟩

/-! ## The block copy -/

/-- Byte `k` of the part of a local block that is sent, and where it goes in the remote block. -/
def copiedByte (x : RegionTransfer) (l r : TransferRegion) (a b : Int) (k : Nat) : Int × Int :=
  ((l.baseAddr : Int) + a * l.blockLen + (x.senderPlan l r).srcRegionOffset + k,
    (r.baseAddr : Int) + b * r.blockLen + (x.senderPlan l r).dstRegionOffset + k)

/-- The intended copy: for every region pair that the rank sends and every `i`, `transferLen` bytes of the
`i`-th local block go to the `i`-th remote block. -/
def blockCopy (x : RegionTransfer) (sel : List (List Int) × List (List Int)) : Set (Int × Int) :=
  {c | ∃ l r, (l, r) ∈ x.localRegions.zip x.remoteRegions ∧ (x.senderPlan l r).shouldTransfer = true ∧
    ∃ (i : Nat) (a b : Int), (groupIds sel.1 l)[i]? = some a ∧ (groupIds sel.2 l)[i]? = some b ∧
      ∃ k < (x.senderPlan l r).transferLen, c = copiedByte x l r a b k}

theorem mem_copies_blocks (x : RegionTransfer) (l r : TransferRegion) (locals remotes : List Int) (c : Int × Int) :
    c ∈ copies ((locals.zip remotes).map fun p => x.descriptor l r p.1 p.2 1) ↔
      ∃ (i : Nat) (a b : Int), locals[i]? = some a ∧ remotes[i]? = some b ∧
        ∃ k < (x.senderPlan l r).transferLen, c = copiedByte x l r a b k := by
  simp only [copies, Set.mem_ofPred_eq, RegionTransfer.descriptor, List.mem_map, Prod.exists, Nat.mul_one]
  constructor
  · rintro ⟨_, _, _, ⟨a, b, hab, heq⟩, k, hk, rfl⟩
    cases heq
    obtain ⟨i, hi⟩ := List.getElem?_of_mem hab
    obtain ⟨ha, hb⟩ := List.getElem?_zip_eq_some.mp hi
    exact ⟨i, a, b, ha, hb, k, hk, rfl⟩
  · rintro ⟨i, a, b, ha, hb, k, hk, rfl⟩
    have hab : (a, b) ∈ locals.zip remotes := List.mem_of_getElem? (List.getElem?_zip_eq_some.mpr ⟨ha, hb⟩)
    exact ⟨_, _, _, ⟨a, b, hab, rfl⟩, k, hk, rfl⟩

theorem mem_copies_pair (x : RegionTransfer) (locals remotes : List (List Int)) (l r : TransferRegion) (c : Int × Int) :
    c ∈ copies (pairDescriptors x locals remotes l r) ↔ (x.senderPlan l r).shouldTransfer = true ∧
      c ∈ copies (((groupIds locals l).zip (groupIds remotes l)).map fun p => x.descriptor l r p.1 p.2 1) := by
  unfold pairDescriptors
  by_cases hs : (x.senderPlan l r).shouldTransfer = true
  · rw [if_pos hs, copies_descriptors]
    exact (and_iff_right hs).symm
  · rw [if_neg hs]
    simp [hs]

theorem copies_pairs (x : RegionTransfer) (sel : List (List Int) × List (List Int)) :
    copies ((x.localRegions.zip x.remoteRegions).flatMap fun p => pairDescriptors x sel.1 sel.2 p.1 p.2) =
      blockCopy x sel := by
  ext c
  rw [mem_copies_flatMap]
  simp only [mem_copies_pair, mem_copies_blocks]
  constructor
  · rintro ⟨⟨l, r⟩, hm, hs, hc⟩
    exact ⟨l, r, hm, hs, hc⟩
  · rintro ⟨l, r, hm, hs, hc⟩
    exact ⟨(l, r), hm, hs, hc⟩

theorem blockCopy_empty (x : RegionTransfer) {sel : List (List Int) × List (List Int)}
    (h : ∀ l, groupIds sel.1 l = [] ∨ groupIds sel.2 l = []) : blockCopy x sel = ∅ := by
  ext c
  constructor
  · rintro ⟨l, r, _, _, i, a, b, ha, hb, _⟩
    rcases h l with h | h
    · rw [h] at ha
      cases ha
    · rw [h] at hb
      cases hb
  · intro hc
    cases hc

/-! ## All requests -/

section
variable [DecidableEq ReqId] (w : Worker ReqId TransferId) (m : XferMetadata ReqId TransferId)
  (heap : Nat → SendBlockMeta ReqId TransferId)

def remoteIds (d : ReqId) : List (List Int) := (m.reqBlocks.lookup d).elim [] (·.2)

/-- The outcome of a ready request. -/
def taskPlan (t : ReqId × Nat) : RequestPlan := planRequest w m (heap t.2).localBlockIds (remoteIds m t.1)

/-- The descriptors that a ready request contributes. -/
def taskDescriptors (t : ReqId × Nat) : List (Int × Int × Nat) :=
  match taskPlan w m heap t with
  | .send _ ds => ds
  | _ => []

def taskRejected (t : ReqId × Nat) : Bool :=
  match taskPlan w m heap t with
  | .reject _ => true
  | _ => false

theorem buildTransferParams_spec (ready : List (ReqId × Nat)) (h : ∀ t ∈ ready, ∀ msg, taskPlan w m heap t ≠ .raised msg) :
    ∃ ps, buildTransferParams w m heap ready = .ok ps ∧ ps.descriptors = ready.flatMap (taskDescriptors w m heap) ∧
      ps.errReqs = (ready.filter (taskRejected w m heap)).map Prod.fst := by
  induction ready with
  | nil => exact ⟨_, rfl, rfl, rfl⟩
  | cons t ready ih =>
    obtain ⟨ps, hps, hds, herr⟩ := ih fun t ht => h t (List.mem_cons_of_mem _ ht)
    have ht := h t List.mem_cons_self
    obtain ⟨d, i⟩ := t
    have hplan : planRequest w m (heap i).localBlockIds ((m.reqBlocks.lookup d).elim [] (·.2)) = taskPlan w m heap (d, i) := rfl
    unfold buildTransferParams
    dsimp only
    rw [hplan, hps, List.flatMap_cons, List.filter_cons]
    unfold taskDescriptors taskRejected at *
    cases hp : taskPlan w m heap (d, i) with
    | skip => exact ⟨ps, rfl, hds, herr⟩
    | reject msg =>
      refine ⟨_, rfl, hds, ?_⟩
      rw [if_pos rfl, List.map_cons, ← herr]
    | raised msg => exact absurd hp (ht msg)
    | send ids ds =>
      refine ⟨_, rfl, ?_, herr⟩
      rw [← hds]

end

section
variable [DecidableEq ReqId] {x : RegionTransfer} {tpSize : Nat} {L R : List TransferRegion} (hx : x.Accepted tpSize L R)
  (w : Worker ReqId TransferId) (m : XferMetadata ReqId TransferId) (heap : Nat → SendBlockMeta ReqId TransferId)
include hx

theorem taskPlan_not_raised (t : ReqId × Nat) (msg : String) : taskPlan (x.worker w) m heap t ≠ .raised msg := by
  intro hr
  unfold taskPlan at hr
  rcases planRequest_cases hx w m (heap t.2).localBlockIds (remoteIds m t.1) with ⟨h, _⟩ | ⟨_, h⟩ | ⟨h, _⟩
  · rw [h] at hr
    cases hr
  · rw [h] at hr
    cases hr
  · rw [h] at hr
    cases hr

theorem task_copies {t : ReqId × Nat} (ht : taskRejected (x.worker w) m heap t = false) :
    copies (taskDescriptors (x.worker w) m heap t) =
      blockCopy x (selectedBlocks w (heap t.2).localBlockIds (remoteIds m t.1)) := by
  unfold taskDescriptors taskRejected taskPlan at *
  rcases planRequest_cases hx w m (heap t.2).localBlockIds (remoteIds m t.1) with ⟨h, hnil⟩ | ⟨_, h⟩ | ⟨h, _⟩
  · rw [h, blockCopy_empty x hnil]
    exact copies_nil
  · rw [h] at ht
    cases ht
  · rw [h]
    exact copies_pairs x _

/-- The descriptors of a pull implement the block copy of every request that is not rejected. -/
theorem descriptors_copy_blocks (ready : List (ReqId × Nat)) (hnd : (ready.map Prod.fst).Nodup) :
    ∃ ps, buildTransferParams (x.worker w) m heap ready = .ok ps ∧
      ps.descriptors = ready.flatMap (taskDescriptors (x.worker w) m heap) ∧
      ∀ t ∈ ready,
        (t.1 ∉ ps.errReqs → copies (taskDescriptors (x.worker w) m heap t) =
          blockCopy x (selectedBlocks w (heap t.2).localBlockIds (remoteIds m t.1))) ∧
        (t.1 ∈ ps.errReqs → taskDescriptors (x.worker w) m heap t = []) := by
  obtain ⟨ps, hps, hds, herr⟩ := buildTransferParams_spec (x.worker w) m heap ready fun t _ => taskPlan_not_raised hx w m heap t
  refine ⟨ps, hps, hds, ?_⟩
  intro t ht
  constructor
  · intro hok
    apply task_copies hx
    by_contra hrej
    apply hok
    rw [herr]
    exact List.mem_map_of_mem (List.mem_filter.mpr ⟨ht, by simpa using hrej⟩)
  · intro hbad
    rw [herr] at hbad
    obtain ⟨t', ht', heq⟩ := List.mem_map.mp hbad
    obtain ⟨ht', hrej⟩ := List.mem_filter.mp ht'
    obtain rfl := List.inj_on_of_nodup_map hnd ht' ht heq
    unfold taskRejected at hrej
    unfold taskDescriptors
    split at hrej
    · rename_i hp
      rw [hp]
    · cases hrej

end

/-! ## One coalesced pull -/

/-- A rank on each side, one region of nine blocks of eight bytes. -/
def oneRegion : RegionTransfer where
  topo := ⟨0, fun remoteTpSize => if remoteTpSize = 1 then 1 else -(remoteTpSize : Int)⟩
  producerCacheReplicated := false
  remoteTpRank := 0
  remoteTpSize := 1
  localRegions := [⟨"layer", 0, 100, 8, 8, 0, some 9⟩]
  remoteRegions := [⟨"layer", 0, 200, 8, 8, 0, some 9⟩]

theorem oneRegion_accepted : oneRegion.Accepted 1 oneRegion.localRegions oneRegion.remoteRegions where
  pos := by decide
  divides := by decide
  ratio := by
    constructor
    · intro D hD
      rw [Nat.dvd_one.mp hD]
      rfl
    · intro D _ hlt
      rw [Nat.div_one]
      exact if_neg (by omega)
  aligned := rfl
  lengths := by decide

def idleWorker : Worker Nat Nat := { abortRequestTimeout := 1, regionPlan := fun _ _ _ => .descriptors [] }

/-- The consumer misses the last two of the producer's three blocks. -/
def twoBlocks : XferMetadata Nat Nat := ⟨[(10, 7, [[5, 6]])], 1, by decide⟩

def threeBlocks (_ : Nat) : SendBlockMeta Nat Nat := { pReqId := none, transferId := 7, localBlockIds := [[2, 3, 4]] }

theorem descriptors_copy_two_blocks :
    ∃ ps, buildTransferParams (oneRegion.worker idleWorker) twoBlocks threeBlocks [(10, 0)] = .ok ps ∧
      ps.descriptors = [(124, 240, 16)] ∧ copies ps.descriptors = blockCopy oneRegion ([[3, 4]], [[5, 6]]) := by
  obtain ⟨ps, hps, hds, ht⟩ := descriptors_copy_blocks oneRegion_accepted idleWorker twoBlocks threeBlocks
    [(10, 0)] (by decide)
  have hcopy := (ht (10, 0) List.mem_cons_self).1
  have hval : buildTransferParams (oneRegion.worker idleWorker) twoBlocks threeBlocks [(10, 0)] =
      .ok { descriptors := [(124, 240, 16)], reads := [(none, [[3, 4]])] } := rfl
  rw [hval] at hps
  cases hps
  exact ⟨_, hval, rfl, hcopy (by simp)⟩

end VllmHcu.Mooncake
