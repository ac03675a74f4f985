import Mathlib.Data.List.Perm.Subperm
import VllmHcu.Mooncake.TransferSound
import VllmHcu.Mooncake.Sender

/-!
# Clipping, filtering and alignment compose

The scheduler of each side sends the block lists of a request group by group. A
sliding-window group is clipped to the blocks of its window, and one more for a
window that starts inside a block.

Both sides list consecutive logical blocks that end at the last block of the
sequence. `window_pairs_same_blocks`: what is left after clipping, the null-block
filter and the suffix slice are the same logical blocks on both sides.
-/

namespace VllmHcu.Mooncake

/-- The spec of a KV-cache group, as far as the connector asks for its class. -/
inductive KVCacheSpec
  | fullAttention
  | slidingWindow (slidingWindow blockSize : Nat)
  | mamba
  | other
deriving DecidableEq

structure SchedulerConfig where
  disableHybridKvCacheManager : Bool
  kvCacheGroups : List KVCacheSpec

namespace SchedulerConfig

def isHmaRequired (c : SchedulerConfig) : Bool :=
  !c.disableHybridKvCacheManager && c.kvCacheGroups.any (· != .fullAttention)

def blocksPerSw (c : SchedulerConfig) : List Nat :=
  c.kvCacheGroups.map fun
    | .slidingWindow nTokens blockSize => if nTokens ≠ 0 then (nTokens + blockSize - 1) / blockSize + 1 else 0
    | _ => 0

def getSwClippedBlocks (c : SchedulerConfig) (blockIds : List (List Int)) : List (List Int) :=
  if blockIds.length == 0 || !c.isHmaRequired then blockIds
  else blockIds.zipIdx.map fun (blocks, i) =>
    let n := c.blocksPerSw.getD i 0
    if 0 < n then blocks.drop (blocks.length - n) else blocks

def isMambaGroup (c : SchedulerConfig) (g : Nat) : Bool := c.kvCacheGroups[g]? == some .mamba

end SchedulerConfig

variable {ReqId TransferId : Type}

/-! ## The block lists of a group -/

/-- One KV group of a request: each side lists its blocks from its first logical block to the last one. -/
structure GroupBlocks where
  last : Nat
  producerFirst : Nat
  consumerFirst : Nat
  producerBlock : Nat → Int
  consumerBlock : Nat → Int

/-- The logical blocks from `first` on. -/
def logicalFrom (first last : Nat) : List Nat := List.range' first (last - first)

namespace GroupBlocks

def producerIds (s : GroupBlocks) : List Int := (logicalFrom s.producerFirst s.last).map s.producerBlock

def consumerIds (s : GroupBlocks) : List Int := (logicalFrom s.consumerFirst s.last).map s.consumerBlock

/-- From the first block that the consumer asks for on, both sides hold the same logical blocks. -/
def NullsAgree (s : GroupBlocks) : Prop :=
  ∀ j' j, s.consumerFirst ≤ j' → j' ≤ j → j < s.last → s.consumerBlock j' ≠ nullBlockId →
    ((s.producerFirst ≤ j ∧ s.producerBlock j ≠ nullBlockId) ↔ s.consumerBlock j ≠ nullBlockId)

end GroupBlocks

theorem mem_logicalFrom {first last j : Nat} : j ∈ logicalFrom first last ↔ first ≤ j ∧ j < last := by
  unfold logicalFrom
  rw [List.mem_range'_1]
  omega

theorem logicalFrom_append {first mid last : Nat} (h₁ : first ≤ mid) (h₂ : mid ≤ last) :
    logicalFrom first mid ++ logicalFrom mid last = logicalFrom first last := by
  obtain ⟨a, rfl⟩ := Nat.exists_eq_add_of_le h₁
  obtain ⟨b, rfl⟩ := Nat.exists_eq_add_of_le h₂
  have hsum : first + a + b - first = a + b := by omega
  unfold logicalFrom
  rw [Nat.add_sub_cancel_left, Nat.add_sub_cancel_left, hsum]
  exact List.range'_append_1

theorem drop_logicalFrom (first last n : Nat) :
    (logicalFrom first last).drop ((logicalFrom first last).length - n) = logicalFrom (max first (last - n)) last := by
  unfold logicalFrom
  rw [List.length_range', List.drop_range']
  by_cases h : first ≤ last
  · congr 1
    · omega
    · omega
  · have h0 : last - first = 0 := by omega
    have h1 : last - max first (last - n) = 0 := by omega
    rw [h0, h1]
    simp

theorem suffix_logicalFrom {a b last : Nat}
    (h : (logicalFrom b last).length ≤ (logicalFrom a last).length) :
    (logicalFrom a last).drop ((logicalFrom a last).length - (logicalFrom b last).length) = logicalFrom b last := by
  rw [drop_logicalFrom]
  unfold logicalFrom at *
  rw [List.length_range', List.length_range'] at *
  by_cases h0 : last - b = 0
  · rw [h0, Nat.sub_zero, Nat.sub_eq_zero_of_le (Nat.le_max_right a last)]
    rfl
  · congr 1
    · omega
    · omega

/-! ## Clipping -/

section
variable (c : SchedulerConfig)

/-- The first logical block after clipping. -/
def SchedulerConfig.clipFirst (g first last : Nat) : Nat :=
  if c.isHmaRequired && 0 < c.blocksPerSw.getD g 0 then max first (last - c.blocksPerSw.getD g 0) else first

theorem getSwClippedBlocks_getElem? (table : GroupBlocks → Nat → Int) (first : GroupBlocks → Nat)
    (gs : List GroupBlocks) (g : Nat) :
    (c.getSwClippedBlocks (gs.map fun s => (logicalFrom (first s) s.last).map (table s)))[g]? =
      gs[g]?.map fun s => (logicalFrom (c.clipFirst g (first s) s.last) s.last).map (table s) := by
  unfold SchedulerConfig.getSwClippedBlocks SchedulerConfig.clipFirst
  by_cases hh : c.isHmaRequired = true
  · cases gs with
    | nil => simp
    | cons s gs =>
      rw [if_neg (by simp [hh]), List.getElem?_map, List.getElem?_zipIdx, List.getElem?_map]
      cases hs : (s :: gs)[g]? with
      | none => rfl
      | some s =>
        simp only [Option.map_some, Nat.zero_add, hh, Bool.true_and, decide_eq_true_eq]
        split
        · rw [← List.map_drop, List.length_map, drop_logicalFrom]
        · rfl
  · rw [if_pos (by simp [hh]), List.getElem?_map]
    simp [hh]

theorem blocksPerSw_mamba {g : Nat} (h : c.isMambaGroup g = true) : c.blocksPerSw.getD g 0 = 0 := by
  unfold SchedulerConfig.isMambaGroup at h
  have h := eq_of_beq h
  unfold SchedulerConfig.blocksPerSw
  rw [List.getD_eq_getElem?_getD, List.getElem?_map, h]
  rfl

end

/-! ## The filter and the suffix -/

/-- The logical blocks of a group that are kept. -/
def keptLogical (isMamba : Bool) (table : Nat → Int) (js : List Nat) : List Nat :=
  if isMamba then js.filter fun j => table j != nullBlockId else js

theorem keptIds_map (isMambaGroup : Nat → Bool) (g : Nat) (table : Nat → Int) (js : List Nat) :
    keptIds isMambaGroup g (js.map table) = (keptLogical (isMambaGroup g) table js).map table := by
  unfold keptIds keptLogical
  split
  · rw [List.filter_map]
    congr 1
    apply List.filter_congr
    intro j _
    by_cases h : table j = nullBlockId
    · simp [h]
    · simp [h]
  · rfl

/-- Where the nulls agree, the producer's suffix is what the consumer asks for. -/
theorem suffix_kept {s : GroupBlocks} (h : s.NullsAgree) :
    (keptLogical true s.producerBlock (logicalFrom s.producerFirst s.last)).drop
        ((keptLogical true s.producerBlock (logicalFrom s.producerFirst s.last)).length -
          (keptLogical true s.consumerBlock (logicalFrom s.consumerFirst s.last)).length) =
      keptLogical true s.consumerBlock (logicalFrom s.consumerFirst s.last) := by
  unfold keptLogical
  simp only [if_true]
  by_cases hex : ∃ j, s.consumerFirst ≤ j ∧ j < s.last ∧ s.consumerBlock j ≠ nullBlockId
  · -- the first block that the consumer asks for splits both lists
    classical
    obtain ⟨hle, hlt, hne⟩ := Nat.find_spec hex
    have hmin : ∀ j, s.consumerFirst ≤ j → j < Nat.find hex → s.consumerBlock j = nullBlockId := by
      intro j hj hjlt
      by_contra hne'
      exact Nat.find_min hex hjlt ⟨hj, by omega, hne'⟩
    generalize Nat.find hex = mid at *
    have hp : s.producerFirst ≤ mid := ((h mid mid hle (le_refl mid) hlt hne).mpr hne).1
    rw [← logicalFrom_append hp hlt.le, ← logicalFrom_append hle hlt.le, List.filter_append, List.filter_append]
    have hhead : (logicalFrom s.consumerFirst mid).filter (fun j => s.consumerBlock j != nullBlockId) = [] := by
      apply List.filter_eq_nil_iff.mpr
      intro j hj
      obtain ⟨h₁, h₂⟩ := mem_logicalFrom.mp hj
      simp [hmin j h₁ h₂]
    have htail : (logicalFrom mid s.last).filter (fun j => s.producerBlock j != nullBlockId) =
        (logicalFrom mid s.last).filter fun j => s.consumerBlock j != nullBlockId := by
      apply List.filter_congr
      intro j hj
      obtain ⟨h₁, h₂⟩ := mem_logicalFrom.mp hj
      have hiff := h mid j hle h₁ h₂ hne
      rw [Bool.eq_iff_iff]
      simp only [bne_iff_ne]
      exact ⟨fun hj => hiff.mp ⟨by omega, hj⟩, fun hj => (hiff.mpr hj).2⟩
    rw [hhead, htail, List.nil_append, List.length_append, Nat.add_sub_cancel]
    exact List.drop_left
  · have hnil : (logicalFrom s.consumerFirst s.last).filter (fun j => s.consumerBlock j != nullBlockId) = [] := by
      apply List.filter_eq_nil_iff.mpr
      intro j hj
      obtain ⟨h₁, h₂⟩ := mem_logicalFrom.mp hj
      have : s.consumerBlock j = nullBlockId := by
        by_contra hne
        exact hex ⟨j, h₁, h₂, hne⟩
      simp [this]
    rw [hnil]
    simp

/-! ## The group loop -/

section
variable {isMambaGroup : Nat → Bool} {g₀ : Nat} {locals remotes : List (List Int)}

theorem alignGroups_getElem? {groups : List (List Int × List Int)} (h : alignGroups isMambaGroup g₀ locals remotes = some groups)
    {g : Nat} {ids rids : List Int} (hl : locals[g]? = some ids) (hr : remotes[g]? = some rids) :
    (keptIds isMambaGroup (g₀ + g) rids).length ≤ (keptIds isMambaGroup (g₀ + g) ids).length ∧
      groups[g]? = some ((keptIds isMambaGroup (g₀ + g) ids).drop
        ((keptIds isMambaGroup (g₀ + g) ids).length - (keptIds isMambaGroup (g₀ + g) rids).length),
        keptIds isMambaGroup (g₀ + g) rids) := by
  induction locals generalizing g₀ g remotes groups with
  | nil => cases hl
  | cons ids' locals ih =>
    cases remotes with
    | nil => cases hr
    | cons rids' remotes =>
      rw [alignGroups_cons] at h
      split at h
      · cases h
      · rename_i hlen
        obtain ⟨rest, hrest, rfl⟩ := Option.map_eq_some_iff.mp h
        cases g with
        | zero =>
          cases hl
          cases hr
          exact ⟨Nat.le_of_not_lt hlen, rfl⟩
        | succ g =>
          have hg : g₀ + (g + 1) = g₀ + 1 + g := by omega
          rw [hg]
          exact ih hrest hl hr

theorem alignGroups_isSome (h : ∀ g ids rids, locals[g]? = some ids → remotes[g]? = some rids →
      (keptIds isMambaGroup (g₀ + g) rids).length ≤ (keptIds isMambaGroup (g₀ + g) ids).length) :
    (alignGroups isMambaGroup g₀ locals remotes).isSome = true := by
  induction locals generalizing g₀ remotes with
  | nil => rfl
  | cons ids locals ih =>
    cases remotes with
    | nil => rfl
    | cons rids remotes =>
      have hhead := h 0 ids rids rfl rfl
      rw [Nat.add_zero] at hhead
      rw [alignGroups_cons, if_neg (Nat.not_lt.mpr hhead), Option.isSome_map]
      apply ih
      intro g ids rids hl hr
      have hg : g₀ + 1 + g = g₀ + (g + 1) := by omega
      rw [hg]
      exact h (g + 1) ids rids hl hr

end

/-! ## Kernel blocks -/

/-- The kernel block of part `j.2` of logical block `j.1`. -/
def kernelId (w : Worker ReqId TransferId) (g : Nat) (table : Nat → Int) (j : Nat × Nat) : Int :=
  if w.physicalBlocksPerLogicalKvBlock = 1 ∨ w.isMambaGroup g = true then table j.1
  else table j.1 * w.physicalBlocksPerLogicalKvBlock + (j.2 : Int)

/-- The kernel blocks of a list of logical blocks, in order. -/
def kernelParts (w : Worker ReqId TransferId) (g : Nat) (js : List Nat) : List (Nat × Nat) :=
  if w.physicalBlocksPerLogicalKvBlock = 1 ∨ w.isMambaGroup g = true then js.map fun j => (j, 0)
  else js.flatMap fun j => (List.range w.physicalBlocksPerLogicalKvBlock).map fun k => (j, k)

theorem logicalToKernelBlockIds_getElem? (w : Worker ReqId TransferId) (groups : List (List Int)) {g : Nat}
    {table : Nat → Int} {js : List Nat} (h : groups[g]? = some (js.map table)) :
    (logicalToKernelBlockIds w groups)[g]? = some ((kernelParts w g js).map (kernelId w g table)) := by
  unfold logicalToKernelBlockIds kernelParts
  by_cases h1 : w.physicalBlocksPerLogicalKvBlock = 1
  · rw [if_pos h1, if_pos (Or.inl h1), h, List.map_map]
    simp [kernelId, h1, Function.comp_def]
  · rw [if_neg h1, List.getElem?_map, List.getElem?_zipIdx, h]
    simp only [Option.map_some, Nat.zero_add, Option.some.injEq]
    by_cases hm : w.isMambaGroup g = true
    · rw [if_pos hm, if_pos (Or.inr hm), List.map_map]
      simp [kernelId, hm, Function.comp_def]
    · rw [if_neg hm, if_neg (by simp [h1, hm]), w.blockTable.expands, kernelBlocks, List.flatMap_map, List.map_flatMap]
      apply List.flatMap_congr
      intro j _
      rw [List.map_map]
      simp [kernelId, h1, hm, Function.comp_def, List.map_eq_flatMap, List.flatMap_assoc]

/-! ## Both sides -/

/-- On both sides the clipped lists of a request. -/
def producerLists (c : SchedulerConfig) (gs : List GroupBlocks) : List (List Int) :=
  c.getSwClippedBlocks (gs.map GroupBlocks.producerIds)

def consumerLists (c : SchedulerConfig) (gs : List GroupBlocks) : List (List Int) :=
  c.getSwClippedBlocks (gs.map GroupBlocks.consumerIds)

/-- The selected blocks of group `g` are the same parts of the same logical blocks. -/
def SameBlocks (w : Worker ReqId TransferId) (sel : List (List Int) × List (List Int)) (g : Nat) (s : GroupBlocks) : Prop :=
  ∃ parts : List (Nat × Nat), sel.1[g]? = some (parts.map (kernelId w g s.producerBlock)) ∧
    sel.2[g]? = some (parts.map (kernelId w g s.consumerBlock))

/-- The producer holds every block of group `g` that the consumer's clipped list asks for. -/
def HoldsAsked (c : SchedulerConfig) (g : Nat) (s : GroupBlocks) : Prop :=
  ∀ j, c.clipFirst g s.consumerFirst s.last ≤ j → j < s.last →
    (c.isMambaGroup g = true → s.consumerBlock j ≠ nullBlockId) →
    s.producerFirst ≤ j ∧ (c.isMambaGroup g = true → s.producerBlock j ≠ nullBlockId)

section
variable {w : Worker ReqId TransferId} {cp cc : SchedulerConfig} {gs : List GroupBlocks}

theorem producerLists_getElem? {g : Nat} {s : GroupBlocks} (hs : gs[g]? = some s) :
    (producerLists cp gs)[g]? = some ((logicalFrom (cp.clipFirst g s.producerFirst s.last) s.last).map s.producerBlock) := by
  have h := getSwClippedBlocks_getElem? cp GroupBlocks.producerBlock GroupBlocks.producerFirst gs g
  rw [hs] at h
  exact h

theorem consumerLists_getElem? {g : Nat} {s : GroupBlocks} (hs : gs[g]? = some s) :
    (consumerLists cc gs)[g]? = some ((logicalFrom (cc.clipFirst g s.consumerFirst s.last) s.last).map s.consumerBlock) := by
  have h := getSwClippedBlocks_getElem? cc GroupBlocks.consumerBlock GroupBlocks.consumerFirst gs g
  rw [hs] at h
  exact h

theorem clipFirst_mamba {c : SchedulerConfig} {g : Nat} (h : c.isMambaGroup g = true) (first last : Nat) :
    c.clipFirst g first last = first := by
  unfold SchedulerConfig.clipFirst
  rw [blocksPerSw_mamba c h]
  simp

theorem isMambaGroup_congr (h : cc.kvCacheGroups = cp.kvCacheGroups) (g : Nat) : cc.isMambaGroup g = cp.isMambaGroup g := by
  unfold SchedulerConfig.isMambaGroup
  rw [h]

theorem aligned_group (hspecs : cc.kvCacheGroups = cp.kvCacheGroups) (hw : w.isMambaGroup = cp.isMambaGroup)
    {groups : List (List Int × List Int)}
    (h : alignGroups w.isMambaGroup 0 (producerLists cp gs) (consumerLists cc gs) = some groups) {g : Nat} {s : GroupBlocks}
    (hs : gs[g]? = some s) (hagree : cp.isMambaGroup g = true → s.NullsAgree) :
    ∃ js : List Nat, groups[g]? = some (js.map s.producerBlock, js.map s.consumerBlock) := by
  have hp := @producerLists_getElem? cp gs g s hs
  have hc := @consumerLists_getElem? cc gs g s hs
  obtain ⟨hlen, hg⟩ := alignGroups_getElem? h hp hc
  simp only [Nat.zero_add, keptIds_map, hw] at hlen hg
  rw [List.length_map, List.length_map] at hlen
  refine ⟨keptLogical (cp.isMambaGroup g) s.consumerBlock (logicalFrom (cc.clipFirst g s.consumerFirst s.last) s.last), ?_⟩
  rw [hg, ← List.map_drop, List.length_map, List.length_map]
  congr 2
  congr 1
  by_cases hm : cp.isMambaGroup g = true
  · have hmc : cc.isMambaGroup g = true := (isMambaGroup_congr hspecs g).trans hm
    rw [clipFirst_mamba hm, clipFirst_mamba hmc, hm]
    exact suffix_kept (hagree hm)
  · unfold keptLogical at *
    simp only [hm, Bool.false_eq_true, if_false] at hlen ⊢
    exact suffix_logicalFrom hlen

/-- The producer has enough blocks where it holds what the consumer asks for. -/
theorem enough_blocks (hspecs : cc.kvCacheGroups = cp.kvCacheGroups) (hclip : cp.isHmaRequired = true → cc.isHmaRequired = true) {g : Nat} {s : GroupBlocks}
    (hheld : HoldsAsked cc g s) :
    (keptLogical (cp.isMambaGroup g) s.consumerBlock (logicalFrom (cc.clipFirst g s.consumerFirst s.last) s.last)).length ≤
      (keptLogical (cp.isMambaGroup g) s.producerBlock (logicalFrom (cp.clipFirst g s.producerFirst s.last) s.last)).length := by
  have hmamba := isMambaGroup_congr hspecs g
  by_cases hm : cp.isMambaGroup g = true
  · have hmc : cc.isMambaGroup g = true := hmamba.trans hm
    unfold keptLogical
    rw [clipFirst_mamba hm, clipFirst_mamba hmc, hm, if_pos rfl, if_pos rfl]
    have hnd : ((logicalFrom s.consumerFirst s.last).filter fun j => s.consumerBlock j != nullBlockId).Nodup :=
      List.Nodup.filter _ List.nodup_range'
    refine (List.subperm_of_subset hnd ?_).length_le
    intro j hj
    obtain ⟨hj, hne⟩ := List.mem_filter.mp hj
    obtain ⟨h₁, h₂⟩ := mem_logicalFrom.mp hj
    rw [bne_iff_ne] at hne
    obtain ⟨hp, hpne⟩ := hheld j (by rw [clipFirst_mamba hmc]; exact h₁) h₂ fun _ => hne
    exact List.mem_filter.mpr ⟨mem_logicalFrom.mpr ⟨hp, h₂⟩, by simpa using hpne hmc⟩
  · have hmc : ¬ cc.isMambaGroup g = true := fun h => hm (hmamba.symm.trans h)
    have hsw : cc.blocksPerSw = cp.blocksPerSw := by
      unfold SchedulerConfig.blocksPerSw
      rw [hspecs]
    unfold keptLogical
    simp only [hm, Bool.false_eq_true, if_false]
    unfold logicalFrom
    rw [List.length_range', List.length_range']
    by_cases hlt : cc.clipFirst g s.consumerFirst s.last < s.last
    · obtain ⟨hp, _⟩ := hheld _ (le_refl _) hlt fun h => absurd h hmc
      suffices h : cp.clipFirst g s.producerFirst s.last ≤ cc.clipFirst g s.consumerFirst s.last by omega
      unfold SchedulerConfig.clipFirst at hp hlt ⊢
      rw [hsw] at hp hlt ⊢
      cases hcp : cp.isHmaRequired with
      | true =>
        rw [hclip hcp] at hp hlt ⊢
        split
        · rename_i hpos
          rw [if_pos hpos] at hp
          omega
        · rename_i hpos
          rw [if_neg hpos] at hp
          omega
      | false => exact hp
    · omega

/-- The group loop, for all groups of a request. -/
theorem window_pairs_same_blocks (hspecs : cc.kvCacheGroups = cp.kvCacheGroups) (hw : w.isMambaGroup = cp.isMambaGroup)
    (gs : List GroupBlocks) :
    ((alignGroups w.isMambaGroup 0 (producerLists cp gs) (consumerLists cc gs)).isSome = true → ∀ g s, gs[g]? = some s →
      (cp.isMambaGroup g = true → s.NullsAgree) →
      SameBlocks w (selectedBlocks w (producerLists cp gs) (consumerLists cc gs)) g s) ∧
    ((cp.isHmaRequired = true → cc.isHmaRequired = true) → (∀ g s, gs[g]? = some s → HoldsAsked cc g s) →
      (alignGroups w.isMambaGroup 0 (producerLists cp gs) (consumerLists cc gs)).isSome = true) := by
  constructor
  · intro hsome g s hs hagree
    obtain ⟨groups, hgroups⟩ := Option.isSome_iff_exists.mp hsome
    obtain ⟨js, hjs⟩ := aligned_group hspecs hw hgroups hs hagree
    have hfst : (groups.map (·.1))[g]? = some (js.map s.producerBlock) := by rw [List.getElem?_map, hjs]; rfl
    have hsnd : (groups.map (·.2))[g]? = some (js.map s.consumerBlock) := by rw [List.getElem?_map, hjs]; rfl
    unfold selectedBlocks
    rw [hgroups]
    exact ⟨kernelParts w g js, logicalToKernelBlockIds_getElem? w _ hfst, logicalToKernelBlockIds_getElem? w _ hsnd⟩
  · intro hclip hheld
    apply alignGroups_isSome
    intro g ids rids hl hr
    cases hs : gs[g]? with
    | none =>
      unfold producerLists at hl
      have hnone := getSwClippedBlocks_getElem? cp GroupBlocks.producerBlock GroupBlocks.producerFirst gs g
      rw [hs] at hnone
      exact absurd (hnone.symm.trans hl) (by simp)
    | some s =>
      rw [producerLists_getElem? hs] at hl
      rw [consumerLists_getElem? hs] at hr
      cases hl
      cases hr
      rw [Nat.zero_add, keptIds_map, keptIds_map, List.length_map, List.length_map, hw]
      exact enough_blocks hspecs hclip (hheld g s hs)

end

/-! ## Two runs that do not pair -/

def mambaWorker : Worker Nat Nat := { idleWorker with isMambaGroup := fun g => g == 1 || g == 2 }

/-- A sliding-window group and two state groups. -/
def hybridConfig : SchedulerConfig := ⟨false, [.slidingWindow 8 4, .mamba, .mamba]⟩

/-- Six blocks, of which the window keeps three; the consumer has the first two cached. -/
def windowGroup : GroupBlocks := ⟨6, 0, 2, fun j => j + 10, fun j => j + 30⟩

/-- The producer holds all three states, the consumer asks for the first and the last. -/
def gapGroup : GroupBlocks := ⟨3, 0, 0, fun j => j + 5, fun j => if j = 1 then 0 else j + 1⟩

/-- One state block behind two placeholders. -/
def stateGroup : GroupBlocks := ⟨3, 0, 0, fun j => if j = 2 then 7 else 0, fun j => if j = 2 then 4 else 0⟩

def hybridGroups : List GroupBlocks := [windowGroup, gapGroup, stateGroup]

theorem window_pairs_hybrid :
    (∀ g s, hybridGroups[g]? = some s → g ≠ 1 →
      SameBlocks mambaWorker (selectedBlocks mambaWorker (producerLists hybridConfig hybridGroups)
        (consumerLists hybridConfig hybridGroups)) g s) ∧
    (alignGroups mambaWorker.isMambaGroup 0 (producerLists hybridConfig hybridGroups)
      (consumerLists hybridConfig hybridGroups)).isSome = true := by
  have hmamba : mambaWorker.isMambaGroup = hybridConfig.isMambaGroup := by
    funext g
    match g with
    | 0 => rfl
    | 1 => rfl
    | 2 => rfl
    | g + 3 => rfl
  have hagree : ∀ g s, hybridGroups[g]? = some s → g ≠ 1 → hybridConfig.isMambaGroup g = true → s.NullsAgree := by
    intro g s hs hne hm
    match g with
    | 0 => cases hm
    | 1 => exact absurd rfl hne
    | 2 =>
      cases hs
      intro j' j _ _ _ _
      by_cases hj : j = 2
      · simp [stateGroup, nullBlockId, hj]
      · simp [stateGroup, nullBlockId, hj]
    | g + 3 => cases hs
  have hheld : ∀ g s, hybridGroups[g]? = some s → HoldsAsked hybridConfig g s := by
    intro g s hs j _ _ hne
    match g with
    | 0 =>
      cases hs
      exact ⟨Nat.zero_le j, fun hm => by cases hm⟩
    | 1 =>
      cases hs
      refine ⟨Nat.zero_le j, fun _ => ?_⟩
      simp only [gapGroup, nullBlockId]
      omega
    | 2 =>
      cases hs
      refine ⟨Nat.zero_le j, fun hm => ?_⟩
      have hj := hne hm
      by_cases hj2 : j = 2
      · simp [stateGroup, nullBlockId, hj2]
      · simp [stateGroup, nullBlockId, hj2] at hj
    | g + 3 => cases hs
  obtain ⟨hpairs, henough⟩ := window_pairs_same_blocks (w := mambaWorker) rfl hmamba hybridGroups
  exact ⟨fun g s hs hne => hpairs rfl g s hs (hagree g s hs hne), henough (fun h => h) hheld⟩

def gapWorker : Worker Nat Nat := { idleWorker with isMambaGroup := fun _ => true }

def clippedConfig : SchedulerConfig := ⟨false, [.slidingWindow 4 4]⟩

def unclippedConfig : SchedulerConfig := ⟨true, [.slidingWindow 4 4]⟩

def fullGroup : GroupBlocks := ⟨4, 0, 0, fun j => j + 1, fun j => j + 1⟩

/-- A placeholder between two states shifts the first one, and a clip on one side only rejects the request. -/
theorem window_pairing_fails :
    (HoldsAsked ⟨false, [.mamba]⟩ 0 gapGroup ∧
      ¬ SameBlocks gapWorker (selectedBlocks gapWorker (producerLists ⟨false, [.mamba]⟩ [gapGroup])
        (consumerLists ⟨false, [.mamba]⟩ [gapGroup])) 0 gapGroup) ∧
    (HoldsAsked unclippedConfig 0 fullGroup ∧
      alignGroups (fun _ => false) 0 (producerLists clippedConfig [fullGroup]) (consumerLists unclippedConfig [fullGroup]) =
        none) := by
  refine ⟨⟨?_, ?_⟩, ?_, rfl⟩
  · intro j _ _ _
    refine ⟨Nat.zero_le j, ?_⟩
    intro _
    simp only [gapGroup, nullBlockId]
    omega
  · rintro ⟨parts, h₁, h₂⟩
    have hsel : selectedBlocks gapWorker (producerLists ⟨false, [.mamba]⟩ [gapGroup])
        (consumerLists ⟨false, [.mamba]⟩ [gapGroup]) = ([[6, 7]], [[1, 3]]) := rfl
    rw [hsel] at h₁ h₂
    simp only [List.getElem?_cons_zero, Option.some.injEq] at h₁ h₂
    obtain ⟨a, rest, rfl, ha, _⟩ := List.map_eq_cons_iff.mp h₁.symm
    obtain ⟨a', rest', heq, ha', _⟩ := List.map_eq_cons_iff.mp h₂.symm
    cases heq
    have hid : ∀ table : Nat → Int, kernelId gapWorker 0 table a = table a.1 := fun table => if_pos (Or.inl rfl)
    rw [hid] at ha ha'
    simp only [gapGroup] at ha ha'
    have h1 : a.1 = 1 := by omega
    rw [if_pos h1] at ha'
    cases ha'
  · intro j _ _ _
    exact ⟨Nat.zero_le j, fun h => by cases h⟩

end VllmHcu.Mooncake
