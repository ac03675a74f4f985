import Mathlib.Data.Nat.Find
import Mathlib.Order.Monotone.Basic
import VllmHcu.Mooncake.Topology

/-!
# An accepted topology serves every rank

`topology_sufficient`: a rejected registration changes nothing, and in an
accepted worker map every rank that a consumer looks up exists; with layer split
the selected PCP ranks send every layer once.
-/

namespace VllmHcu.Mooncake

/-! ## Registration -/

theorem insertKey_of_lookup {κ ν : Type*} [DecidableEq κ] {k : κ} {v : ν} {l : List (κ × ν)}
    (h : l.lookup k = some v) : insertKey k v l = l := by
  induction l with
  | nil => cases h
  | cons p l ih =>
    obtain ⟨k', w⟩ := p
    unfold insertKey
    rw [List.lookup_cons] at h
    by_cases hk : k' = k
    · subst hk
      rw [beq_self_eq_true] at h
      cases h
      exact if_pos rfl
    · rw [beq_eq_false_iff_ne.mpr (Ne.symm hk)] at h
      rw [if_neg hk, ih h]

theorem registerWorker_rejected {workers : Workers} {p : RegisterWorkerPayload} {detail : String}
    (h : (registerWorker workers p).1 = .error detail) : (registerWorker workers p).2 = workers := by
  unfold registerWorker at *
  split
  · rfl
  · rename_i hpcp
    rw [if_neg hpcp] at h
    split
    · rfl
    · rename_i hneg
      rw [if_neg hneg] at h
      cases hdp : workers.lookup p.dpRank with
      | none =>
        -- a new engine has the payload's own topology and no worker, so nothing rejects it
        exfalso
        simp [hdp, lookup_insertKey_self] at h
      | some dpEntry =>
        simp only [hdp, Option.isNone_some, Bool.false_eq_true, if_false] at h ⊢
        split
        · rfl
        · rename_i hengine
          rw [if_neg hengine] at h
          split
          · rfl
          · rename_i htopo
            rw [if_neg htopo] at h
            cases htp : dpEntry.workerAddr.lookup p.tpRank with
            | none =>
              exfalso
              simp [htp, lookup_insertKey_self] at h
            | some tpEntry =>
              simp only [htp, Option.isNone_some, Bool.false_eq_true, if_false, Option.getD_some] at h ⊢
              split
              · exact insertKey_of_lookup hdp
              · rename_i hpp
                rw [hpp] at h
                cases h

/-- The registry after a sequence of calls. -/
def registerAll (workers : Workers) (ps : List RegisterWorkerPayload) : Workers :=
  ps.foldl (fun workers p => (registerWorker workers p).2) workers

/-! ## Layer ranges -/

theorem exists_unique_cell {f : Nat → Nat} (hf : Monotone f) (h0 : f 0 = 0) {n x : Nat} (hx : x < f n) :
    ∃! k, k < n ∧ f k ≤ x ∧ x < f (k + 1) := by
  classical
  have hex : ∃ m, x < f m := ⟨n, hx⟩
  have hspec := Nat.find_spec hex
  have hmin : ∀ k, k < Nat.find hex → f k ≤ x := fun k hk => Nat.le_of_not_lt (Nat.find_min hex hk)
  have hle : Nat.find hex ≤ n := Nat.find_min' hex hx
  have hpos : Nat.find hex ≠ 0 := by
    intro hz
    rw [hz, h0] at hspec
    omega
  generalize Nat.find hex = m at *
  obtain ⟨k, rfl⟩ : ∃ k, m = k + 1 := ⟨m - 1, by omega⟩
  refine ⟨k, ⟨by omega, hmin k (Nat.lt_succ_self k), hspec⟩, ?_⟩
  rintro j ⟨_, hj₁, hj₂⟩
  by_contra hne
  rcases Nat.lt_or_gt_of_ne hne with hlt | hlt
  · have := hmin (j + 1) (by omega)
    omega
  · have := hf (show k + 1 ≤ j by omega)
    omega

theorem shardRange_unique {shardSize totalLayers : Nat} (hs : 0 < shardSize) {layer : Nat} (hl : layer < totalLayers) :
    ∃! rank, rank < shardSize ∧ (Dsa.getLayerShardRange rank shardSize totalLayers).1 ≤ layer ∧
      layer < (Dsa.getLayerShardRange rank shardSize totalLayers).2 := by
  have hstop : ∀ rank, (Dsa.getLayerShardRange rank shardSize totalLayers).2 =
      (Dsa.getLayerShardRange (rank + 1) shardSize totalLayers).1 := by
    intro rank
    simp only [Dsa.getLayerShardRange, Nat.add_one_mul]
    split
    · omega
    · omega
  simp only [hstop]
  apply exists_unique_cell
  · apply monotone_nat_of_le_succ
    intro rank
    rw [← hstop]
    simp only [Dsa.getLayerShardRange]
    exact (Nat.le_add_right _ _).trans (Nat.le_add_right _ _)
  · simp [Dsa.getLayerShardRange]
  · have hdiv := Nat.div_add_mod totalLayers shardSize
    have hmod := Nat.mod_lt totalLayers hs
    simp only [Dsa.getLayerShardRange]
    rw [Nat.min_eq_right hmod.le, hdiv]
    exact hl

theorem dsaOwnsLayer_unique {pcpSize : Nat} (hpcp : 0 < pcpSize) (totalLayers layer : Nat) :
    ∃! k, k < pcpSize ∧ dsaOwnsLayer k pcpSize totalLayers layer = true := by
  unfold dsaOwnsLayer
  by_cases hdraft : totalLayers ≤ layer
  · simp only [if_pos hdraft, beq_iff_eq]
    refine ⟨pcpSize - 1, ⟨by omega, rfl⟩, ?_⟩
    rintro k ⟨_, hk⟩
    exact hk
  · simp only [if_neg hdraft, decide_eq_true_eq]
    exact shardRange_unique hpcp (Nat.lt_of_not_le hdraft)

/-! ## Accepted worker maps -/

theorem mem_rangeInt {n : Nat} {x : Int} : x ∈ rangeInt n ↔ 0 ≤ x ∧ x < n := by
  unfold rangeInt
  rw [List.mem_map]
  constructor
  · rintro ⟨i, hi, rfl⟩
    have := List.mem_range.mp hi
    omega
  · rintro ⟨h0, hlt⟩
    exact ⟨x.toNat, List.mem_range.mpr (by omega), by omega⟩

theorem rangeInt_toNat (n : Nat) : (rangeInt n).map Int.toNat = List.range n := by
  unfold rangeInt
  rw [List.map_map]
  exact List.map_id'' (fun i => Int.toNat_natCast i) _

/-- What the topology check leaves: dense or strided virtual ranks, and dense PP ranks at each. -/
structure AcceptedTopology (workerAddr : WorkerAddr) (pcpSize : Nat) (layerSplit : Bool) : Prop where
  pos : 0 < pcpSize
  dense : layerSplit = true → (workerAddr.map Prod.fst).Perm (rangeInt workerAddr.length) ∧ pcpSize ∣ workerAddr.length
  strided : layerSplit = false →
    (workerAddr.map Prod.fst).Perm ((rangeInt workerAddr.length).map (· * (pcpSize : Int)))
  pp : ∀ entry ∈ workerAddr, (entry.2.map Prod.fst).Perm (rangeInt entry.2.length)

theorem perm_of_sorted {keys l : List Int} (h : keys.mergeSort = l) : keys.Perm l := by
  rw [← h]
  exact (List.mergeSort_perm keys _).symm

theorem validatePpRanks_spec {workerAddr : WorkerAddr} (h : validatePpRanks workerAddr = .ok ()) {entry : Int × List (Int × String)}
    (he : entry ∈ workerAddr) : (entry.2.map Prod.fst).Perm (rangeInt entry.2.length) := by
  unfold validatePpRanks at h
  obtain ⟨_, hone, hrange⟩ := bind_eq_ok.mp h
  have hone := ensure_eq_ok.mp hone
  have hrange := ensure_eq_ok.mp hrange
  obtain ⟨ppRanks, hset⟩ := List.length_eq_one_iff.mp hone
  rw [hset] at hrange
  have hsorted : (entry.2.map Prod.fst).mergeSort = ppRanks := by
    have hm : (entry.2.map Prod.fst).mergeSort ∈ (workerAddr.map fun entry => (entry.2.map Prod.fst).mergeSort).dedup :=
      List.mem_dedup.mpr (List.mem_map_of_mem he)
    rw [hset] at hm
    exact List.mem_singleton.mp hm
  have hlen : ppRanks.length = entry.2.length := by
    rw [← hsorted, List.length_mergeSort, List.length_map]
  refine perm_of_sorted (hsorted.trans ?_)
  rw [← hlen]
  exact hrange

theorem validate_accepted {workerAddr : WorkerAddr} {pcpSize : Nat} {layerSplit : Bool}
    (h : validateBootstrapWorkerTopology workerAddr pcpSize layerSplit = .ok ()) :
    AcceptedTopology workerAddr pcpSize layerSplit := by
  unfold validateBootstrapWorkerTopology at h
  obtain ⟨_, hpos, h⟩ := bind_eq_ok.mp h
  obtain ⟨_, _, h⟩ := bind_eq_ok.mp h
  obtain ⟨_, hranks, hpp⟩ := bind_eq_ok.mp h
  have hpos := ensure_eq_ok.mp hpos
  have hlen : ((workerAddr.map Prod.fst).mergeSort).length = workerAddr.length := by
    rw [List.length_mergeSort, List.length_map]
  refine ⟨by exact_mod_cast hpos, ?_, ?_, fun entry he => validatePpRanks_spec hpp he⟩
  · rintro rfl
    unfold validateVirtualRanks at hranks
    rw [if_pos rfl] at hranks
    obtain ⟨_, hrange, hdvd⟩ := bind_eq_ok.mp hranks
    have hrange := ensure_eq_ok.mp hrange
    have hdvd := ensure_eq_ok.mp hdvd
    rw [hlen] at hrange hdvd
    exact ⟨perm_of_sorted hrange, by exact_mod_cast Int.dvd_of_emod_eq_zero hdvd⟩
  · rintro rfl
    unfold validateVirtualRanks at hranks
    rw [if_neg (by simp)] at hranks
    obtain ⟨_, _, hrange⟩ := bind_eq_ok.mp hranks
    have hrange := ensure_eq_ok.mp hrange
    rw [hlen] at hrange
    exact perm_of_sorted hrange

/-! ## What a consumer looks up -/

/-- The PP ranks that `receive_kv` selects at a virtual rank. -/
def selectedPpRanks (ppSize ppRank : Nat) (ppToAddr : List (Nat × String)) : List Nat :=
  if ppSize = ppToAddr.length ∧ (ppToAddr.lookup ppRank).isSome then [ppRank] else (ppToAddr.map Prod.fst).mergeSort

section
variable {workerAddr : WorkerAddr} {pcpSize : Nat} {layerSplit : Bool}

theorem remoteAgents_keys (hv : AcceptedTopology workerAddr pcpSize layerSplit) {entry : Nat × List (Nat × String)} (he : entry ∈ remoteAgents workerAddr) :
    (entry.2.map Prod.fst).Nodup := by
  obtain ⟨⟨tpRank, ppToAddr⟩, hm, rfl⟩ := List.mem_map.mp he
  have hperm := (hv.pp _ hm).map Int.toNat
  rw [rangeInt_toNat, List.map_map] at hperm
  simp only [List.map_map]
  exact hperm.nodup_iff.mpr List.nodup_range

theorem remoteAgents_lookup {v : Nat} (h : (v : Int) ∈ workerAddr.map Prod.fst) :
    ∃ ppToAddr, (remoteAgents workerAddr).lookup v = some ppToAddr ∧ (v, ppToAddr) ∈ remoteAgents workerAddr := by
  have hkey : v ∈ (remoteAgents workerAddr).map Prod.fst := by
    obtain ⟨entry, hm, he⟩ := List.mem_map.mp h
    unfold remoteAgents
    rw [List.map_map, List.mem_map]
    exact ⟨entry, hm, by simp [he]⟩
  obtain ⟨ppToAddr, hl⟩ := Option.isSome_iff_exists.mp (lookup_isSome.mpr hkey)
  exact ⟨ppToAddr, hl, mem_of_lookup hl⟩

theorem selectedPpRanks_ok {ppToAddr : List (Nat × String)} (hn : (ppToAddr.map Prod.fst).Nodup) (ppSize ppRank : Nat) :
    (selectedPpRanks ppSize ppRank ppToAddr).Nodup ∧
      ∀ pp ∈ selectedPpRanks ppSize ppRank ppToAddr, (ppToAddr.lookup pp).isSome = true := by
  unfold selectedPpRanks
  split
  · rename_i h
    refine ⟨List.nodup_singleton _, ?_⟩
    intro pp hpp
    rw [List.mem_singleton.mp hpp]
    exact h.2
  · refine ⟨(List.mergeSort_perm _ _).nodup_iff.mpr hn, ?_⟩
    intro pp hpp
    exact lookup_isSome.mpr ((List.mergeSort_perm _ _).mem_iff.mp hpp)

theorem virtualRanks_registered (hv : AcceptedTopology workerAddr pcpSize layerSplit) {r : Nat} (hr : r < recordedTpSize workerAddr pcpSize layerSplit) {v : Nat}
    (h : v ∈ virtualRanks ⟨[r], pcpSize, layerSplit, remoteAgents workerAddr⟩) : (v : Int) ∈ workerAddr.map Prod.fst := by
  have hpos := hv.pos
  unfold recordedTpSize at hr
  unfold virtualRanks at h
  dsimp only at h
  cases layerSplit with
  | true =>
    obtain ⟨hperm, hdvd⟩ := hv.dense rfl
    rw [if_pos rfl] at hr
    have hlt : (r + 1) * pcpSize ≤ workerAddr.length := by
      calc (r + 1) * pcpSize
        _ ≤ workerAddr.length / pcpSize * pcpSize := Nat.mul_le_mul_right pcpSize hr
        _ ≤ workerAddr.length := Nat.div_mul_le_self _ _
    rw [Nat.add_one_mul] at hlt
    rw [hperm.mem_iff, mem_rangeInt]
    split at h
    · simp only [Bool.not_true, Bool.false_eq_true, if_false, List.flatMap_cons, List.flatMap_nil, List.append_nil] at h
      obtain ⟨k, hk, rfl⟩ := List.mem_map.mp h
      have := List.mem_range.mp hk
      omega
    · have h1 : pcpSize = 1 := by omega
      subst h1
      rw [List.mem_singleton.mp h]
      omega
  | false =>
    have hperm := hv.strided rfl
    rw [if_neg (by simp)] at hr
    rw [hperm.mem_iff, List.mem_map]
    refine ⟨(r : Int), mem_rangeInt.mpr (by omega), ?_⟩
    split at h
    · simp only [Bool.not_false, if_true, List.map_cons, List.map_nil] at h
      rw [List.mem_singleton.mp h]
      push_cast
      rfl
    · have h1 : pcpSize = 1 := by omega
      subst h1
      rw [List.mem_singleton.mp h]
      simp

theorem virtualRanks_split {r : Nat} (hpos : 0 < pcpSize) (agents : List (Nat × List (Nat × String))) :
    virtualRanks ⟨[r], pcpSize, true, agents⟩ = (List.range pcpSize).map fun k => r * pcpSize + k := by
  unfold virtualRanks
  dsimp only
  split
  · simp
  · have h1 : pcpSize = 1 := by omega
    subst h1
    simp [List.range_succ]

theorem virtualRanks_nodup {r : Nat} (hpos : 0 < pcpSize) (agents : List (Nat × List (Nat × String))) :
    (virtualRanks ⟨[r], pcpSize, layerSplit, agents⟩).Nodup := by
  cases layerSplit with
  | true =>
    rw [virtualRanks_split hpos]
    apply List.Nodup.map _ List.nodup_range
    intro k k' hk
    exact Nat.add_left_cancel hk
  | false =>
    unfold virtualRanks
    dsimp only
    split
    · exact List.nodup_singleton _
    · exact List.nodup_singleton _

theorem workerAddrs_isSome {e : RemoteEngine} (ppSize ppRank : Nat)
    (h : ∀ v ∈ virtualRanks e, ∃ ppToAddr, e.remoteAgents.lookup v = some ppToAddr ∧ (ppToAddr.map Prod.fst).Nodup) :
    (workerAddrs ppSize ppRank e).isSome = true := by
  have hranks : ((virtualRanks e).mapM fun remoteTpRank => do
      let ppToAddr ← e.remoteAgents.lookup remoteTpRank
      (selectedPpRanks ppSize ppRank ppToAddr).mapM fun pp => ppToAddr.lookup pp).isSome = true := by
    apply mapM_isSome
    intro v hv
    obtain ⟨ppToAddr, hl, hn⟩ := h v hv
    rw [hl]
    exact mapM_isSome (selectedPpRanks_ok hn ppSize ppRank).2
  obtain ⟨addrs, haddrs⟩ := Option.isSome_iff_exists.mp hranks
  have heq : workerAddrs ppSize ppRank e = some addrs.flatten := congrArg (fun o => o.bind fun addrs => some addrs.flatten) haddrs
  rw [heq]
  rfl

/-- What a consumer with the given PP layout finds for producer rank `r`. -/
structure Served (workerAddr : WorkerAddr) (pcpSize : Nat) (layerSplit : Bool) (r ppSize ppRank : Nat) : Prop where
  ranks : (virtualRanks ⟨[r], pcpSize, layerSplit, remoteAgents workerAddr⟩).Nodup
  workers : ∀ v ∈ virtualRanks ⟨[r], pcpSize, layerSplit, remoteAgents workerAddr⟩,
    ∃ ppToAddr, (remoteAgents workerAddr).lookup v = some ppToAddr ∧ (selectedPpRanks ppSize ppRank ppToAddr).Nodup ∧
      ∀ pp ∈ selectedPpRanks ppSize ppRank ppToAddr, (ppToAddr.lookup pp).isSome = true
  found : (workerAddrs ppSize ppRank ⟨[r], pcpSize, layerSplit, remoteAgents workerAddr⟩).isSome = true
  pcpRanks : layerSplit = true → virtualRanks ⟨[r], pcpSize, layerSplit, remoteAgents workerAddr⟩ =
    (List.range pcpSize).map fun k => r * pcpSize + k
  layers : layerSplit = true → ∀ totalLayers layer, ∃! k, k < pcpSize ∧
    r * pcpSize + k ∈ virtualRanks ⟨[r], pcpSize, layerSplit, remoteAgents workerAddr⟩ ∧
      dsaOwnsLayer k pcpSize totalLayers layer = true

/-- Registration is all or nothing, and an accepted worker map serves every producer rank. -/
theorem topology_sufficient :
    (∀ (workers : Workers) (ps : List RegisterWorkerPayload) (p : RegisterWorkerPayload) (detail : String),
      (registerWorker (registerAll workers ps) p).1 = .error detail →
        registerAll workers (ps ++ [p]) = registerAll workers ps) ∧
    ∀ (workerAddr : WorkerAddr) (pcpSize : Nat) (layerSplit : Bool),
      validateBootstrapWorkerTopology workerAddr pcpSize layerSplit = .ok () →
      ∀ r < recordedTpSize workerAddr pcpSize layerSplit, ∀ ppSize ppRank,
        Served workerAddr pcpSize layerSplit r ppSize ppRank := by
  constructor
  · intro workers ps p detail h
    unfold registerAll at *
    rw [List.foldl_append]
    exact registerWorker_rejected h
  intro workerAddr pcpSize layerSplit hval r hr ppSize ppRank
  have hv := validate_accepted hval
  have hworkers : ∀ v ∈ virtualRanks ⟨[r], pcpSize, layerSplit, remoteAgents workerAddr⟩,
      ∃ ppToAddr, (remoteAgents workerAddr).lookup v = some ppToAddr ∧ (ppToAddr.map Prod.fst).Nodup := by
    intro v hm
    obtain ⟨ppToAddr, hl, hmem⟩ := remoteAgents_lookup (virtualRanks_registered hv hr hm)
    exact ⟨ppToAddr, hl, remoteAgents_keys hv hmem⟩
  refine ⟨virtualRanks_nodup hv.pos _, ?_, workerAddrs_isSome ppSize ppRank hworkers, ?_, ?_⟩
  · intro v hm
    obtain ⟨ppToAddr, hl, hn⟩ := hworkers v hm
    exact ⟨ppToAddr, hl, selectedPpRanks_ok hn ppSize ppRank⟩
  · rintro rfl
    exact virtualRanks_split hv.pos _
  · rintro rfl totalLayers layer
    rw [virtualRanks_split hv.pos]
    obtain ⟨k, ⟨hk, howns⟩, huniq⟩ := dsaOwnsLayer_unique hv.pos totalLayers layer
    refine ⟨k, ⟨hk, List.mem_map_of_mem (List.mem_range.mpr hk), howns⟩, ?_⟩
    rintro j ⟨hj, _, hjo⟩
    exact huniq j ⟨hj, hjo⟩

end

/-- Two PCP ranks of one TP rank, with one PP stage. -/
def twoPcpRanks : WorkerAddr := [(0, [(0, "first")]), (1, [(0, "second")])]

theorem topology_sufficient_two_ranks : Served twoPcpRanks 2 true 0 1 0 := by
  have hval : validateBootstrapWorkerTopology twoPcpRanks (2 : Nat) true = .ok () := by
    have hsort : ([0, 1] : List Int).mergeSort = [0, 1] := List.mergeSort_of_pairwise (by decide)
    simp [validateBootstrapWorkerTopology, validateVirtualRanks, validatePpRanks, twoPcpRanks, ensure, rangeInt, hsort]
    rfl
  exact topology_sufficient.2 twoPcpRanks 2 true hval 0 (by decide) 1 0

end VllmHcu.Mooncake
