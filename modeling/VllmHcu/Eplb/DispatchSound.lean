import Mathlib.Data.List.Count
import VllmHcu.Eplb.Dispatch

/-!
# The primaries of a replica map are local and fair

Each choice takes a replica that no replica of its node is behind, so the
counts of a node never drift more than one apart. A rank is left open by a pass
only where the tier of that pass has no replica for it.
-/

namespace VllmHcu.Eplb

/-! ## Best tiers and fair drafts -/

/-- `c` is a replica in the best tier that `rank` has. -/
def Best (t : Topology) (candidates : List Nat) (rank c : Nat) : Prop :=
  c ∈ candidates ∧ ∀ c' ∈ candidates, t.distance rank c ≤ t.distance rank c'

structure Fair {σ : Type} (t : Topology) (candidates : List Nat) (d : Draft σ) : Prop where
  length : d.assignments.length = t.epSize
  count : ∀ c, d.assignmentCounts c = d.assignments.count (some c)
  best : ∀ r c, d.assignments[r]? = some (some c) → Best t candidates r c
  balanced : ∀ a ∈ candidates, ∀ b ∈ candidates, t.nodeOf a = t.nodeOf b →
    d.assignmentCounts a ≤ d.assignmentCounts b + 1

namespace Topology
variable (t : Topology)

theorem gpuOf_node (c : Nat) : t.gpuOf c / t.numGpusPerNode = t.nodeOf c := Nat.div_div_eq_div_mul ..

theorem distance_gpu {rank c : Nat} (h : t.gpuOf c = rank) : t.distance rank c = 0 := if_pos h

theorem distance_node {rank c : Nat} (hg : t.gpuOf c ≠ rank) (h : t.nodeOf c = rank / t.numGpusPerNode) :
    t.distance rank c = 1 := by
  unfold distance
  rw [if_neg hg, gpuOf_node, if_pos h]

theorem distance_far {rank c : Nat} (hg : t.gpuOf c ≠ rank) (h : t.nodeOf c ≠ rank / t.numGpusPerNode) :
    t.distance rank c = 2 := by
  unfold distance
  rw [if_neg hg, gpuOf_node, if_neg h]

theorem distance_le_two (rank c : Nat) : t.distance rank c ≤ 2 := by
  unfold distance
  split
  · exact Nat.zero_le 2
  · split
    · exact Nat.le_succ 1
    · exact Nat.le_refl 2

end Topology

section
variable {t : Topology} {candidates : List Nat} {rank c : Nat}

theorem mem_localCandidates {gpu : Nat} : c ∈ localCandidates t candidates gpu ↔ c ∈ candidates ∧ t.gpuOf c = gpu := by
  unfold localCandidates
  simp

theorem mem_nodeCandidates {node : Nat} :
    c ∈ nodeCandidates t candidates node ↔ c ∈ candidates ∧ t.nodeOf c = node := by
  unfold nodeCandidates
  simp

theorem best_local (h : c ∈ localCandidates t candidates rank) : Best t candidates rank c := by
  obtain ⟨hc, hg⟩ := mem_localCandidates.mp h
  refine ⟨hc, fun c' _ => ?_⟩
  rw [t.distance_gpu hg]
  exact Nat.zero_le _

theorem gpuOf_ne_of_local (hl : localCandidates t candidates rank = []) (hc : c ∈ candidates) : t.gpuOf c ≠ rank := by
  intro hg
  have := mem_localCandidates.mpr ⟨hc, hg⟩
  rw [hl] at this
  cases this

theorem best_node (hl : localCandidates t candidates rank = [])
    (h : c ∈ nodeCandidates t candidates (rank / t.numGpusPerNode)) : Best t candidates rank c := by
  obtain ⟨hc, hn⟩ := mem_nodeCandidates.mp h
  refine ⟨hc, fun c' hc' => ?_⟩
  rw [t.distance_node (gpuOf_ne_of_local hl hc) hn]
  by_cases hn' : t.nodeOf c' = rank / t.numGpusPerNode
  · rw [t.distance_node (gpuOf_ne_of_local hl hc') hn']
  · rw [t.distance_far (gpuOf_ne_of_local hl hc') hn']
    exact Nat.le_succ 1

theorem best_far (hl : localCandidates t candidates rank = [])
    (hn : nodeCandidates t candidates (rank / t.numGpusPerNode) = []) (hc : c ∈ candidates) :
    Best t candidates rank c := by
  refine ⟨hc, fun c' hc' => ?_⟩
  have hfar : t.nodeOf c' ≠ rank / t.numGpusPerNode := fun h => by
    have := mem_nodeCandidates.mpr ⟨hc', h⟩
    rw [hn] at this
    cases this
  rw [t.distance_far (gpuOf_ne_of_local hl hc') hfar]
  exact t.distance_le_two rank c

end

/-! ## One choice -/

section
variable {σ : Type} {t : Topology} {candidates : List Nat} {d : Draft σ} {rank c : Nat} {s : σ}

theorem Draft.isOpen_lt (h : d.isOpen rank) : rank < d.assignments.length :=
  (List.getElem?_eq_some_iff.mp h).1

theorem Draft.isOpen_assigned (r : Nat) : (d.assigned rank c s).isOpen r ↔ d.isOpen r ∧ r ≠ rank := by
  unfold Draft.isOpen
  change (d.assignments.set rank (some c))[r]? = some none ↔ _
  rw [List.getElem?_set]
  by_cases hr : rank = r
  · subst hr
    rw [if_pos rfl]
    split <;> simp
  · rw [if_neg hr]
    exact ⟨fun h => ⟨h, Ne.symm hr⟩, And.left⟩

theorem Fair.withState (hf : Fair t candidates d) : Fair t candidates { d with state := s } :=
  ⟨hf.length, hf.count, hf.best, hf.balanced⟩

theorem Fair.assigned (hf : Fair t candidates d) (ho : d.isOpen rank) (hb : Best t candidates rank c)
    (hmin : ∀ b ∈ candidates, t.nodeOf b = t.nodeOf c → d.assignmentCounts c ≤ d.assignmentCounts b) :
    Fair t candidates (d.assigned rank c s) where
  length := by
    change (d.assignments.set rank (some c)).length = _
    rw [List.length_set, hf.length]
  count a := by
    change (if a = c then _ else _) = (d.assignments.set rank (some c)).count (some a)
    have hlt := Draft.isOpen_lt ho
    have hopen : d.assignments[rank] = none := (List.getElem?_eq_some_iff.mp ho).2
    rw [List.count_set hlt, hopen, hf.count]
    by_cases ha : a = c
    · subst ha
      simp
    · simp [ha, Ne.symm ha]
  best r a h := by
    change (d.assignments.set rank (some c))[r]? = _ at h
    rw [List.getElem?_set] at h
    by_cases hr : rank = r
    · subst hr
      rw [if_pos rfl, if_pos (Draft.isOpen_lt ho)] at h
      cases h
      exact hb
    · rw [if_neg hr] at h
      exact hf.best r a h
  balanced a ha b hb' hn := by
    change (if a = c then _ else _) ≤ (if b = c then _ else _) + 1
    have hab := hf.balanced a ha b hb' hn
    by_cases hac : a = c
    · subst hac
      -- the chosen replica was not ahead of any of its node
      have := hmin b hb' hn.symm
      rw [if_pos rfl]
      split <;> omega
    · rw [if_neg hac]
      split <;> omega

end

section
variable {rng : Rng} {t : Topology} {candidates pool : List Nat}

variable (rng) in
theorem chooseLeastAssigned_spec (counts : Nat → Nat) (s : rng.State) (h : pool ≠ []) :
    ∃ c s', chooseLeastAssigned rng pool counts s = .ok (c, s') ∧ c ∈ pool ∧ ∀ b ∈ pool, counts c ≤ counts b := by
  have hperm := rng.shuffle_perm s pool
  cases hc : (rng.shuffle s pool).1.argmin counts with
  | none =>
    have := List.argmin_eq_none.mp hc
    rw [this] at hperm
    exact absurd hperm.nil_eq.symm h
  | some c =>
    refine ⟨c, (rng.shuffle s pool).2, ?_, hperm.mem_iff.mp (List.argmin_mem hc), ?_⟩
    · unfold chooseLeastAssigned
      exact bind_eq_ok.mpr ⟨c, expect_eq_ok.mpr hc, rfl⟩
    · intro b hb
      exact List.le_of_mem_argmin (hperm.mem_iff.mpr hb) hc

theorem assignRank_fair {d : Draft rng.State} {rank : Nat} (hf : Fair t candidates d) (ho : d.isOpen rank)
    (hp : pool ≠ []) (hb : ∀ c ∈ pool, Best t candidates rank c)
    (hmin : ∀ c ∈ pool, (∀ b ∈ pool, d.assignmentCounts c ≤ d.assignmentCounts b) →
      ∀ b ∈ candidates, t.nodeOf b = t.nodeOf c → d.assignmentCounts c ≤ d.assignmentCounts b) :
    ∃ c s, c ∈ pool ∧ assignRank rng pool d rank = .ok (d.assigned rank c s) ∧
      Fair t candidates (d.assigned rank c s) := by
  obtain ⟨c, s, hok, hc, hle⟩ := chooseLeastAssigned_spec rng d.assignmentCounts d.state hp
  refine ⟨c, s, hc, ?_, hf.assigned ho (hb c hc) (hmin c hc hle)⟩
  unfold assignRank
  exact bind_eq_ok.mpr ⟨_, hok, rfl⟩

/-! ## One pool over its open ranks -/

theorem assignRanks_fair (hp : pool ≠ []) (hnode : ∀ c ∈ pool, ∀ b ∈ candidates, t.nodeOf b = t.nodeOf c → b ∈ pool) :
    ∀ {ranks : List Nat} {d : Draft rng.State}, Fair t candidates d → ranks.Nodup →
      (∀ r ∈ ranks, d.isOpen r ∧ ∀ c ∈ pool, Best t candidates r c) →
      ∃ d', ranks.foldlM (assignRank rng pool) d = .ok d' ∧ Fair t candidates d' ∧
        ∀ r, d'.isOpen r ↔ d.isOpen r ∧ r ∉ ranks
  | [], d, hf, _, _ => ⟨d, rfl, hf, fun r => by simp⟩
  | rank :: ranks, d, hf, hn, h => by
    obtain ⟨ho, hb⟩ := h rank List.mem_cons_self
    obtain ⟨c, s, _, hok, hf'⟩ := assignRank_fair hf ho hp hb fun c hc hle b hbc hbn => hle b (hnode c hc b hbc hbn)
    obtain ⟨hnot, hn'⟩ := List.nodup_cons.mp hn
    obtain ⟨d', hok', hfair, hopen⟩ := assignRanks_fair hp hnode hf' hn' fun r hr => by
      obtain ⟨hor, hbr⟩ := h r (List.mem_cons_of_mem _ hr)
      exact ⟨(Draft.isOpen_assigned r).mpr ⟨hor, fun he => hnot (he ▸ hr)⟩, hbr⟩
    refine ⟨d', ?_, hfair, fun r => ?_⟩
    · rw [List.foldlM_cons, hok]
      exact hok'
    · rw [hopen, Draft.isOpen_assigned, List.mem_cons, not_or, and_assoc]

theorem assignOpen_fair (d : Draft rng.State) (ranks : List Nat) (hp : pool ≠ [])
    (hnode : ∀ c ∈ pool, ∀ b ∈ candidates, t.nodeOf b = t.nodeOf c → b ∈ pool) (hf : Fair t candidates d)
    (hn : ranks.Nodup) (hb : ∀ r ∈ ranks, d.isOpen r → ∀ c ∈ pool, Best t candidates r c) :
    ∃ d', assignOpen rng pool ranks d = .ok d' ∧ Fair t candidates d' ∧
      ∀ r, d'.isOpen r ↔ d.isOpen r ∧ r ∉ ranks := by
  have hperm := rng.shuffle_perm d.state (ranks.filter fun rank => d.isOpen rank)
  have hmem : ∀ r, r ∈ (rng.shuffle d.state (ranks.filter fun rank => d.isOpen rank)).1 ↔ r ∈ ranks ∧ d.isOpen r := by
    intro r
    rw [hperm.mem_iff]
    simp
  obtain ⟨d', hok, hfair, hopen⟩ := assignRanks_fair hp hnode (hf.withState (s := (rng.shuffle d.state
    (ranks.filter fun rank => d.isOpen rank)).2)) (hperm.nodup_iff.mpr (hn.filter _)) fun r hr =>
      ⟨((hmem r).mp hr).2, hb r ((hmem r).mp hr).1 ((hmem r).mp hr).2⟩
  refine ⟨d', hok, hfair, fun r => ?_⟩
  rw [hopen, hmem]
  change d.isOpen r ∧ _ ↔ _
  tauto

/-! ## The three passes -/

/-- After the GPUs below `k`. -/
structure GpusDone {σ : Type} (t : Topology) (candidates : List Nat) (k : Nat) (d : Draft σ) : Prop where
  fair : Fair t candidates d
  isOpen : ∀ r, d.isOpen r ↔ r < t.epSize ∧ (k ≤ r ∨ localCandidates t candidates r = [])
  unused : ∀ c, k ≤ t.gpuOf c → d.assignmentCounts c = 0

theorem emptyDraft_done (seed : Int) : GpusDone t candidates 0 (emptyDraft rng t seed) where
  fair := by
    refine ⟨List.length_replicate, fun c => ?_, fun r c h => ?_, fun a _ b _ _ => Nat.zero_le _⟩
    · change 0 = (List.replicate t.epSize none).count (some c)
      rw [List.count_replicate]
      rfl
    · have := List.eq_of_mem_replicate (List.mem_of_getElem? h)
      cases this
  isOpen r := by
    change (List.replicate t.epSize none)[r]? = some none ↔ _
    rw [List.getElem?_replicate]
    by_cases hr : r < t.epSize
    · simp [hr]
    · simp [hr]
  unused _ _ := rfl

theorem assignGpu_done {k : Nat} (hk : k < t.epSize) {d : Draft rng.State} (h : GpusDone t candidates k d) :
    ∃ d', assignGpu rng t candidates d k = .ok d' ∧ GpusDone t candidates (k + 1) d' := by
  unfold assignGpu
  by_cases hl : localCandidates t candidates k = []
  · refine ⟨d, if_pos hl, h.fair, fun r => ?_, fun c hc => h.unused c (Nat.le_of_succ_le hc)⟩
    rw [h.isOpen]
    by_cases hr : r = k
    · subst hr
      simp [hl]
    · have : k ≤ r ↔ k + 1 ≤ r := by omega
      rw [this]
  · have ho : d.isOpen k := (h.isOpen k).mpr ⟨hk, .inl (Nat.le_refl k)⟩
    obtain ⟨c, s, hc, hok, hf⟩ := assignRank_fair h.fair ho hl (fun c hc => best_local hc) fun c hc _ b _ _ => by
      rw [h.unused c (mem_localCandidates.mp hc).2.ge]
      exact Nat.zero_le _
    refine ⟨d.assigned k c s, (if_neg hl).trans hok, hf, fun r => ?_, fun a ha => ?_⟩
    · rw [Draft.isOpen_assigned, h.isOpen]
      by_cases hr : r = k
      · subst hr
        simp [hl]
      · have : k ≤ r ↔ k + 1 ≤ r := by omega
        rw [this]
        exact ⟨And.left, fun h => ⟨h, hr⟩⟩
    · have hne : a ≠ c := by
        rintro rfl
        rw [(mem_localCandidates.mp hc).2] at ha
        omega
      exact (if_neg hne).trans (h.unused a (Nat.le_of_succ_le ha))

/-- After the nodes below `k`. -/
structure NodesDone {σ : Type} (t : Topology) (candidates : List Nat) (k : Nat) (d : Draft σ) : Prop where
  fair : Fair t candidates d
  isOpen : ∀ r, d.isOpen r ↔ r < t.epSize ∧ localCandidates t candidates r = [] ∧
    (k * t.numGpusPerNode ≤ r ∨ nodeCandidates t candidates (r / t.numGpusPerNode) = [])

theorem assignNode_done {k : Nat} {d : Draft rng.State} (hg : 0 < t.numGpusPerNode) (h : NodesDone t candidates k d) :
    ∃ d', assignNode rng t candidates d k = .ok d' ∧ NodesDone t candidates (k + 1) d' := by
  have hdiv : ∀ r, r / t.numGpusPerNode = k ↔ k * t.numGpusPerNode ≤ r ∧ r < (k + 1) * t.numGpusPerNode :=
    fun r => by rw [Nat.div_eq_iff hg, Nat.add_mul]; omega
  unfold assignNode
  by_cases hl : nodeCandidates t candidates k = []
  · refine ⟨d, if_pos hl, h.fair, fun r => ?_⟩
    rw [h.isOpen]
    by_cases hr : r / t.numGpusPerNode = k
    · rw [hr]
      simp [hl]
    · have : k * t.numGpusPerNode ≤ r ↔ (k + 1) * t.numGpusPerNode ≤ r := by
        have := hdiv r
        have := Nat.add_mul k 1 t.numGpusPerNode
        omega
      rw [this]
  · have hmem : ∀ r, r ∈ List.range' (k * t.numGpusPerNode) t.numGpusPerNode ↔ r / t.numGpusPerNode = k := by
      intro r
      rw [List.mem_range'_1, hdiv, Nat.add_mul, Nat.one_mul]
    obtain ⟨d', hok, hf, ho⟩ := assignOpen_fair d
      (List.range' (k * t.numGpusPerNode) t.numGpusPerNode) hl
      (fun c hc b hb hbn => mem_nodeCandidates.mpr ⟨hb, hbn.trans (mem_nodeCandidates.mp hc).2⟩) h.fair
      List.nodup_range' fun r hr hor c hc => best_node ((h.isOpen r).mp hor).2.1 (((hmem r).mp hr).symm ▸ hc)
    refine ⟨d', (if_neg hl).trans hok, hf, fun r => ?_⟩
    rw [ho, h.isOpen, hmem]
    by_cases hr : r / t.numGpusPerNode = k
    · have := (hdiv r).mp hr
      rw [hr]
      simp [hl]
      omega
    · have : k * t.numGpusPerNode ≤ r ↔ (k + 1) * t.numGpusPerNode ≤ r := by
        have := hdiv r
        have := Nat.add_mul k 1 t.numGpusPerNode
        omega
      rw [this]
      exact ⟨And.left, fun h => ⟨h, hr⟩⟩

theorem exists_map_some {l : List (Option Nat)} (h : none ∉ l) : ∃ a : List Nat, l = a.map some := by
  induction l with
  | nil => exact ⟨[], rfl⟩
  | cons o l ih =>
    rw [List.mem_cons, not_or] at h
    obtain ⟨a, rfl⟩ := ih h.2
    obtain ⟨x, rfl⟩ := Option.ne_none_iff_exists'.mp (Ne.symm h.1)
    exact ⟨x :: a, rfl⟩

/-- A replica for each rank: in its best tier, and shared out evenly on each node. -/
structure FairAssignment (t : Topology) (candidates assignment : List Nat) : Prop where
  length : assignment.length = t.epSize
  best : ∀ r c, assignment[r]? = some c → Best t candidates r c
  balanced : ∀ a ∈ candidates, ∀ b ∈ candidates, t.nodeOf a = t.nodeOf b →
    assignment.count a ≤ assignment.count b + 1

variable (rng) in
theorem assignReplicas_fair (hg : 0 < t.numGpusPerNode) (he : t.epSize = t.numNodes * t.numGpusPerNode)
    (hc : candidates ≠ []) (seed : Int) :
    ∃ a : List Nat, assignReplicas rng t candidates seed = .ok (a.map some) ∧ FairAssignment t candidates a := by
  obtain ⟨d₁, hok₁, h₁⟩ := foldlM_range (n := t.epSize) (I := GpusDone t candidates) (f := assignGpu rng t candidates)
    (emptyDraft_done seed) fun k hk d hd => assignGpu_done hk hd
  have h₀ : NodesDone t candidates 0 d₁ := ⟨h₁.fair, fun r => by rw [h₁.isOpen]; simp; omega⟩
  obtain ⟨d₂, hok₂, h₂⟩ := foldlM_range (n := t.numNodes) (I := NodesDone t candidates)
    (f := assignNode rng t candidates) h₀ fun k _ d hd => assignNode_done hg hd
  obtain ⟨d₃, hok₃, hf, ho⟩ := assignOpen_fair d₂ (List.range t.epSize) hc
    (fun c _ b hb _ => hb) h₂.fair List.nodup_range fun r hr hor c hcc => by
      obtain ⟨hlt, hl, hn⟩ := (h₂.isOpen r).mp hor
      exact best_far hl (hn.resolve_left (by rw [← he]; omega)) hcc
  have hall : none ∉ d₃.assignments := by
    intro hmem
    obtain ⟨r, hr⟩ := List.mem_iff_getElem?.mp hmem
    obtain ⟨hor, hnot⟩ := (ho r).mp hr
    exact hnot (List.mem_range.mpr ((h₂.isOpen r).mp hor).1)
  obtain ⟨a, ha⟩ := exists_map_some hall
  have hcount : ∀ c, a.count c = d₃.assignmentCounts c := by
    intro c
    rw [hf.count, ha, List.count_map_of_injective _ _ (Option.some_injective _)]
  refine ⟨a, ?_, ?_, fun r c h => hf.best r c ?_, fun x hx y hy hn => ?_⟩
  · unfold assignReplicas
    exact bind_eq_ok.mpr ⟨d₁, hok₁, bind_eq_ok.mpr ⟨d₂, hok₂, bind_eq_ok.mpr ⟨d₃, hok₃, congrArg _ ha⟩⟩⟩
  · rw [← hf.length, ha, List.length_map]
  · rw [ha, List.getElem?_map, h]
    rfl
  · rw [hcount, hcount]
    exact hf.balanced x hx y hy hn

/-! ## Rows -/

/-- The replicas of `row` from `primary` on, with `-1` in the columns left over. -/
def ReplicaOrder (row out : List Int) (primary : Nat) : Prop :=
  ∃ ids : List Nat, out = ids.map Int.ofNat ++ List.replicate (row.length - ids.length) (-1) ∧
    ids.Perm (candidatesOf row) ∧ ids.head? = some primary

/-- A row with one replica has it in column 0. -/
def FirstValid (row : List Int) : Prop := (candidatesOf row).length = 1 → ∃ v, row.head? = some v ∧ 0 ≤ v

theorem fairRow_spec {row : List Int} {a : List Nat} {seed : Int} {epRank : Nat}
    (ha : assignReplicas rng t (candidatesOf row) seed = .ok (a.map some))
    (hf : FairAssignment t (candidatesOf row) a) (hr : epRank < t.epSize) :
    ∃ out primary, fairRow rng t epRank seed row = .ok out ∧ a[epRank]? = some primary ∧
      ReplicaOrder row out primary := by
  have hlt : epRank < a.length := by rwa [hf.length]
  have hget : a[epRank]? = some a[epRank] := List.getElem?_eq_getElem hlt
  have hmem := (hf.best epRank _ hget).1
  obtain ⟨i, hi⟩ := Option.isSome_iff_exists.mp (List.isSome_idxOf?.mpr hmem)
  refine ⟨orderedRow row i, a[epRank], ?_, hget, (candidatesOf row).drop i ++ (candidatesOf row).take i, rfl, ?_, ?_⟩
  · unfold fairRow
    refine bind_eq_ok.mpr ⟨_, ha, bind_eq_ok.mpr ⟨i, expect_eq_ok.mpr ?_, rfl⟩⟩
    rw [List.getElem?_map, hget]
    exact hi
  · calc ((candidatesOf row).drop i ++ (candidatesOf row).take i).Perm
          ((candidatesOf row).take i ++ (candidatesOf row).drop i) := List.perm_append_comm
      _ = candidatesOf row := List.take_append_drop i _
  · obtain ⟨hlt', heq, _⟩ := List.findIdx?_eq_some_iff_getElem.mp hi
    rw [List.head?_append, List.head?_drop, List.getElem?_eq_getElem hlt', eq_of_beq heq]
    rfl

theorem candidatesOf_eq_nil {row : List Int} (hv : ∀ v ∈ row, -1 ≤ v) (h : candidatesOf row = []) :
    row = List.replicate row.length (-1) := by
  refine List.eq_replicate_iff.mpr ⟨rfl, fun v hmem => ?_⟩
  have := List.filterMap_eq_nil_iff.mp h v hmem
  by_cases h0 : 0 ≤ v
  · rw [if_pos h0] at this
    cases this
  · have := hv v hmem
    omega

theorem single_row {row : List Int} (hneg : ∀ v ∈ row, -1 ≤ v) (h : (candidatesOf row).length = 1) :
    FirstValid row ↔ ∃ primary, ReplicaOrder row row primary := by
  constructor
  · intro hv
    obtain ⟨v, hhead, h0⟩ := hv h
    cases row with
    | nil => cases hhead
    | cons x row =>
      cases hhead
      obtain ⟨n, rfl⟩ := Int.eq_ofNat_of_zero_le h0
      have hcons : candidatesOf ((n : Int) :: row) = n :: candidatesOf row := rfl
      rw [hcons, List.length_cons, Nat.add_eq_right, List.length_eq_zero_iff] at h
      refine ⟨n, [n], ?_, by rw [hcons, h], rfl⟩
      have := candidatesOf_eq_nil (fun v hv => hneg v (List.mem_cons_of_mem _ hv)) h
      exact congrArg _ this
  · intro hp _
    obtain ⟨primary, ids, hout, _, hhead⟩ := hp
    cases ids with
    | nil => cases hhead
    | cons i ids =>
      refine ⟨Int.ofNat i, ?_, Int.natCast_nonneg i⟩
      rw [hout]
      rfl

theorem single_best {row : List Int} {primary : Nat} (h : (candidatesOf row).length = 1)
    (hp : ReplicaOrder row row primary) : FairAssignment t (candidatesOf row) (List.replicate t.epSize primary) := by
  obtain ⟨ids, _, hperm, hhead⟩ := hp
  have hmem : primary ∈ candidatesOf row := hperm.mem_iff.mp (List.mem_of_mem_head? hhead)
  obtain ⟨c, hc⟩ := List.length_eq_one_iff.mp h
  rw [hc, List.mem_singleton] at hmem
  subst hmem
  rw [hc]
  refine ⟨List.length_replicate, fun r x hx => ?_, fun a ha b hb _ => ?_⟩
  · have := List.eq_of_mem_replicate (List.mem_of_getElem? hx)
    subst this
    refine ⟨List.mem_singleton_self _, fun c' hc' => ?_⟩
    rw [List.mem_singleton.mp hc']
  · rw [List.mem_singleton.mp ha, List.mem_singleton.mp hb]
    exact Nat.le_succ _

/-- What every rank makes of one row, by one assignment. -/
def RowFair (rng : Rng) (t : Topology) (seed : Int) (row : List Int) (assignment : List Nat) : Prop :=
  FairAssignment t (candidatesOf row) assignment ∧ ∀ epRank < t.epSize, ∃ out primary,
    replicaRow rng t epRank seed row = .ok out ∧ assignment[epRank]? = some primary ∧ ReplicaOrder row out primary

variable (rng) in
theorem replicaRow_fair (hg : 0 < t.numGpusPerNode) (he : t.epSize = t.numNodes * t.numGpusPerNode) {row : List Int}
    (hneg : ∀ v ∈ row, -1 ≤ v) (hc : candidatesOf row ≠ []) (seed : Int) (hv : FirstValid row) :
    ∃ a, RowFair rng t seed row a := by
  by_cases h1 : 1 < (candidatesOf row).length
  · obtain ⟨a, ha, hf⟩ := assignReplicas_fair rng hg he hc seed
    refine ⟨a, hf, fun epRank hr => ?_⟩
    unfold replicaRow
    rw [if_pos h1]
    exact fairRow_spec ha hf hr
  · have hlen : (candidatesOf row).length = 1 := by
      have := List.length_pos_iff.mpr hc
      omega
    obtain ⟨primary, hp⟩ := (single_row hneg hlen).mp hv
    refine ⟨_, single_best hlen hp, fun epRank hr => ⟨row, primary, if_neg h1, ?_, hp⟩⟩
    rw [List.getElem?_replicate, if_pos hr]

variable (rng) in
theorem replicaRow_ok (hg : 0 < t.numGpusPerNode) (he : t.epSize = t.numNodes * t.numGpusPerNode) {row : List Int}
    (hc : candidatesOf row ≠ []) (seed : Int) {epRank : Nat} (hr : epRank < t.epSize) :
    ∃ out, replicaRow rng t epRank seed row = .ok out := by
  unfold replicaRow
  by_cases h1 : 1 < (candidatesOf row).length
  · obtain ⟨a, ha, hf⟩ := assignReplicas_fair rng hg he hc seed
    obtain ⟨out, _, hok, _⟩ := fairRow_spec ha hf hr
    exact ⟨out, (if_pos h1).trans hok⟩
  · exact ⟨row, if_neg h1⟩

/-! ## Maps -/

structure Accepted (m : ReplicaMap) (t : Topology) : Prop where
  epSize : 0 < t.epSize
  nodes : t.epSize % t.numNodes = 0
  entries : ∀ layer ∈ m, ∀ row ∈ layer, ∀ v ∈ row, -1 ≤ v ∧ v < t.numPhysicalExperts
  replicas : ∀ layer ∈ m, ∀ row ∈ layer, candidatesOf row ≠ [] ∧ (candidatesOf row).Nodup

theorem checkReplicas_ok {layerId e : Nat} {row : List Int} (h : checkReplicas layerId row e = .ok ()) :
    candidatesOf row ≠ [] ∧ (candidatesOf row).Nodup := by
  obtain ⟨_, h₁, h₂⟩ := bind_eq_ok.mp h
  exact ⟨ensure_eq_ok.mp h₁, ensure_eq_ok.mp h₂⟩

theorem validatedReplicaMap_accepts {m m' : ReplicaMap} {epRank : Nat}
    (h : validatedReplicaMap m t epRank = .ok m') : m' = m ∧ Accepted m t := by
  unfold validatedReplicaMap at h
  obtain ⟨_, hsize, h⟩ := bind_eq_ok.mp h
  obtain ⟨_, _, h⟩ := bind_eq_ok.mp h
  obtain ⟨_, _, h⟩ := bind_eq_ok.mp h
  obtain ⟨_, _, h⟩ := bind_eq_ok.mp h
  obtain ⟨_, hnodes, h⟩ := bind_eq_ok.mp h
  obtain ⟨_, _, h⟩ := bind_eq_ok.mp h
  obtain ⟨_, _, h⟩ := bind_eq_ok.mp h
  obtain ⟨_, hentries, h⟩ := bind_eq_ok.mp h
  obtain ⟨_, hrows, h⟩ := bind_eq_ok.mp h
  refine ⟨(pure_eq_ok.mp h).symm, ensure_eq_ok.mp hsize, ensure_eq_ok.mp hnodes, ensure_eq_ok.mp hentries, ?_⟩
  intro layer hl row hr
  obtain ⟨i, hi⟩ := List.mem_iff_getElem?.mp hl
  obtain ⟨e, he⟩ := List.mem_iff_getElem?.mp hr
  have hlayer := forM_eq_ok.mp hrows (layer, i) (List.mk_mem_zipIdx_iff_getElem?.mpr hi)
  exact checkReplicas_ok (forM_eq_ok.mp hlayer (row, e) (List.mk_mem_zipIdx_iff_getElem?.mpr he))

/-- A map that one rank accepts is accepted by every rank. -/
theorem validatedReplicaMap_rank {m m' : ReplicaMap} {epRank r : Nat} (h : validatedReplicaMap m t epRank = .ok m')
    (hr : r < t.epSize) : validatedReplicaMap m t r = .ok m := by
  obtain ⟨rfl, _⟩ := validatedReplicaMap_accepts h
  unfold validatedReplicaMap at h ⊢
  obtain ⟨u, hsize, h⟩ := bind_eq_ok.mp h
  obtain ⟨_, _, h⟩ := bind_eq_ok.mp h
  obtain ⟨_, _, h⟩ := bind_eq_ok.mp h
  exact bind_eq_ok.mpr ⟨u, hsize, bind_eq_ok.mpr ⟨(), ensure_eq_ok.mpr (Nat.zero_le r),
    bind_eq_ok.mpr ⟨(), ensure_eq_ok.mpr hr, h⟩⟩⟩

theorem Accepted.gpus {m : ReplicaMap} (h : Accepted m t) :
    0 < t.numGpusPerNode ∧ t.epSize = t.numNodes * t.numGpusPerNode := by
  have hmul : t.numNodes * (t.epSize / t.numNodes) = t.epSize := Nat.mul_div_cancel' (Nat.dvd_of_mod_eq_zero h.nodes)
  refine ⟨Nat.pos_of_ne_zero fun h0 => ?_, hmul.symm⟩
  have hsize := h.epSize
  have : t.epSize / t.numNodes = 0 := h0
  rw [this] at hmul
  omega

variable (rng) in
theorem build_rows {m : ReplicaMap} {epRank : Nat} (seed : Int) (layerOffset : Nat) (hacc : Accepted m t)
    (hok : validatedReplicaMap m t epRank = .ok m) (hr : epRank < t.epSize) :
    ∃ result, buildLocalityFairReplicaOrder rng t m epRank seed layerOffset = .ok result ∧
      result.length = m.length ∧ ∀ (l : Nat) layer, m[l]? = some layer → ∃ outs, result[l]? = some outs ∧
        outs.length = layer.length ∧ ∀ (e : Nat) row, layer[e]? = some row →
          ∃ out, outs[e]? = some out ∧ replicaRow rng t epRank (rowSeed seed layerOffset l e) row = .ok out := by
  have hlayers : ∀ (l : Nat) (layer : List (List Int)), m[l]? = some layer → ∃ outs,
      (layer.zipIdx.mapM fun row => replicaRow rng t epRank (rowSeed seed layerOffset l row.2) row.1) = .ok outs ∧
      outs.length = layer.length ∧ ∀ (e : Nat) row, layer[e]? = some row → ∃ out, outs[e]? = some out ∧
        replicaRow rng t epRank (rowSeed seed layerOffset l e) row = .ok out := by
    intro l layer hl
    refine mapM_zipIdx (f := fun row => replicaRow rng t epRank (rowSeed seed layerOffset l row.2) row.1)
      fun e row he => ?_
    have hc := (hacc.replicas layer (List.mem_of_getElem? hl) row (List.mem_of_getElem? he)).1
    exact replicaRow_ok rng hacc.gpus.1 hacc.gpus.2 hc _ hr
  obtain ⟨result, hres, hlen, hget⟩ := mapM_zipIdx (l := m) (f := fun layer => layer.1.zipIdx.mapM fun row =>
    replicaRow rng t epRank (rowSeed seed layerOffset layer.2 row.2) row.1) fun l layer hl => by
      obtain ⟨outs, houts, _⟩ := hlayers l layer hl
      exact ⟨outs, houts⟩
  refine ⟨result, bind_eq_ok.mpr ⟨m, hok, hres⟩, hlen, fun l layer hl => ?_⟩
  obtain ⟨outs, houts, hrows⟩ := hlayers l layer hl
  obtain ⟨outs', hr, houts'⟩ := hget l layer hl
  have : outs' = outs := Except.ok.inj (houts'.symm.trans houts)
  exact ⟨outs, this ▸ hr, hrows⟩

/-- One assignment for each expert, which the maps of all ranks follow. -/
def LocalityFair (rng : Rng) (t : Topology) (m : ReplicaMap) (seed : Int) (layerOffset : Nat) : Prop :=
  ∃ assignment : Nat → Nat → List Nat, ∀ epRank < t.epSize, ∃ result,
    buildLocalityFairReplicaOrder rng t m epRank seed layerOffset = .ok result ∧ result.length = m.length ∧
    ∀ (l : Nat) layer, m[l]? = some layer → ∃ outs, result[l]? = some outs ∧ outs.length = layer.length ∧
      ∀ (e : Nat) row, layer[e]? = some row → FairAssignment t (candidatesOf row) (assignment l e) ∧
        ∃ out primary, outs[e]? = some out ∧ (assignment l e)[epRank]? = some primary ∧ ReplicaOrder row out primary

theorem locality_fair_iff (rng : Rng) (t : Topology) (m m' : ReplicaMap) (rank : Nat) (seed : Int) (layerOffset : Nat)
    (h : validatedReplicaMap m t rank = .ok m') :
    LocalityFair rng t m seed layerOffset ↔ ∀ layer ∈ m, ∀ row ∈ layer, FirstValid row := by
  obtain ⟨_, hacc⟩ := validatedReplicaMap_accepts h
  obtain ⟨hg, he⟩ := hacc.gpus
  constructor
  · intro ⟨assignment, hall⟩ layer hl row hr hone
    obtain ⟨l, hl'⟩ := List.mem_iff_getElem?.mp hl
    obtain ⟨e, he'⟩ := List.mem_iff_getElem?.mp hr
    obtain ⟨result, hres, _, hlayers⟩ := hall 0 hacc.epSize
    obtain ⟨outs, houts, _, hrows⟩ := hlayers l layer hl'
    obtain ⟨_, out, primary, hout, _, horder⟩ := hrows e row he'
    obtain ⟨result', hres', _, hlayers'⟩ := build_rows rng seed layerOffset hacc
      (validatedReplicaMap_rank h hacc.epSize) hacc.epSize
    obtain rfl : result = result' := Except.ok.inj (hres.symm.trans hres')
    obtain ⟨outs', houts', _, hrows'⟩ := hlayers' l layer hl'
    obtain rfl : outs = outs' := Option.some.inj (houts.symm.trans houts')
    obtain ⟨out', hout', hrow⟩ := hrows' e row he'
    obtain rfl : out = out' := Option.some.inj (hout.symm.trans hout')
    -- a row with one replica is put back as it is
    have hsame : replicaRow rng t 0 (rowSeed seed layerOffset l e) row = .ok row := if_neg (by omega)
    obtain rfl : out = row := Except.ok.inj (hrow.symm.trans hsame)
    exact (single_row (fun v hm => (hacc.entries layer hl out hr v hm).1) hone).mpr ⟨primary, horder⟩ hone
  · intro hv
    have hrow : ∀ l e : Nat, ∃ a, ∀ layer row, m[l]? = some layer → layer[e]? = some row →
        RowFair rng t (rowSeed seed layerOffset l e) row a := by
      intro l e
      cases hlayer : m[l]? with
      | none => exact ⟨[], fun _ _ h => by cases h⟩
      | some layer =>
        cases hrow : layer[e]? with
        | none => exact ⟨[], fun layer' row hl he => by cases hl; rw [hrow] at he; cases he⟩
        | some row =>
          have hl := List.mem_of_getElem? hlayer
          have hr := List.mem_of_getElem? hrow
          obtain ⟨a, ha⟩ := replicaRow_fair rng hg he (fun v hm => (hacc.entries layer hl row hr v hm).1)
            (hacc.replicas layer hl row hr).1 (rowSeed seed layerOffset l e) (hv layer hl row hr)
          exact ⟨a, fun layer' row' hl he => by cases hl; rw [hrow] at he; cases he; exact ha⟩
    choose assignment hfair using hrow
    refine ⟨assignment, fun epRank hr => ?_⟩
    obtain ⟨result, hres, hlen, hlayers⟩ := build_rows rng seed layerOffset hacc
      (validatedReplicaMap_rank h hr) hr
    refine ⟨result, hres, hlen, fun l layer hl => ?_⟩
    obtain ⟨outs, houts, hlen', hrows⟩ := hlayers l layer hl
    refine ⟨outs, houts, hlen', fun e row he => ⟨(hfair l e layer row hl he).1, ?_⟩⟩
    obtain ⟨out, primary, hout, hprim, horder⟩ := (hfair l e layer row hl he).2 epRank hr
    obtain ⟨out', hget, hout'⟩ := hrows e row he
    have : out' = out := Except.ok.inj (hout'.symm.trans hout)
    exact ⟨out, primary, this ▸ hget, hprim, horder⟩

end

/-- The order of the entries stays as it is. -/
def keptOrder : Rng where
  State := Unit
  ofSeed _ := ()
  shuffle _ l := (l, ())
  shuffle_perm _ l := .refl l

theorem locality_fair_two_ranks :
    LocalityFair keptOrder ⟨2, 1, 4⟩ [[[0, 3, -1], [1, -1, -1]]] 42 0 ↔
      ∀ layer ∈ ([[[0, 3, -1], [1, -1, -1]]] : ReplicaMap), ∀ row ∈ layer, FirstValid row :=
  locality_fair_iff keptOrder ⟨2, 1, 4⟩ [[[0, 3, -1], [1, -1, -1]]] [[[0, 3, -1], [1, -1, -1]]] 0 42 0 (by rfl)

/-- The only replica of the expert is in column 1, and every rank's primary is `-1`. -/
theorem single_replica_hidden :
    validatedReplicaMap [[[-1, 1]]] ⟨2, 1, 2⟩ 0 = .ok [[[-1, 1]]] ∧
      buildLocalityFairReplicaOrder keptOrder ⟨2, 1, 2⟩ [[[-1, 1]]] 0 42 0 = .ok [[[-1, 1]]] ∧
      ¬ LocalityFair keptOrder ⟨2, 1, 2⟩ [[[-1, 1]]] 42 0 := by
  have hbuild : buildLocalityFairReplicaOrder keptOrder ⟨2, 1, 2⟩ [[[-1, 1]]] 0 42 0 = .ok [[[-1, 1]]] := by rfl
  refine ⟨by rfl, hbuild, ?_⟩
  intro ⟨assignment, hall⟩
  obtain ⟨result, hres, _, hlayers⟩ := hall 0 (by decide)
  obtain rfl : [[[-1, 1]]] = result := Except.ok.inj (hbuild.symm.trans hres)
  obtain ⟨outs, houts, _, hrows⟩ := hlayers 0 [[-1, 1]] rfl
  obtain rfl : [[-1, 1]] = outs := Option.some.inj houts
  obtain ⟨_, out, primary, hout, _, ids, hids, _, hhead⟩ := hrows 0 [-1, 1] rfl
  obtain rfl : [-1, 1] = out := Option.some.inj hout
  cases ids with
  | nil => cases hhead
  | cons i ids =>
    have : (-1 : Int) = Int.ofNat i := (List.cons.inj hids).1
    cases this

end VllmHcu.Eplb
