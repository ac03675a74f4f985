import VllmHcu.Du.Routing
import VllmHcu.Lib.Prefix
import VllmHcu.Lib.Loops

/-!
# Soundness of the routing

`routes_once_iff`: the stages tile the layers, and every layer reaches each rank
of its stage once, exactly when the partition string has no negative entry.
-/

namespace VllmHcu.Du

/-! ## Even partitions -/

theorem evenPartitions_length (numHiddenLayers ppSize : Nat) : (evenPartitions numHiddenLayers ppSize).length = ppSize := by
  simp [evenPartitions]

theorem evenPartitions_nonneg {numHiddenLayers ppSize : Nat} {x : Int} (h : x ∈ evenPartitions numHiddenLayers ppSize) : 0 ≤ x := by
  obtain ⟨j, -, rfl⟩ := List.mem_map.mp h
  have := Int.natCast_nonneg (numHiddenLayers / ppSize)
  split <;> omega

theorem evenPartitions_sum {numHiddenLayers ppSize : Nat} (h : 0 < ppSize) :
    (evenPartitions numHiddenLayers ppSize).sum = numHiddenLayers := by
  have hrem := Nat.mod_lt numHiddenLayers h
  have hdiv := Nat.div_add_mod numHiddenLayers ppSize
  unfold evenPartitions
  generalize numHiddenLayers % ppSize = remaining at hrem hdiv ⊢
  generalize numHiddenLayers / ppSize = q at hdiv ⊢
  have hflag : ((List.range ppSize).map fun j => (q : Int) + if 2 ≤ ppSize - j ∧ ppSize - j < remaining + 2 then 1 else 0) =
      (List.range ppSize).map fun j => (q : Int) + if ppSize - 1 - remaining ≤ j ∧ j < ppSize - 1 then 1 else 0 := by
    apply List.map_congr_left
    intro j hj
    have := List.mem_range.mp hj
    congr 1
    exact if_congr (by omega) rfl rfl
  rw [hflag, List.sum_map_add, sum_indicator (by omega), List.map_const', List.sum_replicate, List.length_range]
  rw [← hdiv]
  simp
  omega

/-! ## The stages -/

section
variable {classes : CharClasses} {partitionList : Option Text} {numHiddenLayers ppSize : Nat} {partitions : List Int}

theorem ppPartitionsD_ok (h : ppPartitionsD classes partitionList numHiddenLayers ppSize = .ok partitions) :
    partitions.length = ppSize ∧ partitions.sum = numHiddenLayers ∧ 0 < ppSize := by
  unfold ppPartitionsD at h
  cases partitionList with
  | none =>
    simp only [bind_eq_ok, ensure_eq_ok] at h
    obtain ⟨_, hpos, h⟩ := h
    cases pure_eq_ok.mp h
    exact ⟨evenPartitions_length _ _, evenPartitions_sum hpos, hpos⟩
  | some s =>
    simp only [bind_eq_ok, ensure_eq_ok, expect_eq_ok] at h
    obtain ⟨ps, hparse, _, hlen, _, hsum, h⟩ := h
    cases pure_eq_ok.mp h
    have hentries := (mapM_option hparse).length_eq
    have hsplit := List.length_pos_iff.mpr (List.splitOn_ne_nil ',' s)
    exact ⟨hlen, hsum, by omega⟩

theorem getPpIndicesD_eq (h : ppPartitionsD classes partitionList numHiddenLayers ppSize = .ok partitions) {ppRank : Nat}
    (hrank : ppRank < ppSize) :
    getPpIndicesD classes partitionList numHiddenLayers ppRank ppSize =
      .ok ((partitions.take ppRank).sum, (partitions.take (ppRank + 1)).sum) := by
  have hlen := (ppPartitionsD_ok h).1
  unfold getPpIndicesD
  rw [h]
  have hget : partitions[ppRank]? = some partitions[ppRank] := List.getElem?_eq_getElem (by omega)
  simp only [bind, Except.bind, hget, expect, Option.elim]
  rw [sum_take_succ, List.getD_eq_getElem?_getD, hget]
  rfl

end

/-! ## The fan-out -/

section
variable (t : Deployment) (htp : 0 < t.tpSize) (hdvd : t.tpSize ∣ t.remoteTpSize)
include htp hdvd

/-- A producer rank sends to the remote ranks that agree with it modulo its size. -/
theorem fanout_eq {β : Type} {tpRank : Nat} (hrank : tpRank < t.tpSize) (f : Nat → β) :
    ((List.range t.remoteTpSize).flatMap fun dTpRank => (List.range t.multp).flatMap fun mulTp =>
      if tpRank + mulTp * t.tpSize = dTpRank then [f dTpRank] else []) =
      ((List.range t.remoteTpSize).filter fun d => d % t.tpSize = tpRank).map f := by
  rw [← flatMap_ite_singleton]
  apply List.flatMap_congr
  intro d hd
  have hdlt := List.mem_range.mp hd
  have hmul : t.multp * t.tpSize = t.remoteTpSize := Nat.div_mul_cancel hdvd
  by_cases hmod : d % t.tpSize = tpRank
  · have hquot : d / t.tpSize < t.multp := by
      rw [Nat.div_lt_iff_lt_mul htp]
      omega
    rw [if_pos hmod]
    have hdiv := Nat.div_add_mod d t.tpSize
    rw [Nat.mul_comm, hmod] at hdiv
    have hhit : ∀ m, tpRank + m * t.tpSize = d ↔ m = d / t.tpSize := by
      intro m
      constructor
      · intro h
        have : m * t.tpSize = d / t.tpSize * t.tpSize := by omega
        exact Nat.eq_of_mul_eq_mul_right htp this
      · intro h
        rw [h]
        omega
    simp only [hhit]
    exact @flatMap_ite_one Nat β Nat _ id _ (fun _ => [f d]) (by simpa using List.nodup_range) _ (List.mem_range.mpr hquot)
  · rw [if_neg hmod]
    apply List.flatMap_eq_nil_iff.mpr
    intro m _
    apply if_neg
    intro h
    rw [← h, Nat.add_mul_mod_self_right, Nat.mod_eq_of_lt hrank] at hmod
    exact hmod rfl

theorem fanout_perm {β : Type} (f : Nat → β) :
    ((List.range t.tpSize).flatMap fun tpRank => (List.range t.remoteTpSize).flatMap fun dTpRank =>
      (List.range t.multp).flatMap fun mulTp => if tpRank + mulTp * t.tpSize = dTpRank then [f dTpRank] else []).Perm
      ((List.range t.remoteTpSize).map f) := by
  have heach : ((List.range t.tpSize).flatMap fun tpRank => (List.range t.remoteTpSize).flatMap fun dTpRank =>
      (List.range t.multp).flatMap fun mulTp => if tpRank + mulTp * t.tpSize = dTpRank then [f dTpRank] else []) =
      ((List.range t.tpSize).flatMap fun tpRank => (List.range t.remoteTpSize).filter fun d => d % t.tpSize = tpRank).map f := by
    rw [List.map_flatMap]
    apply List.flatMap_congr
    intro tpRank hrank
    exact fanout_eq t htp hdvd (List.mem_range.mp hrank) f
  rw [heach]
  refine ((flatMap_classes_perm (fun d => d % t.tpSize) _ _).map f).trans ?_
  rw [List.filter_eq_self.mpr]
  intro d _
  simpa using Nat.mod_lt d htp

end

/-! ## Routing -/

/-- The stages lie one after the other and cover the layers. -/
structure StagesTile (t : Deployment) (start stop : Nat → Int) : Prop where
  indices : ∀ d < t.remotePpSize,
    getPpIndicesD t.classes t.partitionList t.totalNumHiddenLayers d t.remotePpSize = .ok (start d, stop d)
  bounds : ∀ d < t.remotePpSize, 0 ≤ start d ∧ start d ≤ stop d ∧ stop d ≤ t.totalNumHiddenLayers
  ordered : ∀ d d', d < d' → d' < t.remotePpSize → stop d ≤ start d'
  disjoint : ∀ d < t.remotePpSize, ∀ d' < t.remotePpSize, ∀ x, start d ≤ x → x < stop d → start d' ≤ x → x < stop d' → d = d'
  cover : ∀ x : Int, 0 ≤ x → x < t.totalNumHiddenLayers → ∃ d < t.remotePpSize, start d ≤ x ∧ x < stop d

/-- Together the producer ranks send a layer to each rank of its stage once; the draft layer belongs to the last stage. -/
def LayerSent (t : Deployment) (start stop : Nat → Int) (layerIdx : Nat) : Prop := ∃ owner < t.remotePpSize,
  (layerIdx = t.totalNumHiddenLayers → owner + 1 = t.remotePpSize) ∧
  (layerIdx < t.totalNumHiddenLayers → start owner ≤ layerIdx ∧ (layerIdx : Int) < stop owner) ∧
  ∀ r layerName tensor, ∃ items : Nat → List SendQueueItem,
    (∀ tpRank < t.tpSize, t.getSendQueueItems r layerName layerIdx tensor tpRank = .ok (items tpRank)) ∧
    ((List.range t.tpSize).flatMap items).Perm ((List.range t.remoteTpSize).map (t.workerItem r layerName tensor owner))

def RoutesOnce (t : Deployment) : Prop := ∃ start stop, StagesTile t start stop ∧
  ∀ layerIdx ≤ t.totalNumHiddenLayers, LayerSent t start stop layerIdx

/-- No number of the partition string is negative. -/
def NoNegativeEntry (t : Deployment) : Prop := ∀ s, t.partitionList = some s → ∀ entries,
  (s.splitOn ',').mapM (pyInt t.classes) = some entries → ∀ x ∈ entries, 0 ≤ x

section
variable {t : Deployment} {partitions : List Int}
  (h : ppPartitionsD t.classes t.partitionList t.totalNumHiddenLayers t.remotePpSize = .ok partitions)
include h

/-- The search stops at a stage that has the layer, if one of those it tries does. -/
theorem remotePpRankFrom_eq {layerIdx : Nat} (hlt : layerIdx < t.totalNumHiddenLayers) : ∀ {ds : List Nat},
    (∀ d ∈ ds, d < t.remotePpSize) →
    (∃ d ∈ ds, (partitions.take d).sum ≤ layerIdx ∧ (layerIdx : Int) < (partitions.take (d + 1)).sum) →
    ∃ d ∈ ds, ((partitions.take d).sum ≤ layerIdx ∧ (layerIdx : Int) < (partitions.take (d + 1)).sum) ∧
      t.remotePpRankFrom layerIdx ds = .ok (d : Int)
  | [], _, ⟨_, hd, _⟩ => absurd hd List.not_mem_nil
  | d :: ds, hds, hex => by
    have hstage := getPpIndicesD_eq h (hds d List.mem_cons_self)
    unfold Deployment.remotePpRankFrom
    rw [hstage]
    simp only [bind, Except.bind]
    rw [if_neg (by omega)]
    by_cases hin : (partitions.take d).sum ≤ layerIdx ∧ (layerIdx : Int) < (partitions.take (d + 1)).sum
    · exact ⟨d, List.mem_cons_self, hin, if_pos hin⟩
    · rw [if_neg hin]
      obtain ⟨d', hd', hin'⟩ := hex
      have hmem : d' ∈ ds := by
        rcases List.mem_cons.mp hd' with rfl | hmem
        · exact absurd hin' hin
        · exact hmem
      obtain ⟨e, he, hine, heq⟩ := remotePpRankFrom_eq hlt (fun d hd => hds d (List.mem_cons_of_mem _ hd)) ⟨d', hmem, hin'⟩
      exact ⟨e, List.mem_cons_of_mem _ he, hine, heq⟩

theorem computeRemotePpRank_eq {layerIdx : Nat} (hle : layerIdx ≤ t.totalNumHiddenLayers) :
    ∃ owner < t.remotePpSize, (layerIdx = t.totalNumHiddenLayers → owner + 1 = t.remotePpSize) ∧
      (layerIdx < t.totalNumHiddenLayers →
        (partitions.take owner).sum ≤ layerIdx ∧ (layerIdx : Int) < (partitions.take (owner + 1)).sum) ∧
      t.computeRemotePpRank layerIdx = .ok (owner : Int) := by
  obtain ⟨hlen, hsum, hpos⟩ := ppPartitionsD_ok h
  by_cases hdraft : layerIdx = t.totalNumHiddenLayers
  · refine ⟨t.remotePpSize - 1, by omega, fun _ => by omega, fun hlt => by omega, ?_⟩
    obtain ⟨n, hn⟩ : ∃ n, t.remotePpSize = n + 1 := ⟨t.remotePpSize - 1, by omega⟩
    unfold Deployment.computeRemotePpRank
    rw [hn, List.range_succ_eq_map]
    unfold Deployment.remotePpRankFrom
    rw [getPpIndicesD_eq h hpos]
    simp only [bind, Except.bind]
    rw [if_pos hdraft, hn]
    simp [pure, Except.pure]
  · have hlt : layerIdx < t.totalNumHiddenLayers := by omega
    have hcross : ∃ d < t.remotePpSize, (partitions.take d).sum ≤ layerIdx ∧ (layerIdx : Int) < (partitions.take (d + 1)).sum := by
      apply exists_crossing (f := fun d => (partitions.take d).sum)
      · simp
      · rw [← hlen, List.take_length, hsum]
        omega
    obtain ⟨d, hd, hin⟩ := hcross
    obtain ⟨e, he, hine, heq⟩ := remotePpRankFrom_eq h hlt (fun d hd => List.mem_range.mp hd) ⟨d, List.mem_range.mpr hd, hin⟩
    exact ⟨e, List.mem_range.mp he, fun hd => absurd hd hdraft, fun _ => hine, heq⟩

theorem layerSent (htp : 0 < t.tpSize) (hdvd : t.tpSize ∣ t.remoteTpSize) {layerIdx : Nat}
    (hle : layerIdx ≤ t.totalNumHiddenLayers) :
    LayerSent t (fun d => (partitions.take d).sum) (fun d => (partitions.take (d + 1)).sum) layerIdx := by
  obtain ⟨owner, howner, hdraft, hin, hrank⟩ := computeRemotePpRank_eq h hle
  refine ⟨owner, howner, hdraft, hin, fun r layerName tensor => ⟨_, fun tpRank _ => ?_, fanout_perm t htp hdvd _⟩⟩
  unfold Deployment.getSendQueueItems
  rw [hrank]
  rfl

theorem stagesTile_iff (start stop : Nat → Int) : StagesTile t start stop ↔
    (∀ d < t.remotePpSize, start d = (partitions.take d).sum ∧ stop d = (partitions.take (d + 1)).sum) ∧
      ∀ x ∈ partitions, 0 ≤ x := by
  obtain ⟨hlen, hsum, hpos⟩ := ppPartitionsD_ok h
  constructor
  · intro htile
    have hends : ∀ d < t.remotePpSize, start d = (partitions.take d).sum ∧ stop d = (partitions.take (d + 1)).sum := by
      intro d hd
      have hstage := htile.indices d hd
      rw [getPpIndicesD_eq h hd] at hstage
      obtain ⟨hstart, hstop⟩ := Prod.mk.inj (Except.ok.inj hstage)
      exact ⟨hstart.symm, hstop.symm⟩
    refine ⟨hends, fun x hx => ?_⟩
    obtain ⟨d, hd, rfl⟩ := List.getElem_of_mem hx
    obtain ⟨hstart, hstop⟩ := hends d (by omega)
    have hbound := (htile.bounds d (by omega)).2.1
    rw [hstart, hstop, sum_take_succ, List.getD_eq_getElem?_getD, List.getElem?_eq_getElem hd] at hbound
    simpa using hbound
  · intro ⟨hends, hnonneg⟩
    have hmono : ∀ {i j}, i ≤ j → (partitions.take i).sum ≤ (partitions.take j).sum := fun hij => sum_take_mono hnonneg hij
    have htotal : (partitions.take t.remotePpSize).sum = t.totalNumHiddenLayers := by
      rw [← hlen, List.take_length, hsum]
    have hordered : ∀ d d', d < d' → d' < t.remotePpSize → stop d ≤ start d' := by
      intro d d' hdd hd'
      rw [(hends d (by omega)).2, (hends d' hd').1]
      exact hmono hdd
    refine ⟨fun d hd => ?_, fun d hd => ?_, hordered, fun d hd d' hd' x h1 h2 h3 h4 => ?_, fun x h0 hx => ?_⟩
    · rw [getPpIndicesD_eq h hd, (hends d hd).1, (hends d hd).2]
    · rw [(hends d hd).1, (hends d hd).2]
      have hlast := hmono (show d + 1 ≤ t.remotePpSize by omega)
      rw [htotal] at hlast
      exact ⟨sum_take_nonneg hnonneg d, hmono (Nat.le_succ d), hlast⟩
    · by_contra hne
      rcases Nat.lt_or_gt_of_ne hne with hlt | hlt
      · have := hordered d d' hlt hd'
        omega
      · have := hordered d' d hlt hd
        omega
    · rw [← htotal] at hx
      have hfirst : (partitions.take 0).sum ≤ x := by simpa using h0
      obtain ⟨d, hd, hin⟩ := exists_crossing (f := fun d => (partitions.take d).sum) hfirst hx
      exact ⟨d, hd, by rw [(hends d hd).1, (hends d hd).2]; exact hin⟩

theorem nonneg_iff : (∀ x ∈ partitions, 0 ≤ x) ↔ NoNegativeEntry t := by
  unfold NoNegativeEntry
  unfold ppPartitionsD at h
  cases hlist : t.partitionList with
  | none =>
    rw [hlist] at h
    simp only [bind_eq_ok, ensure_eq_ok] at h
    obtain ⟨_, _, h⟩ := h
    cases pure_eq_ok.mp h
    exact iff_of_true (fun x hx => evenPartitions_nonneg hx) nofun
  | some s =>
    rw [hlist] at h
    simp only [bind_eq_ok, ensure_eq_ok, expect_eq_ok] at h
    obtain ⟨entries, hparse, _, _, _, _, h⟩ := h
    cases pure_eq_ok.mp h
    constructor
    · intro hall s' hs' entries' hparse'
      cases hs'
      cases hparse.symm.trans hparse'
      exact hall
    · intro hno
      exact hno s rfl _ hparse

end

/-- For an accepted partition string, or none. -/
theorem routes_once_iff {t : Deployment}
    (haccepted : ∃ partitions, ppPartitionsD t.classes t.partitionList t.totalNumHiddenLayers t.remotePpSize = .ok partitions)
    (htp : 0 < t.tpSize) (hdvd : t.tpSize ∣ t.remoteTpSize) : RoutesOnce t ↔ NoNegativeEntry t := by
  obtain ⟨partitions, h⟩ := haccepted
  rw [← nonneg_iff h]
  constructor
  · intro ⟨start, stop, htile, _⟩
    exact ((stagesTile_iff h start stop).mp htile).2
  · intro hnonneg
    refine ⟨_, _, (stagesTile_iff h _ _).mpr ⟨fun d _ => ⟨rfl, rfl⟩, hnonneg⟩, fun layerIdx hle => ?_⟩
    exact layerSent h htp hdvd hle

/-- A producer of two ranks before a decoder of three stages with four ranks. -/
def threeStages (partitionList : Option Text) (totalNumHiddenLayers : Nat) : Deployment :=
  ⟨asciiClasses, partitionList, totalNumHiddenLayers, 1, 2, 3, 4⟩

theorem routes_once_even : RoutesOnce (threeStages none 8) ↔ NoNegativeEntry (threeStages none 8) :=
  routes_once_iff ⟨[3, 3, 2], rfl⟩ (by decide) (by decide)

/-- A string with a negative entry is accepted: two stages then have layer 2, and one ends before it starts. -/
theorem negative_entry_overlaps :
    getPpIndicesD asciiClasses (some ['3', ',', '-', '1', ',', '2']) 4 0 3 = .ok (0, 3) ∧
      getPpIndicesD asciiClasses (some ['3', ',', '-', '1', ',', '2']) 4 1 3 = .ok (3, 2) ∧
      getPpIndicesD asciiClasses (some ['3', ',', '-', '1', ',', '2']) 4 2 3 = .ok (2, 4) ∧
      ¬RoutesOnce (threeStages (some ['3', ',', '-', '1', ',', '2']) 4) := by
  have hmiddle : getPpIndicesD asciiClasses (some ['3', ',', '-', '1', ',', '2']) 4 1 3 = .ok (3, 2) := rfl
  refine ⟨rfl, hmiddle, rfl, fun ⟨start, stop, htile, _⟩ => ?_⟩
  have hstage := htile.indices 1 (by decide)
  have hbound := (htile.bounds 1 (by decide)).2.1
  obtain ⟨hstart, hstop⟩ := Prod.mk.inj (Except.ok.inj (hmiddle.symm.trans hstage))
  omega

end VllmHcu.Du
