import VllmHcu.Dbo.AgreeSound

/-!
# The split step

From every reachable state, a split step agrees with the unsplit one exactly when
there is room for both microbatches. There is not always: a batch of new requests
before a resumed one can take the pending row that the resumed one needs.
-/

namespace VllmHcu.Dbo

open Step4 Step4PendingTable

section
variable {ι κ σ : Type} {g : Step4DSAGeometry} {zero : κ} {compress : List κ → σ} {fused : Bool}

/-! ## The microbatches of a batch -/

theorem cutRows_of {md : Step4DSAMetadata} {cut d₀ dt₀ d₁ dt₁ : Nat} (h : Cuttable md cut)
    (hd₀ : d₀ ≤ requestStop md cut) (hd₁ : d₁ ≤ requestStop md (md.queryStartLoc (numReqs md)) - requestStart md cut)
    (hex : ExclusiveRows g md.activeRows) :
    CutRows g md.activeRows (microbatch0 md cut d₀ dt₀).activeRows (microbatch1 md cut d₁ dt₁).activeRows
      (firstHalf cut) (secondHalf cut (requestStart md cut)) (fun v => min v.qlen (cut - v.tokStart)) cut where
  halves v hv := by
    obtain ⟨hi, hrow, -⟩ := mem_activeRows.mp hv
    apply halves_of
    rw [hrow]
    exact h.lens v.row hi
  active v hv := active_qlen hv
  mem₀ w := mem_microbatch0 h hd₀
  mem₁ w := mem_microbatch1 h hd₁
  exclusive := hex
  start₀ v _ := rfl
  start₁ v _ hk := by
    change cut + (v.tokStart - cut) = v.tokStart + min v.qlen (cut - v.tokStart)
    omega
  nodup₀ := activeRows_nodup _
  nodup₁ := activeRows_nodup _

/-! ## Reachable tables -/

theorem generalSchedule_wf {md : Step4DSAMetadata} {completed : List Nat} {t : Step4PendingTable}
    {r : GeneralSchedule × Step4PendingTable} (hwf : t.Wf) (h : generalSchedule g md completed t = .ok r) : r.2.Wf := by
  rw [generalSchedule_eq md completed hwf] at h
  obtain ⟨u, hc, rfl⟩ := VllmHcu.map_eq_ok.mp h
  exact (claimRows_ok (stepTable_wf hwf completed) hc).1.wf

theorem schedule_wf {md : Step4DSAMetadata} {completed : List Nat} {t : Step4PendingTable}
    {r : Step4DSASchedule × Step4PendingTable} (hwf : t.Wf) (h : schedule g md completed t = .ok r) : r.2.Wf := by
  unfold schedule at h
  split at h
  · obtain ⟨q, hq, rfl⟩ := VllmHcu.map_eq_ok.mp h
    by_cases hlen : (md.verifyRows.map (·.qlen)).foldl max 0 ≤ max g.specQueryLen 1
    · rw [specDecodeSchedule_eq md completed hwf hlen] at hq
      obtain ⟨u, hc, rfl⟩ := VllmHcu.map_eq_ok.mp hq
      exact (claimRows_ok (stepTable_wf hwf completed) hc).1.wf
    · unfold specDecodeSchedule at hq
      simp only [if_pos (Nat.not_le.mp hlen)] at hq
      cases hq
  · split at h
    · obtain ⟨q, hq, rfl⟩ := VllmHcu.map_eq_ok.mp h
      rw [decodeSchedule_eq md completed hwf] at hq
      obtain ⟨u, hc, rfl⟩ := VllmHcu.map_eq_ok.mp hq
      exact (claimRows_ok (stepTable_wf hwf completed) hc).1.wf
    · obtain ⟨q, hq, rfl⟩ := VllmHcu.map_eq_ok.mp h
      exact generalSchedule_wf hwf hq

theorem StepRun.finishLayers_wf {numLayers : Nat} : ∀ {n : Nat} {r : StepRun}, r.pending.Wf →
    (r.finishLayers g numLayers n).pending.Wf
  | 0, _, h => h
  | n + 1, r, h => by
    unfold finishLayers
    apply finishLayers_wf
    unfold finishLayer
    split
    · exact endStep_wf h _
    · exact h

theorem dboStep_wf {md₀ md₁ : Step4DSAMetadata} {cut numLayers ahead : Nat} {index : ι → Nat → κ}
    {s : Step4DSAState ι κ σ} {run : StepRun} {tensors : ι → LayerTensors κ σ} (hwf : s.pending.Wf)
    (h : dboStep g zero compress md₀ md₁ cut numLayers ahead index s = .ok (run, tensors)) : run.pending.Wf := by
  unfold dboStep at h
  obtain ⟨r₀, h₀, h⟩ := bind_eq_ok.mp h
  obtain ⟨r₁, h₁, h⟩ := bind_eq_ok.mp h
  cases h
  apply StepRun.finishLayers_wf
  unfold schedule0 at h₀
  split at h₀
  · cases h₀
  · unfold schedule1 at h₁
    split at h₁
    · cases h₁
    · have hr₀ := generalSchedule_wf hwf h₀
      have hrun : ((StepRun.start r₀).finishLayers g numLayers ahead).pending.Wf := StepRun.finishLayers_wf hr₀
      exact (second_ok (TouchedFrom.refl hrun) h₁).1.wf

theorem Reachable.wf {maxNumSeqs : Nat} {s : Step4DSAState ι κ σ} (h : Reachable g zero compress fused maxNumSeqs s) :
    s.pending.Wf := by
  induction h with
  | initial tensors => exact wf_initial _
  | forward h hbatch hstep ih =>
    obtain ⟨r, hr, he⟩ := VllmHcu.map_eq_ok.mp hstep
    cases he
    exact schedule_wf ih hr
  | split h hbatch hstep ih => exact dboStep_wf ih hstep

/-! ## A step that agrees -/

section
variable {md md₀ md₁ : Step4DSAMetadata} {cut numLayers ahead : Nat} {index : ι → Nat → κ} {s u : Step4DSAState ι κ σ}
  {sched : Step4DSASchedule} {f₀ f₁ : BatchRow → BatchRow} {k : BatchRow → Nat}

theorem dboStep_ok (hp₀ : md₀.numPrefills ≠ 0) (hp₁ : md₁.numPrefills ≠ 0) (hahead : ahead < numLayers) {run : StepRun}
    {tensors : ι → LayerTensors κ σ} :
    dboStep g zero compress md₀ md₁ cut numLayers ahead index s = .ok (run, tensors) ↔
      ∃ r₀ r₁, generalSchedule g md₀ s.completedSlots s.pending = .ok r₀ ∧ secondSchedule g md₁ r₀.2 = .ok r₁ ∧
        run = ({ StepRun.start r₀ with layersDone := ahead }.join r₁).finishLayers g numLayers (2 * numLayers - ahead) ∧
        tensors = fun l => updateSummariesGeneral g zero compress r₁.1 (fun i => index l (cut + i))
          (updateSummariesGeneral g zero compress r₀.1 (index l) (s.tensors l)) := by
  unfold dboStep schedule0 schedule1
  rw [if_neg hp₀]
  have hearly : ∀ r₀ : GeneralSchedule × Step4PendingTable,
      (StepRun.start r₀).finishLayers g numLayers ahead = { StepRun.start r₀ with layersDone := ahead } := by
    intro r₀
    have h : (StepRun.start r₀).layersDone + ahead < numLayers := by
      change 0 + ahead < numLayers
      omega
    rw [StepRun.finishLayers_early h]
    change { StepRun.start r₀ with layersDone := 0 + ahead } = _
    rw [Nat.zero_add]
  simp only [if_neg hp₁, bind_eq_ok, hearly]
  constructor
  · rintro ⟨r₀, h₀, r₁, h₁, he⟩
    cases he
    exact ⟨r₀, r₁, h₀, h₁, rfl, rfl⟩
  · rintro ⟨r₀, r₁, h₀, h₁, rfl, rfl⟩
    exact ⟨r₀, h₀, r₁, h₁, rfl⟩

theorem both_outcomes (hwf : s.pending.Wf)
    (hrows : CutRows g md.activeRows md₀.activeRows md₁.activeRows f₀ f₁ k cut)
    (hun : generalStep g zero compress fused md index s = .ok (sched, u)) {r₀ r₁ : GeneralSchedule × Step4PendingTable}
    (h₀ : generalSchedule g md₀ s.completedSlots s.pending = .ok r₀) (h₁ : secondSchedule g md₁ r₀.2 = .ok r₁) :
    CutTables g md.activeRows md₀.activeRows md₁.activeRows (stepTable g s.completedSlots s.pending) u.pending r₀.2 r₁.2 ∧
      r₀.1.completedSlots = md₀.activeRows.flatMap (·.completed g) ∧
      r₁.1.completedSlots = md₁.activeRows.flatMap (·.completed g) ∧
      ∀ l, Updated compress g md.activeRows u.pending (index l) (s.tensors l) (u.tensors l) ∧
        Updated compress g md₀.activeRows r₀.2 (index l) (s.tensors l)
          (updateSummariesGeneral g zero compress r₀.1 (index l) (s.tensors l)) ∧
        Updated compress g md₁.activeRows r₁.2 (fun i => index l (cut + i))
          (updateSummariesGeneral g zero compress r₀.1 (index l) (s.tensors l))
          (updateSummariesGeneral g zero compress r₁.1 (fun i => index l (cut + i))
            (updateSummariesGeneral g zero compress r₀.1 (index l) (s.tensors l))) := by
  have hwhole := general_outcome compress hwf hrows.exclusive hun
  have hstep₀ : generalStep g zero compress fused md₀ index s =
      .ok (applySchedule g zero compress fused index s (.general r₀.1, r₀.2)) := by
    unfold generalStep
    rw [h₀]
    rfl
  have hfirst := general_outcome compress hwf hrows.exclusive₀ hstep₀
  obtain ⟨hsecond, hkeeps, hheads, hq⟩ := second_ok hfirst.table h₁
  have hmap₁ : ∀ x ∈ claims g md₁.activeRows, ∃ row, r₁.2.rowOfSlot x = some row := fun x hx =>
    hsecond.mapped x (Finset.mem_union_right _ hx)
  refine ⟨⟨hwhole.table, hfirst.table, hsecond, hwhole.heads, hfirst.heads, hheads, hkeeps⟩, hfirst.completed, ?_, fun l => ?_⟩
  · rw [hq]
    exact planned_completedSlots r₁.2
  · refine ⟨hwhole.updated l, hfirst.updated l, ?_⟩
    rw [hq]
    exact planned_updated compress hrows.exclusive₁ hsecond.wf hmap₁

/-- A head of microbatch 1 that microbatch 0 does not claim is the head of its row. -/
theorem head_of_row (hrows : CutRows g md.activeRows md₀.activeRows md₁.activeRows f₀ f₁ k cut) {w : BatchRow}
    (hw : w ∈ md₁.activeRows) {x : Nat} (hx : x ∈ w.headSlots g) (hfree : x ∉ claims g md₀.activeRows) :
    ∃ v ∈ md.activeRows, x ∈ v.headSlots g := by
  obtain ⟨v, hv, rfl, hk⟩ := hrows.parent₁ hw
  obtain ⟨⟨-, hh⟩, rfl⟩ := BatchRow.mem_headSlots.mp hx
  have hhalves := hrows.halves v hv
  have hk0 : k v = 0 := by
    by_contra hne
    -- the region at the cut is the tail of the first half
    have htail : (f₀ v).tail g ≠ 0 := hhalves.head₁ (g := g) ▸ hh
    apply hfree
    rw [hhalves.slot₁, Nat.add_zero, ← hhalves.slot₀, ← BatchRow.lastSlot_eq htail]
    exact last_mem_claims hrows.active₀ (hrows.first_mem hv hne) htail
  refine ⟨v, hv, BatchRow.mem_headSlots.mpr ⟨⟨hrows.active v hv, ?_⟩, ?_⟩⟩
  · rw [hk0] at hhalves
    rwa [← hhalves.zero.2]
  · rw [hhalves.slot₁]
    rw [hk0] at hhalves
    rw [hhalves.zero.1]

/-- Both microbatches get their schedules when their claims fit and microbatch 1 still finds its heads. -/
theorem schedules_isOk (hwf : s.pending.Wf) (hrows : CutRows g md.activeRows md₀.activeRows md₁.activeRows f₀ f₁ k cut)
    (hun : generalStep g zero compress fused md index s = .ok (sched, u))
    (hroom : RoomForSplit g md md₀ md₁ (stepTable g s.completedSlots s.pending)) :
    ∃ r₀ r₁, generalSchedule g md₀ s.completedSlots s.pending = .ok r₀ ∧ secondSchedule g md₁ r₀.2 = .ok r₁ := by
  have hwhole := general_outcome compress hwf hrows.exclusive hun
  have hfresh := stepTable_fresh (g := g) hwf s.completedSlots
  have hmapped : ∀ v ∈ md.activeRows, ∀ x ∈ v.headSlots g, ∃ row,
      (stepTable g s.completedSlots s.pending).rowOfSlot x = some row :=
    fun v hv x hx => (hwhole.heads v hv x hx).imp fun _ hr => hr.1
  have hheads₀ : ∀ x ∈ md₀.activeRows.flatMap (·.headSlots g), ∃ row,
      (stepTable g s.completedSlots s.pending).rowOfSlot x = some row := by
    intro x hx
    obtain ⟨w, hw, hx⟩ := List.mem_flatMap.mp hx
    obtain ⟨v, hv, rfl, -⟩ := hrows.parent₀ hw
    obtain ⟨⟨-, hh⟩, rfl⟩ := BatchRow.mem_headSlots.mp hx
    have hhalves := hrows.halves v hv
    apply hmapped v hv
    exact BatchRow.mem_headSlots.mpr ⟨⟨hrows.active v hv, hhalves.head₀ ▸ hh⟩, hhalves.slot₀ 0⟩
  have hcard : (claims g md₀.activeRows).card ≤ (stepTable g s.completedSlots s.pending).capacity :=
    (Finset.card_le_card Finset.subset_union_left).trans hroom.fits
  obtain ⟨t₀, hclaim⟩ := (claimRows_isOk (stepTable_wf hwf _) hfresh).mpr ⟨hheads₀, hcard⟩
  have hfirst := (claimed_rows (g := g) (stepTable_wf hwf _) (claims_eq _) hclaim).1
  have hsecond : ∀ w ∈ md₁.activeRows, ∀ x ∈ w.headSlots g, ∃ row, t₀.rowOfSlot x = some row := by
    intro w hw x hx
    by_cases hc : x ∈ claims g md₀.activeRows
    · exact hfirst.mapped x hc
    · obtain ⟨v, hv, hxv⟩ := head_of_row hrows hw hx hc
      obtain ⟨row, hr⟩ := hmapped v hv x hxv
      exact ⟨row, (hfirst.survives_iff (stepTable_wf hwf _) hc hr).mpr (hroom.heads w hw x hx hc)⟩
  obtain ⟨r₁, h₁⟩ := (second_isOk hfresh hfirst).mpr ⟨hsecond, hroom.fits⟩
  have h₀ : generalSchedule g md₀ s.completedSlots s.pending =
      .ok (planned g md₀ t₀ md₀.generalRows ⟨[], 0, [], []⟩, t₀) := by
    rw [generalClaim_eq hwf, hclaim]
    rfl
  exact ⟨_, r₁, h₀, h₁⟩

theorem mapped_iff (hwf : s.pending.Wf) (hrows : CutRows g md.activeRows md₀.activeRows md₁.activeRows f₀ f₁ k cut)
    (hroom : RoomForSplit g md md₀ md₁ (stepTable g s.completedSlots s.pending)) {t₀ t₁ : Step4PendingTable}
    (ht : CutTables g md.activeRows md₀.activeRows md₁.activeRows (stepTable g s.completedSlots s.pending) u.pending t₀ t₁)
    {slot : Nat} (hopen : ¬ClosedBy g md.activeRows slot) :
    (∃ row, t₁.rowOfSlot slot = some row) ↔ ∃ row, u.pending.rowOfSlot slot = some row := by
  have hwf' := stepTable_wf (g := g) hwf s.completedSlots
  by_cases hc : slot ∈ claims g md₀.activeRows ∪ claims g md₁.activeRows
  · have hclaim := (hrows.claimed_or_closed hc).resolve_right hopen
    exact ⟨fun _ => ht.whole.mapped slot hclaim, fun _ => ht.second.mapped slot hc⟩
  · constructor
    · intro ⟨row, hr⟩
      exact ⟨row, ht.whole.mapped_of_subset hwf' ht.second hrows.claims_subset hc hr⟩
    · intro ⟨row, hr⟩
      have hnot : slot ∉ claims g md.activeRows := fun hmem => hc (hrows.claims_subset hmem)
      have hb := (ht.whole.others slot hnot row hr).1
      have hleft := hroom.others slot ⟨row, hb⟩ hc hopen (ht.whole.room hwf' hnot hr)
      exact ⟨row, (ht.second.survives_iff hwf' hc hb).mpr hleft⟩

theorem pendingTokens_endStep {rows : List BatchRow} {completed : List Nat} {t : Step4PendingTable} {P : Nat × Nat → κ}
    {slot : Nat} (hs : slot ∉ completed) :
    pendingTokens g rows (endStep g completed t) P slot = pendingTokens g rows t P slot := by
  unfold pendingTokens rowOf
  rw [endStep_rowOfSlot hs, endStep_capacity]

theorem agrees_of_room (hwf : s.pending.Wf) (hp₀ : md₀.numPrefills ≠ 0) (hp₁ : md₁.numPrefills ≠ 0)
    (hahead : ahead < numLayers) (hrows : CutRows g md.activeRows md₀.activeRows md₁.activeRows f₀ f₁ k cut)
    (hun : generalStep g zero compress fused md index s = .ok (sched, u))
    (hroom : RoomForSplit g md md₀ md₁ (stepTable g s.completedSlots s.pending)) :
    ∃ run tensors, dboStep g zero compress md₀ md₁ cut numLayers ahead index s = .ok (run, tensors) ∧
      DboAgrees g md md₀ md₁ u run tensors := by
  obtain ⟨r₀, r₁, h₀, h₁⟩ := schedules_isOk hwf hrows hun hroom
  obtain ⟨ht, hc₀, hc₁, hupdated⟩ := both_outcomes hwf hrows hun h₀ h₁
  have hwhole := general_outcome compress hwf hrows.exclusive hun
  have hcompleted : r₀.1.completedSlots ++ r₁.1.completedSlots =
      md₀.activeRows.flatMap (·.completed g) ++ md₁.activeRows.flatMap (·.completed g) := by rw [hc₀, hc₁]
  have hlayers : ({ StepRun.start r₀ with layersDone := ahead }.join r₁).layersDone < numLayers := hahead
  have hmany : numLayers ≤ ({ StepRun.start r₀ with layersDone := ahead }.join r₁).layersDone + (2 * numLayers - ahead) := by
    change numLayers ≤ ahead + (2 * numLayers - ahead)
    omega
  obtain ⟨hpending, hleft, hdropped⟩ := StepRun.finishLayers_drop (g := g) hlayers hmany
  change _ = endStep g (r₀.1.completedSlots ++ r₁.1.completedSlots) r₁.2 at hpending
  change _ = [] ++ (r₀.1.completedSlots ++ r₁.1.completedSlots).map fun slot => (slot, 2) at hdropped
  rw [hcompleted] at hpending hdropped
  rw [List.nil_append] at hdropped
  have hopen : ∀ {slot : Nat}, ¬ClosedBy g md.activeRows slot →
      slot ∉ md₀.activeRows.flatMap (·.completed g) ++ md₁.activeRows.flatMap (·.completed g) ∧
        slot ∉ u.completedSlots := by
    intro slot ho
    refine ⟨fun hc => ho (hrows.completed_closed hc), fun hc => ho ?_⟩
    rw [hwhole.completed] at hc
    exact hrows.completed_closed (hrows.completed_subset hc)
  refine ⟨_, _, (dboStep_ok hp₀ hp₁ hahead).mpr ⟨r₀, r₁, h₀, h₁, rfl, rfl⟩, ?_, ?_, ?_, hleft, ?_, ?_⟩
  · intro l slot
    obtain ⟨hU, hU₀, hU₁⟩ := hupdated l
    exact hrows.summaries_eq ht hU hU₀ hU₁ slot
  · intro slot ho
    rw [hpending, endStep_rowOfSlot (hopen ho).1, endStep_rowOfSlot (hopen ho).2]
    exact mapped_iff hwf hrows hroom ht ho
  · intro l slot ho hmap
    rw [hpending, endStep_rowOfSlot (hopen ho).1] at hmap
    obtain ⟨row, hr⟩ := hmap
    obtain ⟨hU, hU₀, hU₁⟩ := hupdated l
    rw [hpending, pendingTokens_endStep (hopen ho).1, pendingTokens_endStep (hopen ho).2]
    exact hrows.pendingTokens_eq ht (stepTable_wf hwf _) hU hU₀ hU₁ ho hr
  · intro slot hmem
    rw [hdropped, List.map_map]
    change (List.map (fun slot => slot) _).count slot = 1
    rw [List.map_id']
    apply List.count_eq_one_of_mem hrows.completed_nodup
    rcases List.mem_append.mp hmem with hm | hm
    · rw [hwhole.completed] at hm
      exact hrows.completed_subset hm
    · exact hm
  · intro d hd
    rw [hdropped] at hd
    obtain ⟨slot, -, rfl⟩ := List.mem_map.mp hd
    rfl

theorem room_of_agrees (hwf : s.pending.Wf) (hp₀ : md₀.numPrefills ≠ 0) (hp₁ : md₁.numPrefills ≠ 0)
    (hahead : ahead < numLayers) (hrows : CutRows g md.activeRows md₀.activeRows md₁.activeRows f₀ f₁ k cut)
    (hun : generalStep g zero compress fused md index s = .ok (sched, u)) {run : StepRun}
    {tensors : ι → LayerTensors κ σ}
    (hok : dboStep g zero compress md₀ md₁ cut numLayers ahead index s = .ok (run, tensors))
    (hagree : DboAgrees g md md₀ md₁ u run tensors) :
    RoomForSplit g md md₀ md₁ (stepTable g s.completedSlots s.pending) := by
  obtain ⟨r₀, r₁, h₀, h₁, hrun, -⟩ := (dboStep_ok hp₀ hp₁ hahead).mp hok
  obtain ⟨ht, hc₀, hc₁, -⟩ := both_outcomes hwf hrows hun h₀ h₁
  have hwhole := general_outcome compress hwf hrows.exclusive hun
  have hwf' := stepTable_wf (g := g) hwf s.completedSlots
  refine ⟨ht.second.card_le_capacity, ?_, ?_⟩
  · intro v hv slot hs hfree
    obtain ⟨row, hr, -⟩ := ht.heads₁ v hv slot hs
    exact ht.first.room hwf' hfree hr
  · intro slot ⟨row, hb⟩ hfree hopen hroom
    have hnot : slot ∉ claims g md.activeRows := fun hmem => hfree (hrows.claims_subset hmem)
    have hleft := (ht.whole.survives_iff hwf' hnot hb).mpr hroom
    have hunc : slot ∉ u.completedSlots := by
      intro hc
      rw [hwhole.completed] at hc
      exact hopen (hrows.completed_closed (hrows.completed_subset hc))
    have hsplit := (hagree.mapped slot hopen).mpr ⟨row, by rw [endStep_rowOfSlot hunc]; exact hleft⟩
    have hlayers : ({ StepRun.start r₀ with layersDone := ahead }.join r₁).layersDone < numLayers := hahead
    have hmany : numLayers ≤ ({ StepRun.start r₀ with layersDone := ahead }.join r₁).layersDone + (2 * numLayers - ahead) := by
      change numLayers ≤ ahead + (2 * numLayers - ahead)
      omega
    have hpending := (StepRun.finishLayers_drop (g := g) hlayers hmany).1
    rw [← hrun] at hpending
    change _ = endStep g (r₀.1.completedSlots ++ r₁.1.completedSlots) r₁.2 at hpending
    rw [hc₀, hc₁] at hpending
    rw [hpending, endStep_rowOfSlot fun hc => hopen (hrows.completed_closed hc)] at hsplit
    obtain ⟨row', hr'⟩ := hsplit
    exact ht.second.room hwf' hfree hr'

end

/-- From a reachable state, a step cut into two microbatches with prefill rows agrees with the unsplit step exactly
when there is room for both. -/
theorem dboStep_agrees_iff {maxNumSeqs : Nat} {s u : Step4DSAState ι κ σ} {sched : Step4DSASchedule}
    {md : Step4DSAMetadata} {cut d₀ dt₀ d₁ dt₁ numLayers ahead : Nat} {index : ι → Nat → κ}
    (hs : Reachable g zero compress fused maxNumSeqs s) (hcut : Cuttable md cut)
    (hex : ExclusiveRows g md.activeRows) (hp₀ : (microbatch0 md cut d₀ dt₀).numPrefills ≠ 0)
    (hp₁ : (microbatch1 md cut d₁ dt₁).numPrefills ≠ 0) (hahead : ahead < numLayers)
    (hun : generalStep g zero compress fused md index s = .ok (sched, u)) :
    (∃ run tensors, dboStep g zero compress (microbatch0 md cut d₀ dt₀) (microbatch1 md cut d₁ dt₁) cut numLayers ahead
        index s = .ok (run, tensors) ∧
      DboAgrees g md (microbatch0 md cut d₀ dt₀) (microbatch1 md cut d₁ dt₁) u run tensors) ↔
    RoomForSplit g md (microbatch0 md cut d₀ dt₀) (microbatch1 md cut d₁ dt₁) (stepTable g s.completedSlots s.pending) := by
  have hd₀ : d₀ ≤ requestStop md cut := (Nat.lt_of_sub_ne_zero hp₀).le
  have hd₁ : d₁ ≤ requestStop md (md.queryStartLoc (numReqs md)) - requestStart md cut := (Nat.lt_of_sub_ne_zero hp₁).le
  have hrows : CutRows g md.activeRows (microbatch0 md cut d₀ dt₀).activeRows (microbatch1 md cut d₁ dt₁).activeRows
      (firstHalf cut) (secondHalf cut (requestStart md cut)) (fun v => min v.qlen (cut - v.tokStart)) cut :=
    cutRows_of hcut hd₀ hd₁ hex
  constructor
  · intro ⟨run, tensors, hok, hagree⟩
    exact room_of_agrees hs.wf hp₀ hp₁ hahead hrows hun hok hagree
  · intro hroom
    exact agrees_of_room hs.wf hp₀ hp₁ hahead hrows hun hroom

end

/-! ## Steps with and without room -/

theorem eight_pos : 0 < 8 := by decide

/-- Regions of 8 tokens, pages of 8 regions, three draft tokens. -/
def threeDrafts : Step4DSAGeometry := ⟨8, 8, 4, by decide, eight_pos⟩

/-- A batch of `n` requests: their queries, the tokens before them and their pages. -/
def batchOf (numDecodes numPrefills : Nat) (queryStartLoc seqLens page : Nat → Nat) : Step4DSAMetadata where
  numDecodes := numDecodes
  numPrefills := numPrefills
  numDecodeTokens := 4 * numDecodes
  queryStartLoc := queryStartLoc
  seqLens := seqLens
  blockTable i _ := page i
  numPages := 1

abbrev SampleState : Type := Step4DSAState Unit Nat Nat

def sampleForward (md : Step4DSAMetadata) (s : SampleState) : Except String (Step4DSASchedule × SampleState) :=
  forward threeDrafts 0 (fun _ => 0) false md (fun _ i => i) s

def sampleStart (maxNumSeqs : Nat) : SampleState := ⟨{ capacity := 2 * maxNumSeqs + 16 }, [], fun _ => ⟨fun _ => 0, fun _ => 0⟩⟩

abbrev SampleReachable (maxNumSeqs : Nat) (s : SampleState) : Prop := Reachable threeDrafts 0 (fun _ => 0) false maxNumSeqs s

/-- Two new requests. The second has tokens on both sides of token 10. -/
def straddling : Step4DSAMetadata := batchOf 0 2 (fun i => if i = 2 then 25 else 5 * i) (fun i => if i = 0 then 5 else 20) (fun i => i + 1)

theorem straddling_room : RoomForSplit threeDrafts straddling (microbatch0 straddling 10 0 0) (microbatch1 straddling 10 0 0)
    (stepTable threeDrafts [] (sampleStart 2).pending) where
  fits := by decide
  heads := by
    intro v hv slot hs hfree
    have hclaimed : ∀ v ∈ (microbatch1 straddling 10 0 0).activeRows, ∀ slot ∈ v.headSlots threeDrafts,
        slot ∈ claims threeDrafts (microbatch0 straddling 10 0 0).activeRows := by decide
    exact absurd (hclaimed v hv slot hs) hfree
  others := by
    intro slot ⟨row, hr⟩
    cases hr

theorem dboStep_agrees_iff_straddling : ∃ sched u,
    generalStep threeDrafts 0 (fun _ => 0) false straddling (fun _ i => i) (sampleStart 2) = .ok (sched, u) ∧
    ∃ run tensors, dboStep threeDrafts 0 (fun _ => 0) (microbatch0 straddling 10 0 0) (microbatch1 straddling 10 0 0) 10
        23 1 (fun _ i => i) (sampleStart 2) = .ok (run, tensors) ∧
      DboAgrees threeDrafts straddling (microbatch0 straddling 10 0 0) (microbatch1 straddling 10 0 0) u run tensors :=
  ⟨_, _, rfl, (dboStep_agrees_iff (.initial _) ⟨rfl, by decide, by decide, by decide⟩ (by decide) (by decide) (by decide)
    (by decide) rfl).mpr straddling_room⟩

/-- 19 new requests, the first with 1 token and the others with 5. -/
def newRequests : Step4DSAMetadata := batchOf 0 19 (fun i => 5 * i - 4) (fun i => if i = 0 then 1 else 5) (fun i => i + 1)

/-- The others verify drafts across a region's end; the first request goes on inside its region. -/
def verifyRequests : Step4DSAMetadata :=
  batchOf 18 1 (fun i => if i ≤ 18 then 4 * i else 77) (fun i => if i < 18 then 9 else 6) (fun i => if i < 18 then i + 2 else 1)

/-- The others are done, and 18 new requests come before the first one. -/
def nextRequests : Step4DSAMetadata := batchOf 0 19 (fun i => 5 * i) (fun i => if i < 18 then 5 else 11) (fun i => if i < 18 then i + 20 else 1)

def sampleRun : List Step4DSAMetadata → SampleState → Except String SampleState
  | [], s => .ok s
  | md :: mds, s => do
    let (_, s) ← sampleForward md s
    sampleRun mds s

theorem sampleRun_reachable {maxNumSeqs : Nat} : ∀ {mds : List Step4DSAMetadata} {s s' : SampleState},
    SampleReachable maxNumSeqs s → (∀ md ∈ mds, numReqs md ≤ maxNumSeqs) → sampleRun mds s = .ok s' →
    SampleReachable maxNumSeqs s'
  | [], s, s', hs, _, h => by
    cases h
    exact hs
  | md :: mds, s, s', hs, hbatch, h => by
    obtain ⟨r, hr, h⟩ := bind_eq_ok.mp h
    obtain ⟨hmd, hmds⟩ := List.forall_mem_cons.mp hbatch
    exact sampleRun_reachable (hs.forward hmd hr) hmds h

/-- Whether the next batch succeeds unsplit and fails when cut. -/
def failsCut (s : SampleState) : Bool :=
  (generalStep threeDrafts 0 (fun _ => 0) false nextRequests (fun _ i => i) s).isOk &&
    !(dboStep threeDrafts 0 (fun _ => 0) (microbatch0 nextRequests 90 0 0) (microbatch1 nextRequests 90 0 0) 90 23 1
      (fun _ i => i) s).isOk

set_option maxRecDepth 100000 in
theorem sampleRun_failsCut :
    (sampleRun [newRequests, verifyRequests] (sampleStart 19)).toOption.map failsCut = some true := by
  decide +kernel

/-- The first request's region is recycled for the last of the new ones. -/
theorem microbatch_without_head : ∃ s : SampleState, SampleReachable 19 s ∧ Cuttable nextRequests 90 ∧
    numReqs nextRequests ≤ 19 ∧ ExclusiveRows threeDrafts nextRequests.activeRows ∧
    (microbatch0 nextRequests 90 0 0).numPrefills ≠ 0 ∧ (microbatch1 nextRequests 90 0 0).numPrefills ≠ 0 ∧
    (∃ sched u, generalStep threeDrafts 0 (fun _ => 0) false nextRequests (fun _ i => i) s = .ok (sched, u)) ∧
    ¬∃ run tensors, dboStep threeDrafts 0 (fun _ => 0) (microbatch0 nextRequests 90 0 0) (microbatch1 nextRequests 90 0 0)
      90 23 1 (fun _ i => i) s = .ok (run, tensors) := by
  have hrun := sampleRun_failsCut
  cases hs : sampleRun [newRequests, verifyRequests] (sampleStart 19) with
  | error e =>
    rw [hs] at hrun
    cases hrun
  | ok s =>
    rw [hs] at hrun
    have hfails : failsCut s = true := Option.some.inj hrun
    unfold failsCut at hfails
    rw [Bool.and_eq_true, Bool.not_eq_true'] at hfails
    obtain ⟨hwhole, hsplit⟩ := hfails
    refine ⟨s, sampleRun_reachable (.initial _) (by decide) hs, ?_, by decide, by decide, by decide, by decide, ?_, ?_⟩
    · exact ⟨rfl, by decide, by decide, by decide⟩
    · cases h : generalStep threeDrafts 0 (fun _ => 0) false nextRequests (fun _ i => i) s with
      | error e =>
        rw [h] at hwhole
        cases hwhole
      | ok r => exact ⟨r.1, r.2, rfl⟩
    · intro ⟨run, tensors, h⟩
      rw [h] at hsplit
      cases hsplit

end VllmHcu.Dbo
