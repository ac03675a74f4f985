import VllmHcu.Dbo.CutSound

/-!
# When a split step agrees with the unsplit one

Microbatch 1 protects its heads only after microbatch 0 has claimed its rows, and
the two microbatches claim the region at the cut besides those of the batch. The
split step does what the unsplit step does exactly when there is room for both.
-/

namespace VllmHcu.Dbo

open Step4 Step4PendingTable

/-! ## Completed slots -/

section
variable {g : Step4DSAGeometry} {rows rows₀ rows₁ : List BatchRow} {f₀ f₁ : BatchRow → BatchRow} {k : BatchRow → Nat}
  {cut : Nat} {v : BatchRow} {slot : Nat}

theorem region_of_completed (hs : slot ∈ v.completed g) : slot ∈ v.regionSlots g := by
  obtain ⟨j, hj, rfl⟩ := Halves.closes_of_completed hs
  exact BatchRow.slot_mem_regionSlots (BatchRow.lt_nregions hj)

theorem completed_nodup_row (hinj : (v.regionSlots g).Nodup) : (v.completed g).Nodup := by
  have inj : ∀ {i j : Nat}, i < v.nregions g → j < v.nregions g → v.slot g i = v.slot g j → i = j := fun hi hj he =>
    List.inj_on_of_nodup_map hinj (List.mem_range.mpr hi) (List.mem_range.mpr hj) he
  unfold BatchRow.completed
  by_cases hq : v.qlen = 0
  · rw [if_pos hq]
    exact List.nodup_nil
  · rw [if_neg hq]
    refine List.nodup_append.mpr ⟨?_, ?_, ?_⟩
    · unfold closedHead
      split
      · exact List.nodup_singleton _
      · exact List.nodup_nil
    · unfold BatchRow.keptSlots
      split
      · refine List.Nodup.map_on ?_ ?_
        · intro i hi j hj he
          rw [BatchRow.closedRegions_eq, List.mem_filter, List.mem_range] at hi hj
          exact inj (BatchRow.lt_nregions hi.1) (BatchRow.lt_nregions hj.1) he
        · rw [BatchRow.closedRegions_eq]
          exact List.nodup_range.filter _
      · exact List.nodup_nil
    · intro a ha c hc he
      subst he
      unfold closedHead at ha
      split at ha
      · rename_i hclose
        rw [List.mem_singleton.mp ha] at hc
        obtain ⟨-, j, hj, hn, hs⟩ := BatchRow.mem_keptSlots.mp hc
        obtain ⟨hh, hpos⟩ := BatchRow.closesHead_iff.mp hclose
        exact hn ⟨(inj (BatchRow.lt_nregions hpos) (BatchRow.lt_nregions hj) hs).symm, hh⟩
      · cases ha

theorem completed_nodup (hex : ExclusiveRows g rows) : (rows.flatMap (·.completed g)).Nodup := by
  obtain ⟨hrow, hpair⟩ := List.nodup_flatMap.mp hex
  refine List.nodup_flatMap.mpr ⟨fun v hv => completed_nodup_row (hrow v hv), hpair.imp fun hd => ?_⟩
  intro s hs hs'
  exact hd (region_of_completed hs) (region_of_completed hs')

namespace CutRows

theorem completed_nodup (h : CutRows g rows rows₀ rows₁ f₀ f₁ k cut) :
    (rows₀.flatMap (·.completed g) ++ rows₁.flatMap (·.completed g)).Nodup := by
  refine List.nodup_append.mpr ⟨Dbo.completed_nodup h.exclusive₀, Dbo.completed_nodup h.exclusive₁, ?_⟩
  intro a ha c hc he
  subst he
  obtain ⟨w, hw, hs⟩ := List.mem_flatMap.mp ha
  obtain ⟨w', hw', hs'⟩ := List.mem_flatMap.mp hc
  obtain ⟨j, hj, rfl⟩ := Halves.closes_of_completed hs
  obtain ⟨j', hj', he⟩ := Halves.closes_of_completed hs'
  obtain ⟨v, hv, rfl, -, hlt, hslot⟩ := h.region₀ hw (BatchRow.lt_nregions hj)
  obtain ⟨v', hv', rfl, -, hlt', hslot'⟩ := h.region₁ hw' (BatchRow.lt_nregions hj')
  obtain ⟨rfl, hjj⟩ := h.exclusive.slot_inj hv hv' hlt hlt' (hslot.symm.trans (he.trans hslot'))
  omega

/-- Only closed regions are completed, and those that the whole batch completes are among them. -/
theorem completed_closed (h : CutRows g rows rows₀ rows₁ f₀ f₁ k cut)
    (hs : slot ∈ rows₀.flatMap (·.completed g) ++ rows₁.flatMap (·.completed g)) : ClosedBy g rows slot := by
  rw [h.closedBy]
  rcases List.mem_append.mp hs with hs | hs
  · obtain ⟨w, hw, hs⟩ := List.mem_flatMap.mp hs
    exact .inl ⟨w, hw, Halves.closes_of_completed hs⟩
  · obtain ⟨w, hw, hs⟩ := List.mem_flatMap.mp hs
    exact .inr ⟨w, hw, Halves.closes_of_completed hs⟩

theorem completed_subset (h : CutRows g rows rows₀ rows₁ f₀ f₁ k cut) (hs : slot ∈ rows.flatMap (·.completed g)) :
    slot ∈ rows₀.flatMap (·.completed g) ++ rows₁.flatMap (·.completed g) := by
  obtain ⟨v, hv, hs⟩ := List.mem_flatMap.mp hs
  rw [List.mem_append, List.mem_flatMap, List.mem_flatMap]
  rcases (h.halves v hv).completed hs with hc | hc
  · exact .inl ⟨f₀ v, (h.mem₀ _).mpr ⟨v, hv, rfl, (Halves.mem_completed.mp hc).1⟩, hc⟩
  · exact .inr ⟨f₁ v, (h.mem₁ _).mpr ⟨v, hv, rfl, (Halves.mem_completed.mp hc).1⟩, hc⟩

end CutRows

end

/-! ## The schedule of microbatch 1 -/

section
variable {g : Step4DSAGeometry} {b t t' : Step4PendingTable} {D : Finset Nat} {md : Step4DSAMetadata}

theorem secondSchedule_eq (hwf : t.Wf) : secondSchedule g md t =
    (claimRows t (md.activeRows.flatMap (·.headSlots g)) (md.activeRows.flatMap (·.generalClaims g))).map fun t' =>
      (planned g md t' md.generalRows ⟨[], 0, [], []⟩, t') := by
  rw [← active_flatMap (f := (·.headSlots g)), ← active_flatMap (f := (·.generalClaims g))]
  · unfold secondSchedule claimRows
    rw [protectHeads_eq]
    cases hg : t.getAll (md.generalRows.flatMap (·.headSlots g)) with
    | error e => rfl
    | ok u =>
      have hu := (TouchedFrom.refl hwf).getAll hg
      rw [Finset.empty_union] at hu
      simp only [Except.map, bind, Except.bind]
      exact planRows_eq md md.generalRows _ hu fun v hv s hs =>
        List.mem_toFinset.mpr (List.mem_flatMap.mpr ⟨v, hv, hs⟩)
  · intro v hq
    simp [BatchRow.generalClaims, hq]
  · intro v hq
    simp [BatchRow.headSlots, hq]

/-- What a schedule does to a table on which `D` has been claimed in this step. -/
theorem second_ok (h : TouchedFrom b D t) {q : GeneralSchedule} (hs : secondSchedule g md t = .ok (q, t')) :
    TouchedFrom b (D ∪ claims g md.activeRows) t' ∧
      (∀ x ∈ D, ∀ row, t.rowOfSlot x = some row → t'.rowOfSlot x = some row) ∧
      (∀ v ∈ md.activeRows, ∀ x ∈ v.headSlots g, ∃ row, t.rowOfSlot x = some row ∧ t'.rowOfSlot x = some row) ∧
      q = planned g md t' md.generalRows ⟨[], 0, [], []⟩ := by
  rw [secondSchedule_eq h.wf] at hs
  obtain ⟨u', hclaim, he⟩ := map_eq_ok.mp hs
  cases he
  obtain ⟨u, hg, ha⟩ := bind_eq_ok.mp hclaim
  obtain ⟨hrows, hmapped⟩ := getAll_ok hg
  obtain ⟨hall, hkeep⟩ := (h.getAll hg).acquireAll ha
  rw [Finset.union_assoc, ← claims_eq] at hall
  refine ⟨hall, ?_, ?_, rfl⟩
  · intro x hx row hr
    exact hkeep x (Finset.mem_union_left _ hx) row (by rwa [hrows])
  · intro v hv x hx
    have hmem : x ∈ md.activeRows.flatMap (·.headSlots g) := List.mem_flatMap.mpr ⟨v, hv, hx⟩
    obtain ⟨row, hr⟩ := hmapped x hmem
    exact ⟨row, hr, hkeep x (Finset.mem_union_right _ (List.mem_toFinset.mpr hmem)) row (by rwa [hrows])⟩

/-- It raises unless every head has a row and the claims of the step fit the table. -/
theorem second_isOk (hfresh : b.Fresh) (h : TouchedFrom b D t) : (∃ r, secondSchedule g md t = .ok r) ↔
    (∀ v ∈ md.activeRows, ∀ x ∈ v.headSlots g, ∃ row, t.rowOfSlot x = some row) ∧
      (D ∪ claims g md.activeRows).card ≤ b.capacity := by
  constructor
  · rintro ⟨⟨q, t'⟩, hs⟩
    obtain ⟨hall, -, hheads, -⟩ := second_ok h hs
    exact ⟨fun v hv x hx => (hheads v hv x hx).imp fun _ hr => hr.1, hall.card_le_capacity⟩
  · intro ⟨hheads, hcard⟩
    have hmapped : ∀ x ∈ md.activeRows.flatMap (·.headSlots g), ∃ row, t.rowOfSlot x = some row := by
      intro x hx
      obtain ⟨v, hv, hx⟩ := List.mem_flatMap.mp hx
      exact hheads v hv x hx
    obtain ⟨u, hg⟩ := getAll_isOk hmapped
    rw [claims_eq, ← Finset.union_assoc] at hcard
    obtain ⟨t', ha⟩ := (h.getAll hg).acquireAll_isOk hfresh hcard
    rw [secondSchedule_eq h.wf]
    exact ⟨_, map_eq_ok.mpr ⟨t', bind_eq_ok.mpr ⟨u, hg, ha⟩, rfl⟩⟩

end

/-! ## Finished layers -/

namespace StepRun

variable {g : Step4DSAGeometry} {numLayers : Nat}

/-- Nothing is dropped while there are fewer finished layers than the model has. -/
theorem finishLayers_early : ∀ {n : Nat} {r : StepRun}, r.layersDone + n < numLayers →
    r.finishLayers g numLayers n = { r with layersDone := r.layersDone + n }
  | 0, _, _ => rfl
  | n + 1, r, h => by
    have hone : ¬numLayers ≤ r.layersDone + 1 := by omega
    unfold finishLayers finishLayer
    rw [if_neg hone, finishLayers_early (by dsimp only; omega)]
    dsimp only
    rw [Nat.add_right_comm, Nat.add_assoc]

theorem finishLayers_idle : ∀ {n : Nat} {r : StepRun}, r.completedSlots = [] →
    (r.finishLayers g numLayers n).pending = r.pending ∧ (r.finishLayers g numLayers n).completedSlots = [] ∧
      (r.finishLayers g numLayers n).dropped = r.dropped
  | 0, _, h => ⟨rfl, h, rfl⟩
  | n + 1, r, h => by
    have hkeep : (r.finishLayer g numLayers).pending = r.pending ∧ (r.finishLayer g numLayers).completedSlots = [] ∧
        (r.finishLayer g numLayers).dropped = r.dropped := by
      unfold finishLayer
      split
      · unfold StepRun.endStep
        simp [h, Step4.endStep]
      · exact ⟨rfl, h, rfl⟩
    unfold finishLayers
    obtain ⟨hp, hc, hd⟩ := finishLayers_idle (n := n) (r := r.finishLayer g numLayers) hkeep.2.1
    exact ⟨hp.trans hkeep.1, hc, hd.trans hkeep.2.2⟩

/-- The completed slots are dropped together, once as many layers are finished as the model has. -/
theorem finishLayers_drop : ∀ {n : Nat} {r : StepRun}, r.layersDone < numLayers → numLayers ≤ r.layersDone + n →
    (r.finishLayers g numLayers n).pending = Step4.endStep g r.completedSlots r.pending ∧
      (r.finishLayers g numLayers n).completedSlots = [] ∧
      (r.finishLayers g numLayers n).dropped = r.dropped ++ r.completedSlots.map fun slot => (slot, r.scheduled)
  | 0, r, h, h' => by omega
  | n + 1, r, h, h' => by
    unfold finishLayers
    by_cases hone : numLayers ≤ r.layersDone + 1
    · have hend : r.finishLayer g numLayers = { r with layersDone := r.layersDone + 1 }.endStep g := if_pos hone
      rw [hend]
      exact finishLayers_idle rfl
    · have hnext : r.finishLayer g numLayers = { r with layersDone := r.layersDone + 1 } := if_neg hone
      rw [hnext]
      exact finishLayers_drop (by dsimp only; omega) (by dsimp only; omega)

end StepRun

/-! ## Agreement -/

section
variable {ι κ σ : Type} (g : Step4DSAGeometry) (md md₀ md₁ : Step4DSAMetadata)

/-- What the split step leaves is what the unsplit step, ending in `u`, leaves: the summaries, and the tokens of every
region that is still open. Each completed slot was dropped once, and not before both microbatches had their rows. -/
structure DboAgrees (u : Step4DSAState ι κ σ) (run : StepRun) (tensors : ι → LayerTensors κ σ) : Prop where
  summaries : ∀ l slot, (tensors l).summary slot = (u.tensors l).summary slot
  mapped : ∀ slot, ¬ClosedBy g md.activeRows slot → ((∃ row, run.pending.rowOfSlot slot = some row) ↔
    ∃ row, (endStep g u.completedSlots u.pending).rowOfSlot slot = some row)
  tokens : ∀ l slot, ¬ClosedBy g md.activeRows slot → (∃ row, run.pending.rowOfSlot slot = some row) →
    pendingTokens g md.activeRows run.pending (tensors l).pending slot =
      pendingTokens g md.activeRows (endStep g u.completedSlots u.pending) (u.tensors l).pending slot
  nothingLeft : run.completedSlots = []
  droppedOnce : ∀ slot ∈ u.completedSlots ++ (md₀.activeRows.flatMap (·.completed g) ++
    md₁.activeRows.flatMap (·.completed g)), (run.dropped.map Prod.fst).count slot = 1
  droppedLate : ∀ d ∈ run.dropped, d.2 = 2

/-- There is room for both microbatches on the table `b` that the step begins with. -/
structure RoomForSplit (b : Step4PendingTable) : Prop where
  fits : (claims g md₀.activeRows ∪ claims g md₁.activeRows).card ≤ b.capacity
  /-- Microbatch 0 does not recycle what microbatch 1 resumes from. -/
  heads : ∀ v ∈ md₁.activeRows, ∀ slot ∈ v.headSlots g, slot ∉ claims g md₀.activeRows →
    b.Room (claims g md₀.activeRows) slot
  /-- The additional regions do not recycle what the unsplit step would leave. -/
  others : ∀ slot, (∃ row, b.rowOfSlot slot = some row) → slot ∉ claims g md₀.activeRows ∪ claims g md₁.activeRows →
    ¬ClosedBy g md.activeRows slot → b.Room (claims g md.activeRows) slot →
    b.Room (claims g md₀.activeRows ∪ claims g md₁.activeRows) slot

end

end VllmHcu.Dbo
