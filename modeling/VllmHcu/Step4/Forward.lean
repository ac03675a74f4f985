import VllmHcu.Step4.VerifySound
import VllmHcu.Lib.Loops

/-!
# One forward step

The state between two steps is the table, the slots the last schedule closed and
the tensors of every layer. Whatever schedule a batch takes, the step has the
same `Outcome` on the rows that hold tokens, and it raises for the same reasons.
-/

namespace VllmHcu.Step4

open Step4PendingTable

/-- `Step4DSAState` between two steps. -/
structure Step4DSAState (ι κ σ : Type) where
  pending : Step4PendingTable
  completedSlots : List Nat
  tensors : ι → LayerTensors κ σ

section
variable {ι κ σ : Type} (g : Step4DSAGeometry) (zero : κ) (compress : List κ → σ) (fused : Bool)

/-- Every layer runs its update on the schedule of the step. -/
def applySchedule (index : ι → Nat → κ) (s : Step4DSAState ι κ σ) (r : Step4DSASchedule × Step4PendingTable) :
    Step4DSASchedule × Step4DSAState ι κ σ :=
  (r.1, {
    pending := r.2
    completedSlots := r.1.completedSlots
    tensors := fun l => updateSummaries g zero compress fused (index l) s.pending.capacity (s.tensors l) r.1 })

def generalStep (md : Step4DSAMetadata) (index : ι → Nat → κ) (s : Step4DSAState ι κ σ) :
    Except String (Step4DSASchedule × Step4DSAState ι κ σ) :=
  (generalSchedule g md s.completedSlots s.pending).map fun r =>
    applySchedule g zero compress fused index s (.general r.1, r.2)

def decodeStep (md : Step4DSAMetadata) (index : ι → Nat → κ) (s : Step4DSAState ι κ σ) :
    Except String (Step4DSASchedule × Step4DSAState ι κ σ) :=
  (decodeSchedule g md s.completedSlots s.pending).map fun r =>
    applySchedule g zero compress fused index s (.decode r.1, r.2)

def specStep (md : Step4DSAMetadata) (index : ι → Nat → κ) (s : Step4DSAState ι κ σ) :
    Except String (Step4DSASchedule × Step4DSAState ι κ σ) :=
  (specDecodeSchedule g md s.completedSlots s.pending).map fun r =>
    applySchedule g zero compress fused index s (.spec r.1, r.2)

/-- The step as `schedule` dispatches it. -/
def forward (md : Step4DSAMetadata) (index : ι → Nat → κ) (s : Step4DSAState ι κ σ) :
    Except String (Step4DSASchedule × Step4DSAState ι κ σ) :=
  (schedule g md s.completedSlots s.pending).map (applySchedule g zero compress fused index s)

variable {g zero fused}

/-- The effect of a step on the batch `rows`. -/
structure Outcome (rows : List BatchRow) (index : ι → Nat → κ) (s s' : Step4DSAState ι κ σ) : Prop where
  table : TouchedFrom (stepTable g s.completedSlots s.pending) (claims g rows) s'.pending
  heads : ∀ v ∈ rows, ∀ x ∈ v.headSlots g, ∃ row,
    (stepTable g s.completedSlots s.pending).rowOfSlot x = some row ∧ s'.pending.rowOfSlot x = some row
  completed : s'.completedSlots = rows.flatMap (·.completed g)
  updated : ∀ l, Updated compress g rows s'.pending (index l) (s.tensors l) (s'.tensors l)

variable {md : Step4DSAMetadata} {index : ι → Nat → κ} {s s' : Step4DSAState ι κ σ} {sched : Step4DSASchedule}

theorem claims_eq (rows : List BatchRow) : claims g rows =
    (rows.flatMap (·.headSlots g)).toFinset ∪ (rows.flatMap (·.generalClaims g)).toFinset := rfl

theorem claims_spec {rows : List BatchRow} (hq : ∀ v ∈ rows, v.qlen ≠ 0) : claims g rows =
    (rows.flatMap (·.headSlots g)).toFinset ∪ (rows.flatMap (·.specClaims g)).toFinset := by
  rw [claims_eq]
  congr 1
  ext x
  simp only [List.mem_toFinset, List.mem_flatMap]
  have hiff : ∀ v ∈ rows, (x ∈ v.generalClaims g ↔ x ∈ v.specClaims g) := by
    intro v hv
    simp only [BatchRow.generalClaims, if_neg (hq v hv), BatchRow.specClaims, List.mem_append, or_comm]
  constructor
  · rintro ⟨v, hv, hx⟩
    exact ⟨v, hv, (hiff v hv).mp hx⟩
  · rintro ⟨v, hv, hx⟩
    exact ⟨v, hv, (hiff v hv).mpr hx⟩

theorem stepTable_capacity (completed : List Nat) (t : Step4PendingTable) :
    (stepTable g completed t).capacity = t.capacity :=
  endStep_capacity completed

theorem Step4PendingTable.TouchedFrom.mapped {b t : Step4PendingTable} {D : Finset Nat} (h : TouchedFrom b D t) :
    ∀ x ∈ D, ∃ row, t.rowOfSlot x = some row := by
  intro x hx
  obtain ⟨row, hrow, -⟩ := h.claimed x hx
  exact ⟨row, hrow⟩

theorem claimed_rows {rows : List BatchRow} {slots : List Nat} {b t : Step4PendingTable} (hwf : b.Wf)
    (hset : claims g rows = (rows.flatMap (·.headSlots g)).toFinset ∪ slots.toFinset)
    (h : claimRows b (rows.flatMap (·.headSlots g)) slots = .ok t) :
    TouchedFrom b (claims g rows) t ∧
      ∀ v ∈ rows, ∀ x ∈ v.headSlots g, ∃ row, b.rowOfSlot x = some row ∧ t.rowOfSlot x = some row := by
  obtain ⟨ht, hheads⟩ := claimRows_ok hwf h
  rw [← hset] at ht
  exact ⟨ht, fun v hv x hx => hheads x (List.mem_flatMap.mpr ⟨v, hv, hx⟩)⟩

theorem map_eq_ok {ε α β : Type} {x : Except ε α} {f : α → β} {y : β} (h : x.map f = .ok y) :
    ∃ a, x = .ok a ∧ f a = y := by
  cases x with
  | error e => cases h
  | ok a =>
    cases h
    exact ⟨a, rfl, rfl⟩

/-! ## The chunk-shaped step -/

/-- The rows of a general batch that hold tokens. -/
def Step4DSAMetadata.activeRows (md : Step4DSAMetadata) : List BatchRow :=
  md.generalRows.filter fun v => v.qlen ≠ 0

theorem mem_activeRows {v : BatchRow} : v ∈ md.activeRows ↔
    v.row < md.numDecodes + md.numPrefills ∧ v = md.generalRow v.row ∧ v.qlen ≠ 0 := by
  unfold Step4DSAMetadata.activeRows Step4DSAMetadata.generalRows
  simp only [List.mem_filter, List.mem_map, List.mem_range, decide_eq_true_eq]
  constructor
  · rintro ⟨⟨i, hi, rfl⟩, hq⟩
    exact ⟨hi, rfl, hq⟩
  · intro ⟨hi, he, hq⟩
    exact ⟨⟨v.row, hi, he.symm⟩, hq⟩

theorem active_flatMap {β : Type} {f : BatchRow → List β} (hf : ∀ v : BatchRow, v.qlen = 0 → f v = []) :
    md.generalRows.flatMap f = md.activeRows.flatMap f := by
  refine (flatMap_filter_of_nil fun v _ hv => hf v ?_).symm
  simpa using hv

theorem placed_filter : ∀ (rows : List BatchRow) (off : Nat),
    placed g off (rows.filter fun v => v.qlen ≠ 0) = placed g off rows
  | [], _ => rfl
  | v :: vs, off => by
    by_cases hq : v.qlen = 0
    · rw [List.filter_cons_of_neg (by simp [hq])]
      conv_rhs => unfold placed
      rw [if_pos hq]
      exact placed_filter vs off
    · rw [List.filter_cons_of_pos (by simp [hq])]
      unfold placed
      rw [if_neg hq, if_neg hq, placed_filter vs]

theorem generalClaim_eq (hwf : s.pending.Wf) : generalSchedule g md s.completedSlots s.pending =
    (claimRows (stepTable g s.completedSlots s.pending) (md.activeRows.flatMap (·.headSlots g))
      (md.activeRows.flatMap (·.generalClaims g))).map fun t' =>
        (planned g md t' md.generalRows ⟨[], 0, [], []⟩, t') := by
  rw [generalSchedule_eq md s.completedSlots hwf, active_flatMap (f := (·.headSlots g)),
    active_flatMap (f := (·.generalClaims g))]
  · intro v hq
    simp [BatchRow.generalClaims, hq]
  · intro v hq
    simp [BatchRow.headSlots, hq]

theorem active_qlen {v : BatchRow} (hv : v ∈ md.activeRows) : v.qlen ≠ 0 := (mem_activeRows.mp hv).2.2

theorem planned_completedSlots (t : Step4PendingTable) :
    (planned g md t md.generalRows ⟨[], 0, [], []⟩).completedSlots = md.activeRows.flatMap (·.completed g) := by
  refine (planned_completed md md.generalRows _).trans ?_
  rw [List.nil_append]
  apply active_flatMap
  intro v hq
  simp [BatchRow.completed, hq]

theorem planned_updated {t : Step4PendingTable} {index : Nat → κ} {T : LayerTensors κ σ} (hex : ExclusiveRows g md.activeRows)
    (hwf : t.Wf) (hmap : ∀ x ∈ claims g md.activeRows, ∃ row, t.rowOfSlot x = some row) :
    Updated compress g md.activeRows t index T
      (updateSummariesGeneral g zero compress (planned g md t md.generalRows ⟨[], 0, [], []⟩) index T) := by
  have hreq : (planned g md t md.generalRows ⟨[], 0, [], []⟩).requests =
      (placed g 0 md.activeRows).map fun p => planOf g md t p.1 p.2 := by
    rw [planned_requests, List.nil_append, Step4DSAMetadata.activeRows, placed_filter]
  have hreg : (planned g md t md.generalRows ⟨[], 0, [], []⟩).regions =
      (placed g 0 md.activeRows).flatMap fun p => bufferRegions g p.2 p.1 := by
    rw [planned_regions, List.nil_append, Step4DSAMetadata.activeRows, placed_filter]
  exact updated_general compress (fun v hv => active_qlen hv) hex hwf hmap hreq hreg

theorem general_outcome (hwf : s.pending.Wf) (hex : ExclusiveRows g md.activeRows)
    (h : generalStep g zero compress fused md index s = .ok (sched, s')) :
    Outcome compress (g := g) md.activeRows index s s' := by
  unfold generalStep at h
  rw [generalClaim_eq hwf] at h
  obtain ⟨⟨gs, t⟩, hr, he⟩ := map_eq_ok h
  obtain ⟨u, hc, he'⟩ := map_eq_ok hr
  cases he'
  cases he
  obtain ⟨ht, hheads⟩ := claimed_rows (stepTable_wf hwf _) (claims_eq _) hc
  exact ⟨ht, hheads, planned_completedSlots t, fun l => planned_updated compress hex ht.wf ht.mapped⟩

/-! ## The fast steps -/

theorem decode_outcome (hwf : s.pending.Wf) (hmir : md.Mirrors) (hex : ExclusiveRows g (md.decodeRows g))
    (h : decodeStep g zero compress fused md index s = .ok (sched, s')) :
    Outcome compress (g := g) (md.decodeRows g) index s s' := by
  unfold decodeStep at h
  rw [decodeSchedule_eq md s.completedSlots hwf] at h
  obtain ⟨⟨ds, t⟩, hr, he⟩ := map_eq_ok h
  obtain ⟨u, hc, he'⟩ := map_eq_ok hr
  cases he'
  cases he
  obtain ⟨ht, hheads⟩ := claimed_rows (stepTable_wf hwf _) (claims_eq _) hc
  have hcap : s.pending.capacity = t.capacity := by
    rw [ht.capacity, stepTable_capacity]
  refine ⟨ht, hheads, rfl, fun l => ?_⟩
  simp only [hcap]
  exact updated_decode compress zero hmir ht.mapped hex ht.wf

theorem longest_le (hb : md.VerifyBatch g) : (md.verifyRows.map (·.qlen)).foldl max 0 ≤ max g.specQueryLen 1 := by
  have hle : ∀ (l : List Nat) (a : Nat), a ≤ max g.specQueryLen 1 → (∀ x ∈ l, x ≤ max g.specQueryLen 1) →
      l.foldl max a ≤ max g.specQueryLen 1 := by
    intro l
    induction l with
    | nil => intro a ha _; exact ha
    | cons x l ih =>
      intro a ha hl
      have hx := hl x (List.mem_cons_self ..)
      exact ih (max a x) (by omega) fun y hy => hl y (List.mem_cons_of_mem _ hy)
  refine hle _ 0 (Nat.zero_le _) ?_
  intro x hx
  obtain ⟨v, hv, rfl⟩ := List.mem_map.mp hx
  obtain ⟨i, hi, rfl⟩ := mem_verifyRows.mp hv
  exact hb.qlen_le i hi

theorem spec_outcome (hwf : s.pending.Wf) (hb : md.VerifyBatch g) (hex : ExclusiveRows g (md.aliveRows g))
    (h : specStep g zero compress fused md index s = .ok (sched, s')) :
    Outcome compress (g := g) (md.aliveRows g) index s s' := by
  have hq : ∀ v ∈ md.aliveRows g, v.qlen ≠ 0 := fun v hv => aliveRows_qlen md hv
  unfold specStep at h
  rw [specDecodeSchedule_eq md s.completedSlots hwf (longest_le hb)] at h
  obtain ⟨⟨ss, t⟩, hr, he⟩ := map_eq_ok h
  obtain ⟨u, hc, he'⟩ := map_eq_ok hr
  cases he'
  cases he
  obtain ⟨ht, hheads⟩ := claimed_rows (stepTable_wf hwf _) (claims_spec hq) hc
  have hcap : s.pending.capacity = t.capacity := by
    rw [ht.capacity, stepTable_capacity]
  refine ⟨ht, hheads, rfl, fun l => ?_⟩
  simp only [hcap, updateSummaries, updateSummariesSpec]
  split
  · exact updated_specFused compress hb ht.mapped hex ht.wf _
  · exact updated_specUnfused compress hb hex ht.wf ht.mapped

/-! ## How many regions a query is scored against -/

theorem general_visible (hwf : s.pending.Wf) (h : generalStep g zero compress fused md index s = .ok (sched, s'))
    {v : BatchRow} (hv : v ∈ md.activeRows) {i : Nat} (hi : i < v.qlen) :
    sched.visible g v.row i = (v.past + i) / g.regionSize := by
  unfold generalStep at h
  rw [generalClaim_eq hwf] at h
  obtain ⟨⟨gs, t⟩, hr, he⟩ := map_eq_ok h
  obtain ⟨u, hc, he'⟩ := map_eq_ok hr
  cases he'
  cases he
  have hfind : ∃ off, (planned g md t md.generalRows ⟨[], 0, [], []⟩).requests.find? (fun p => p.row == v.row) =
      some (planOf g md t off v) := by
    rw [planned_requests, List.nil_append]
    obtain ⟨off, hp⟩ := exists_placed (g := g) 0 (List.mem_filter.mp hv).1 (active_qlen hv)
    cases hf : ((placed g 0 md.generalRows).map fun p => planOf g md t p.1 p.2).find? (fun p => p.row == v.row) with
    | none =>
      have := List.find?_eq_none.mp hf (planOf g md t off v) (List.mem_map.mpr ⟨(off, v), hp, rfl⟩)
      simp [planOf] at this
    | some plan =>
      obtain ⟨⟨off', w⟩, hw, rfl⟩ := List.mem_map.mp (List.mem_of_find?_eq_some hf)
      have hrow : w.row = v.row := by simpa [planOf] using List.find?_some hf
      obtain ⟨hwr, hwq, -⟩ := mem_placed hw
      obtain ⟨j, -, rfl⟩ := List.mem_map.mp hwr
      have hj : j = v.row := hrow
      subst hj
      refine ⟨off', ?_⟩
      rw [← (mem_activeRows.mp hv).2.1]
  obtain ⟨off, hfind⟩ := hfind
  simp only [Step4DSASchedule.visible, hfind, planOf]
  exact Nat.min_eq_right (Nat.div_le_div_right (by omega))

theorem decode_visible (hwf : s.pending.Wf) (hmir : md.Mirrors)
    (h : decodeStep g zero compress fused md index s = .ok (sched, s'))
    {v : BatchRow} (hv : v ∈ md.decodeRows g) {i : Nat} (hi : i < v.qlen) :
    sched.visible g v.row i = (v.past + i) / g.regionSize := by
  unfold decodeStep at h
  rw [decodeSchedule_eq md s.completedSlots hwf] at h
  obtain ⟨⟨ds, t⟩, hr, he⟩ := map_eq_ok h
  obtain ⟨u, hc, he'⟩ := map_eq_ok hr
  cases he'
  cases he
  obtain ⟨-, hdev, hreal, hq, -⟩ := decodeRow_device hmir hv
  have hi0 : i = 0 := by omega
  simp [Step4DSASchedule.visible, decodeVectors, hdev, hreal, hi0, BatchRow.firstRegion]

theorem spec_visible (hwf : s.pending.Wf) (hb : md.VerifyBatch g)
    (h : specStep g zero compress fused md index s = .ok (sched, s'))
    {v : BatchRow} (hv : v ∈ md.aliveRows g) {i : Nat} (hi : i < v.qlen) :
    sched.visible g v.row i = (v.past + i) / g.regionSize := by
  unfold specStep at h
  rw [specDecodeSchedule_eq md s.completedSlots hwf (longest_le hb)] at h
  obtain ⟨⟨ss, t⟩, hr, he⟩ := map_eq_ok h
  obtain ⟨u, hc, he'⟩ := map_eq_ok hr
  cases he'
  cases he
  exact verify_tokNscore (t := t) hb hv hi

end

end VllmHcu.Step4
