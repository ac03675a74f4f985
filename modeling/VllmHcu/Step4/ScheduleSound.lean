import Mathlib.Data.Finset.Union
import Mathlib.Data.List.TakeWhile
import VllmHcu.Step4.PendingSound
import VllmHcu.Step4.Schedule

/-!
# What the schedules claim

Each of the three schedules reads the heads of its rows and then claims the rows
for their tails and kept regions. The regions claimed are the same, only the
order differs, and every pending row in the resulting plan is the row that the
table at the end of the schedule gives to the region.
-/

namespace VllmHcu.Step4

open Step4PendingTable

section
variable (g : Step4DSAGeometry)

theorem Step4DSAGeometry.regionSize_pos : 0 < g.regionSize := by
  have := g.two_le_regionSize
  omega

/-! ## The regions of a row -/

namespace BatchRow

variable {g} {v : BatchRow}

theorem head_lt : v.head g < g.regionSize := Nat.mod_lt _ g.regionSize_pos

theorem past_eq : v.firstRegion g * g.regionSize + v.head g = v.past := by
  rw [Nat.mul_comm]
  exact Nat.div_add_mod ..

theorem nbuf_eq : v.nbuf g / g.regionSize * g.regionSize + v.tail g = v.nbuf g := by
  rw [Nat.mul_comm]
  exact Nat.div_add_mod ..

theorem tail_lt : v.tail g < g.regionSize := Nat.mod_lt _ g.regionSize_pos

theorem nregions_eq : v.nregions g = v.nbuf g / g.regionSize + if v.tail g = 0 then 0 else 1 := by
  have hR := g.regionSize_pos
  have hsum := nbuf_eq (g := g) (v := v)
  have hlt := tail_lt (g := g) (v := v)
  unfold nregions
  by_cases ht : v.tail g = 0
  · rw [if_pos ht, Nat.div_eq_iff hR, Nat.add_zero]
    omega
  · rw [if_neg ht, Nat.div_eq_iff hR, Nat.add_mul]
    omega

theorem le_nregions : v.nbuf g / g.regionSize ≤ v.nregions g := by
  rw [nregions_eq]
  omega

theorem nregions_pos (hq : v.qlen ≠ 0) : 0 < v.nregions g := by
  have hn : 0 < v.nbuf g := by
    unfold nbuf
    omega
  have hsum := nbuf_eq (g := g) (v := v)
  rw [nregions_eq]
  by_cases ht : v.tail g = 0
  · rw [if_pos ht, Nat.add_zero, Nat.pos_iff_ne_zero]
    intro hc
    rw [hc, ht] at hsum
    omega
  · rw [if_neg ht]
    exact Nat.succ_pos _

theorem lastSlot_eq (ht : v.tail g ≠ 0) : v.lastSlot g = v.slot g (v.nbuf g / g.regionSize) := by
  unfold lastSlot
  rw [nregions_eq, if_neg ht, Nat.add_sub_cancel]

theorem full_iff {j : Nat} : (j + 1) * g.regionSize ≤ v.nbuf g ↔ j < v.nbuf g / g.regionSize := by
  rw [← Nat.le_div_iff_mul_le g.regionSize_pos, Nat.succ_le_iff]

theorem closedRegions_eq : v.closedRegions g = List.range (v.nbuf g / g.regionSize) := by
  have hfull : ∀ j, (decide (g.regionSize ≤ v.nbuf g - j * g.regionSize) = true) ↔ j < v.nbuf g / g.regionSize := by
    intro j
    have := g.regionSize_pos
    rw [decide_eq_true_iff, ← full_iff, Nat.add_mul]
    omega
  unfold closedRegions
  rw [nregions_eq]
  by_cases ht : v.tail g = 0
  · rw [if_pos ht, Nat.add_zero, List.takeWhile_eq_self_iff]
    intro j hj
    exact (hfull j).mpr (List.mem_range.mp hj)
  · rw [if_neg ht, List.range_succ, List.takeWhile_append_of_pos]
    · simp [hfull]
    · intro j hj
      exact (hfull j).mpr (List.mem_range.mp hj)

theorem fullRegions_eq : v.fullRegions g = List.range (v.nbuf g / g.regionSize) := by
  unfold fullRegions
  rw [nregions_eq]
  have hfull : ∀ j ∈ List.range (v.nbuf g / g.regionSize),
      decide ((j + 1) * g.regionSize ≤ v.nbuf g) = true := by
    intro j hj
    rw [decide_eq_true_iff, full_iff]
    exact List.mem_range.mp hj
  by_cases ht : v.tail g = 0
  · rw [if_pos ht, Nat.add_zero, List.filter_eq_self.mpr hfull]
  · rw [if_neg ht, List.range_succ, List.filter_append, List.filter_eq_self.mpr hfull]
    simp [full_iff]

theorem closesHead_iff : v.ClosesHead g ↔ v.head g ≠ 0 ∧ 0 < v.nbuf g / g.regionSize := by
  unfold ClosesHead
  rw [Nat.div_pos_iff]
  have := g.regionSize_pos
  simp [this]

variable (g v)

/-- The slots of all regions a row has tokens in. -/
def regionSlots : List Nat := (List.range (v.nregions g)).map (v.slot g)

/-- The region whose leading tokens the row resumes from. -/
def headSlots : List Nat := if v.qlen ≠ 0 ∧ v.head g ≠ 0 then [v.slot g 0] else []

/-- The closed regions, other than the head's, that a verify row keeps. -/
def keptSlots : List Nat :=
  if v.Keeps g then
    ((v.closedRegions g).filter fun j => ¬(j = 0 ∧ v.head g ≠ 0)).map (v.slot g)
  else []

def tailSlots : List Nat := if v.tail g ≠ 0 then [v.lastSlot g] else []

def generalClaims : List Nat := if v.qlen = 0 then [] else v.tailSlots g ++ v.keptSlots g

def specClaims : List Nat := v.keptSlots g ++ v.tailSlots g

/-- The slots a row adds to `completed_slots`. -/
def completed : List Nat := if v.qlen = 0 then [] else closedHead g v ++ v.keptSlots g

/-- The pending row a row resumes from, under the table `t`. -/
def headRow (t : Step4PendingTable) : Option Nat :=
  if v.qlen ≠ 0 ∧ v.head g ≠ 0 then t.rowOfSlot (v.slot g 0) else none

variable {g v}

theorem mem_keptSlots {s : Nat} : s ∈ v.keptSlots g ↔
    v.Keeps g ∧ ∃ j < v.nbuf g / g.regionSize, ¬(j = 0 ∧ v.head g ≠ 0) ∧ s = v.slot g j := by
  unfold keptSlots
  by_cases hk : v.Keeps g
  · rw [if_pos hk, closedRegions_eq]
    simp only [List.mem_map, List.mem_filter, List.mem_range, decide_eq_true_eq]
    constructor
    · intro ⟨j, ⟨hj, hn⟩, he⟩
      exact ⟨hk, j, hj, hn, he.symm⟩
    · intro ⟨_, j, hj, hn, he⟩
      exact ⟨j, ⟨hj, hn⟩, he.symm⟩
  · simp [hk]

theorem mem_tailSlots {s : Nat} : s ∈ v.tailSlots g ↔ v.tail g ≠ 0 ∧ s = v.lastSlot g := by
  unfold tailSlots
  by_cases ht : v.tail g = 0 <;> simp [ht]

theorem mem_headSlots {s : Nat} : s ∈ v.headSlots g ↔ (v.qlen ≠ 0 ∧ v.head g ≠ 0) ∧ s = v.slot g 0 := by
  unfold headSlots
  by_cases hc : v.qlen ≠ 0 ∧ v.head g ≠ 0
  · simp [hc]
  · rw [if_neg hc]
    simp [hc]

theorem slot_mem_regionSlots {j : Nat} (h : j < v.nregions g) : v.slot g j ∈ v.regionSlots g :=
  List.mem_map.mpr ⟨j, List.mem_range.mpr h, rfl⟩

theorem lastSlot_mem (hq : v.qlen ≠ 0) : v.lastSlot g ∈ v.regionSlots g := by
  have := nregions_pos (g := g) hq
  apply slot_mem_regionSlots
  omega

theorem lt_nregions {j : Nat} (h : j < v.nbuf g / g.regionSize) : j < v.nregions g :=
  h.trans_le le_nregions

end BatchRow

/-- The regions a batch claims. -/
def claims (rows : List BatchRow) : Finset Nat :=
  (rows.flatMap (·.headSlots g)).toFinset ∪ (rows.flatMap (·.generalClaims g)).toFinset

variable {g}

theorem mem_claims {rows : List BatchRow} {s : Nat} : s ∈ claims g rows ↔
    ∃ v ∈ rows, v.qlen ≠ 0 ∧ (s ∈ v.headSlots g ∨ s ∈ v.keptSlots g ∨ s ∈ v.tailSlots g) := by
  simp only [claims, Finset.mem_union, List.mem_toFinset, List.mem_flatMap, BatchRow.generalClaims]
  constructor
  · rintro (⟨v, hv, hs⟩ | ⟨v, hv, hs⟩)
    · exact ⟨v, hv, (BatchRow.mem_headSlots.mp hs).1.1, .inl hs⟩
    · split at hs
      · cases hs
      · rename_i hq
        rcases List.mem_append.mp hs with hs | hs
        · exact ⟨v, hv, hq, .inr (.inr hs)⟩
        · exact ⟨v, hv, hq, .inr (.inl hs)⟩
  · rintro ⟨v, hv, hq, hs | hs | hs⟩
    · exact .inl ⟨v, hv, hs⟩
    · right
      refine ⟨v, hv, ?_⟩
      rw [if_neg hq]
      exact List.mem_append_right _ hs
    · right
      refine ⟨v, hv, ?_⟩
      rw [if_neg hq]
      exact List.mem_append_left _ hs

theorem claims_subset {rows : List BatchRow} {s : Nat} (h : s ∈ claims g rows) :
    ∃ v ∈ rows, s ∈ v.regionSlots g := by
  obtain ⟨v, hv, hq, hs⟩ := mem_claims.mp h
  refine ⟨v, hv, ?_⟩
  rcases hs with hs | hs | hs
  · rw [(BatchRow.mem_headSlots.mp hs).2]
    exact BatchRow.slot_mem_regionSlots (BatchRow.nregions_pos hq)
  · obtain ⟨-, j, hj, -, rfl⟩ := BatchRow.mem_keptSlots.mp hs
    exact BatchRow.slot_mem_regionSlots (BatchRow.lt_nregions hj)
  · rw [(BatchRow.mem_tailSlots.mp hs).2]
    exact BatchRow.lastSlot_mem hq

/-! ## The shared loops -/

theorem protectHeads_eq : ∀ (rows : List BatchRow) (t : Step4PendingTable),
    protectHeads g rows t = (t.getAll (rows.flatMap (·.headSlots g))).map
      fun t' => (rows.map fun v => v.headRow g t', t')
  | [], t => rfl
  | v :: vs, t => by
    unfold protectHeads
    rw [List.flatMap_cons]
    by_cases hc : v.qlen ≠ 0 ∧ v.head g ≠ 0
    · rw [if_pos hc, BatchRow.headSlots, if_pos hc]
      simp only [List.singleton_append, getAll]
      cases hg : t.get (v.slot g 0) with
      | error e => rfl
      | ok p =>
        obtain ⟨row, u⟩ := p
        simp only [bind, Except.bind, protectHeads_eq vs u]
        cases hall : u.getAll (vs.flatMap (·.headSlots g)) with
        | error e => rfl
        | ok t' =>
          obtain ⟨hs, rfl⟩ := get_ok hg
          have hrow : v.headRow g t' = some row := by
            rw [BatchRow.headRow, if_pos hc, (getAll_ok hall).1]
            exact hs
          simp only [Except.map, pure, Except.pure, List.map_cons, hrow]
    · rw [if_neg hc, BatchRow.headSlots, if_neg hc, List.nil_append, protectHeads_eq vs t]
      cases t.getAll (vs.flatMap (·.headSlots g)) with
      | error e => rfl
      | ok t' =>
        have hrow : v.headRow g t' = none := by
          rw [BatchRow.headRow, if_neg hc]
        simp only [Except.map, bind, Except.bind, pure, Except.pure, List.map_cons, hrow]

variable {b t : Step4PendingTable} {D : Finset Nat}

/-- A claimed region has the row that any later table of the step gives it. -/
theorem rowOf_stable {t' : Step4PendingTable} {slots : List Nat} {slot : Nat} (h : TouchedFrom b D t)
    (ha : t.acquireAll slots = .ok t') (hmem : slot ∈ D) :
    t'.rowOf slot = t.rowOf slot ∧ t'.rowOfSlot slot = t.rowOfSlot slot := by
  obtain ⟨row, hrow, -⟩ := h.claimed slot hmem
  have hrow' := (h.acquireAll ha).2 slot hmem row hrow
  exact ⟨by rw [rowOf_eq hrow, rowOf_eq hrow'], by rw [hrow, hrow']⟩

theorem acquireAll_append : ∀ (slots slots' : List Nat) (t : Step4PendingTable),
    t.acquireAll (slots ++ slots') = (t.acquireAll slots).bind fun t' => t'.acquireAll slots'
  | [], _, _ => rfl
  | slot :: slots, slots', t => by
    simp only [List.cons_append, acquireAll, bind, Except.bind]
    cases t.acquire slot with
    | error e => rfl
    | ok p => exact acquireAll_append slots slots' p.2

/-- The rows a verify row keeps its closed regions in, under the table `t`. -/
def BatchRow.keepList (g : Step4DSAGeometry) (v : BatchRow) (t : Step4PendingTable) : List (Nat × Nat) :=
  if v.Keeps g then (v.closedRegions g).map fun j => (j, t.rowOf (v.slot g j)) else []

/-- The row of the tail, under the table `t`. -/
def BatchRow.outRow (g : Step4DSAGeometry) (v : BatchRow) (t : Step4PendingTable) : Option Nat :=
  if v.tail g ≠ 0 then t.rowOfSlot (v.lastSlot g) else none

theorem keepRegions_eq {v : BatchRow} {pendingIn : Option Nat} :
    ∀ (js : List Nat) {D : Finset Nat} {t : Step4PendingTable}, TouchedFrom b D t →
    (v.head g ≠ 0 → v.slot g 0 ∈ D ∧ t.rowOfSlot (v.slot g 0) = pendingIn) →
    keepRegions g v pendingIn js t =
      (t.acquireAll ((js.filter fun j => ¬(j = 0 ∧ v.head g ≠ 0)).map (v.slot g))).map fun t' =>
        (js.map fun j => (j, t'.rowOf (v.slot g j)), (js.filter fun j => ¬(j = 0 ∧ v.head g ≠ 0)).map (v.slot g), t')
  | [], _, _, _, _ => rfl
  | j :: js, D, t, h, hin => by
    unfold keepRegions
    by_cases hc : j = 0 ∧ v.head g ≠ 0
    · rw [if_pos hc, keepRegions_eq js h hin, List.filter_cons_of_neg (by simp [hc])]
      obtain ⟨rfl, hh⟩ := hc
      obtain ⟨hmem, hrow⟩ := hin hh
      cases ha : t.acquireAll ((js.filter fun j => ¬(j = 0 ∧ v.head g ≠ 0)).map (v.slot g)) with
      | error e => rfl
      | ok t' =>
        have hkeep : pendingIn.getD t'.capacity = t'.rowOf (v.slot g 0) := by
          rw [rowOf, (rowOf_stable h ha hmem).2, hrow]
        simp only [Except.map, bind, Except.bind, pure, Except.pure, List.map_cons, hkeep]
    · have hfilter : (j :: js).filter (fun j => ¬(j = 0 ∧ v.head g ≠ 0)) =
          j :: js.filter fun j => ¬(j = 0 ∧ v.head g ≠ 0) :=
        List.filter_cons_of_pos (p := fun j => decide ¬(j = 0 ∧ v.head g ≠ 0)) (decide_eq_true hc)
      rw [if_neg hc, hfilter, List.map_cons, acquireAll]
      cases hu : t.acquire (v.slot g j) with
      | error e => rfl
      | ok p =>
        obtain ⟨row, u⟩ := p
        obtain ⟨hu', hrow⟩ := h.acquire hu
        have hin' : v.head g ≠ 0 → v.slot g 0 ∈ insert (v.slot g j) D ∧ u.rowOfSlot (v.slot g 0) = pendingIn := by
          intro hh
          obtain ⟨hmem, hr⟩ := hin hh
          obtain ⟨r, hr', -⟩ := h.claimed _ hmem
          refine ⟨Finset.mem_insert_of_mem hmem, ?_⟩
          rw [h.keeps hu hmem hr', ← hr, hr']
        simp only [bind, Except.bind, keepRegions_eq js hu' hin']
        cases ha : u.acquireAll ((js.filter fun j => ¬(j = 0 ∧ v.head g ≠ 0)).map (v.slot g)) with
        | error e => rfl
        | ok t' =>
          have hkeep : row = t'.rowOf (v.slot g j) := by
            rw [(rowOf_stable hu' ha (Finset.mem_insert_self ..)).1, rowOf_eq hrow]
          simp only [Except.map, pure, Except.pure, List.map_cons, ← hkeep]

theorem keepRows_eq {v : BatchRow} {pendingIn : Option Nat} (h : TouchedFrom b D t)
    (hin : v.head g ≠ 0 → v.slot g 0 ∈ D ∧ t.rowOfSlot (v.slot g 0) = pendingIn) :
    keepRows g v pendingIn t =
      (t.acquireAll (v.keptSlots g)).map fun t' => (v.keepList g t', v.keptSlots g, t') := by
  unfold keepRows BatchRow.keptSlots BatchRow.keepList
  by_cases hk : v.Keeps g
  · simp only [if_pos hk]
    exact keepRegions_eq _ h hin
  · simp only [if_neg hk]
    rfl

theorem tailRow_eq {v : BatchRow} (h : TouchedFrom b D t) :
    tailRow g v t = (t.acquireAll (v.tailSlots g)).map fun t' => (v.outRow g t', t') := by
  unfold tailRow BatchRow.tailSlots BatchRow.outRow
  by_cases ht : v.tail g ≠ 0
  · simp only [if_pos ht, acquireAll]
    cases hu : t.acquire (v.lastSlot g) with
    | error e => rfl
    | ok p =>
      obtain ⟨row, u⟩ := p
      simp only [bind, Except.bind, pure, Except.pure, Except.map, (h.acquire hu).2]
  · simp only [if_neg ht]
    rfl

/-! ## Plans under the table at the end of the schedule -/

section
variable {t' : Step4PendingTable} {slots : List Nat} {v : BatchRow}

theorem headRow_stable (h : TouchedFrom b D t) (ha : t.acquireAll slots = .ok t')
    (hmem : ∀ s ∈ v.headSlots g, s ∈ D) : v.headRow g t' = v.headRow g t := by
  unfold BatchRow.headRow
  by_cases hc : v.qlen ≠ 0 ∧ v.head g ≠ 0
  · rw [if_pos hc, if_pos hc]
    exact (rowOf_stable h ha (hmem _ (BatchRow.mem_headSlots.mpr ⟨hc, rfl⟩))).2
  · rw [if_neg hc, if_neg hc]

theorem outRow_stable (h : TouchedFrom b D t) (ha : t.acquireAll slots = .ok t')
    (hmem : ∀ s ∈ v.tailSlots g, s ∈ D) : v.outRow g t' = v.outRow g t := by
  unfold BatchRow.outRow
  by_cases ht : v.tail g ≠ 0
  · rw [if_pos ht, if_pos ht]
    exact (rowOf_stable h ha (hmem _ (BatchRow.mem_tailSlots.mpr ⟨ht, rfl⟩))).2
  · rw [if_neg ht, if_neg ht]

theorem keepList_stable (h : TouchedFrom b D t) (ha : t.acquireAll slots = .ok t') (hq : v.qlen ≠ 0)
    (hmem : ∀ s ∈ v.keptSlots g, s ∈ D) (hhead : ∀ s ∈ v.headSlots g, s ∈ D) :
    v.keepList g t' = v.keepList g t := by
  unfold BatchRow.keepList
  by_cases hk : v.Keeps g
  · rw [if_pos hk, if_pos hk, BatchRow.closedRegions_eq]
    apply List.map_congr_left
    intro j hj
    have hslot : v.slot g j ∈ D := by
      by_cases hc : j = 0 ∧ v.head g ≠ 0
      · rw [hc.1]
        exact hhead _ (BatchRow.mem_headSlots.mpr ⟨⟨hq, hc.2⟩, rfl⟩)
      · exact hmem _ (BatchRow.mem_keptSlots.mpr ⟨hk, j, List.mem_range.mp hj, hc, rfl⟩)
    rw [(rowOf_stable h ha hslot).1]
  · rw [if_neg hk, if_neg hk]

end

variable (g)

/-- The plan of one row, under the table `t`. -/
def planOf (md : Step4DSAMetadata) (t : Step4PendingTable) (bufOff : Nat) (v : BatchRow) : RequestPlan where
  row := v.row
  past := v.past
  qlen := v.qlen
  tokStart := v.tokStart
  head := v.head g
  bufStart := bufOff
  pendingRowIn := v.headRow g t
  pendingRowOut := v.outRow g t
  tail := v.tail g
  nscore := (v.past + v.qlen - 1) / g.regionSize
  scoreSlots := md.scoreSlots g v.row ((v.past + v.qlen - 1) / g.regionSize)
  keepRows := (v.keepList g t).map fun k => (k.2, bufOff + k.1 * g.regionSize)

/-- The schedule `planRows` ends with, under the table `t` it ends with. -/
def planned (md : Step4DSAMetadata) (t : Step4PendingTable) : List BatchRow → GeneralSchedule → GeneralSchedule
  | [], sched => sched
  | v :: vs, sched =>
    if v.qlen = 0 then planned md t vs sched
    else planned md t vs {
      requests := sched.requests ++ [planOf g md t sched.bufLen v]
      bufLen := sched.bufLen + v.nbuf g
      regions := sched.regions ++ bufferRegions g v sched.bufLen
      completedSlots := sched.completedSlots ++ closedHead g v ++ v.keptSlots g }

variable {g}

theorem heads_stable {t' : Step4PendingTable} {slots : List Nat} {rows : List BatchRow} (h : TouchedFrom b D t)
    (ha : t.acquireAll slots = .ok t') (hheads : ∀ v ∈ rows, ∀ s ∈ v.headSlots g, s ∈ D) :
    rows.map (fun v => v.headRow g t') = rows.map fun v => v.headRow g t :=
  List.map_congr_left fun v hv => headRow_stable h ha (hheads v hv)

theorem planRows_eq (md : Step4DSAMetadata) : ∀ (rows : List BatchRow) {D : Finset Nat} {t : Step4PendingTable}
    (sched : GeneralSchedule), TouchedFrom b D t → (∀ v ∈ rows, ∀ s ∈ v.headSlots g, s ∈ D) →
    planRows g md (rows.zip (rows.map fun v => v.headRow g t)) sched t =
      (t.acquireAll (rows.flatMap (·.generalClaims g))).map fun t' => (planned g md t' rows sched, t')
  | [], _, _, _, _, _ => rfl
  | v :: vs, D, t, sched, h, hheads => by
    have hrest : ∀ w ∈ vs, ∀ s ∈ w.headSlots g, s ∈ D := fun w hw => hheads w (List.mem_cons_of_mem _ hw)
    rw [List.map_cons, List.zip_cons_cons, List.flatMap_cons]
    by_cases hq : v.qlen = 0
    · rw [BatchRow.generalClaims, if_pos hq, List.nil_append]
      simp only [planRows, planned, if_pos hq]
      exact planRows_eq md vs sched h hrest
    · have hclaims : v.generalClaims g = v.tailSlots g ++ v.keptSlots g := if_neg hq
      simp only [hclaims, planRows, planned, if_neg hq, acquireAll_append, tailRow_eq h]
      -- the tail first
      cases h₁ : t.acquireAll (v.tailSlots g) with
      | error e => rfl
      | ok t₁ =>
        obtain ⟨ht₁, -⟩ := h.acquireAll h₁
        have hin : v.head g ≠ 0 → v.slot g 0 ∈ D ∪ (v.tailSlots g).toFinset ∧
            t₁.rowOfSlot (v.slot g 0) = v.headRow g t := by
          intro hh
          have hmem := hheads v (List.mem_cons_self ..) _ (BatchRow.mem_headSlots.mpr ⟨⟨hq, hh⟩, rfl⟩)
          refine ⟨Finset.mem_union_left _ hmem, ?_⟩
          rw [(rowOf_stable h h₁ hmem).2, BatchRow.headRow, if_pos ⟨hq, hh⟩]
        simp only [Except.map, bind, Except.bind, keepRows_eq ht₁ hin]
        -- then the kept regions
        cases h₂ : t₁.acquireAll (v.keptSlots g) with
        | error e => rfl
        | ok t₂ =>
          obtain ⟨ht₂, -⟩ := ht₁.acquireAll h₂
          have hsub : ∀ s ∈ D, s ∈ D ∪ (v.tailSlots g).toFinset ∪ (v.keptSlots g).toFinset :=
            fun s hs => Finset.mem_union_left _ (Finset.mem_union_left _ hs)
          have hheads₂ := fun w hw s hs => hsub s (hrest w hw s hs)
          have hv : ∀ s ∈ v.headSlots g, s ∈ D := hheads v (List.mem_cons_self ..)
          rw [← heads_stable h h₁ hrest,
            ← heads_stable ht₁ h₂ fun w hw s hs => Finset.mem_union_left _ (hrest w hw s hs)]
          simp only [planRows_eq md vs _ ht₂ hheads₂]
          cases h₃ : t₂.acquireAll (vs.flatMap (·.generalClaims g)) with
          | error e => rfl
          | ok t₃ =>
            have hplan : planOf g md t₃ sched.bufLen v = {
                planOf g md t₂ sched.bufLen v with
                pendingRowIn := v.headRow g t
                pendingRowOut := v.outRow g t₁ } := by
              unfold planOf
              rw [headRow_stable ht₂ h₃ fun s hs => hsub s (hv s hs),
                headRow_stable ht₁ h₂ fun s hs => Finset.mem_union_left _ (hv s hs),
                headRow_stable h h₁ hv,
                outRow_stable ht₂ h₃ (by
                  intro s hs
                  exact Finset.mem_union_left _ (Finset.mem_union_right _ (List.mem_toFinset.mpr hs))),
                outRow_stable ht₁ h₂ (by
                  intro s hs
                  exact Finset.mem_union_right _ (List.mem_toFinset.mpr hs)),
                keepList_stable ht₂ h₃ hq (by
                  intro s hs
                  exact Finset.mem_union_right _ (List.mem_toFinset.mpr hs)) fun s hs => hsub s (hv s hs)]
            simp only [hplan]
            rfl

/-- The plan of an alive row, under the table `t`. -/
def specPlanOf (g : Step4DSAGeometry) (t : Step4PendingTable) (v : BatchRow) : SpecPlan :=
  ⟨v, v.headRow g t, v.keepList g t, v.outRow g t⟩

theorem specPlans_eq : ∀ (rows : List BatchRow) {D : Finset Nat} {t : Step4PendingTable}, TouchedFrom b D t →
    (∀ v ∈ rows, v.qlen ≠ 0) → (∀ v ∈ rows, ∀ s ∈ v.headSlots g, s ∈ D) →
    specPlans g (rows.zip (rows.map fun v => v.headRow g t)) t =
      (t.acquireAll (rows.flatMap (·.specClaims g))).map fun t' =>
        (rows.map (specPlanOf g t'), rows.flatMap (·.completed g), t')
  | [], _, _, _, _, _ => rfl
  | v :: vs, D, t, h, hqs, hheads => by
    have hq : v.qlen ≠ 0 := hqs v (List.mem_cons_self ..)
    have hrest : ∀ w ∈ vs, ∀ s ∈ w.headSlots g, s ∈ D := fun w hw => hheads w (List.mem_cons_of_mem _ hw)
    have hv : ∀ s ∈ v.headSlots g, s ∈ D := hheads v (List.mem_cons_self ..)
    have hin : v.head g ≠ 0 → v.slot g 0 ∈ D ∧ t.rowOfSlot (v.slot g 0) = v.headRow g t := by
      intro hh
      refine ⟨hv _ (BatchRow.mem_headSlots.mpr ⟨⟨hq, hh⟩, rfl⟩), ?_⟩
      rw [BatchRow.headRow, if_pos ⟨hq, hh⟩]
    have hclaims : (v :: vs).flatMap (·.specClaims g) =
        v.keptSlots g ++ v.tailSlots g ++ vs.flatMap (·.specClaims g) := rfl
    rw [List.map_cons, List.zip_cons_cons, hclaims]
    simp only [specPlans, acquireAll_append, keepRows_eq h hin]
    -- the kept regions first
    cases h₁ : t.acquireAll (v.keptSlots g) with
    | error e => rfl
    | ok t₁ =>
      obtain ⟨ht₁, -⟩ := h.acquireAll h₁
      simp only [Except.map, bind, Except.bind, tailRow_eq ht₁]
      -- then the tail
      cases h₂ : t₁.acquireAll (v.tailSlots g) with
      | error e => rfl
      | ok t₂ =>
        obtain ⟨ht₂, -⟩ := ht₁.acquireAll h₂
        have hsub : ∀ s ∈ D, s ∈ D ∪ (v.keptSlots g).toFinset ∪ (v.tailSlots g).toFinset :=
          fun s hs => Finset.mem_union_left _ (Finset.mem_union_left _ hs)
        rw [← heads_stable h h₁ hrest,
          ← heads_stable ht₁ h₂ fun w hw s hs => Finset.mem_union_left _ (hrest w hw s hs)]
        simp only [specPlans_eq vs ht₂ (fun w hw => hqs w (List.mem_cons_of_mem _ hw))
          fun w hw s hs => hsub s (hrest w hw s hs)]
        cases h₃ : t₂.acquireAll (vs.flatMap (·.specClaims g)) with
        | error e => rfl
        | ok t₃ =>
          have hplan : specPlanOf g t₃ v = ⟨v, v.headRow g t, v.keepList g t₁, v.outRow g t₂⟩ := by
            unfold specPlanOf
            rw [headRow_stable ht₂ h₃ fun s hs => hsub s (hv s hs),
              headRow_stable ht₁ h₂ fun s hs => Finset.mem_union_left _ (hv s hs),
              headRow_stable h h₁ hv,
              keepList_stable ht₂ h₃ hq (by
                intro s hs
                exact Finset.mem_union_left _ (Finset.mem_union_right _ (List.mem_toFinset.mpr hs)))
                fun s hs => hsub s (hv s hs),
              keepList_stable ht₁ h₂ hq (by
                intro s hs
                exact Finset.mem_union_right _ (List.mem_toFinset.mpr hs))
                fun s hs => Finset.mem_union_left _ (hv s hs),
              outRow_stable ht₂ h₃ (by
                intro s hs
                exact Finset.mem_union_right _ (List.mem_toFinset.mpr hs))]
          simp only [Except.map, pure, Except.pure, List.map_cons, List.flatMap_cons, hplan, BatchRow.completed,
            if_neg hq]

/-! ## Rows of one token -/

namespace BatchRow

variable {v : BatchRow}

theorem keptSlots_one (hq : v.qlen = 1) : v.keptSlots g = [] := by
  unfold keptSlots Keeps
  simp [hq]

theorem nbuf_one (hq : v.qlen = 1) : v.nbuf g = v.head g + 1 := by
  unfold nbuf
  rw [hq]

theorem tail_one_of_closes (hq : v.qlen = 1) (hh : v.head g = g.regionSize - 1) :
    v.tail g = 0 ∧ v.nbuf g / g.regionSize = 1 := by
  have hR := g.regionSize_pos
  have hn : v.nbuf g = g.regionSize := by
    rw [nbuf_one hq, hh]
    omega
  unfold tail
  rw [hn]
  exact ⟨Nat.mod_self _, Nat.div_self hR⟩

theorem tail_one_of_open (hq : v.qlen = 1) (hh : v.head g ≠ g.regionSize - 1) :
    v.tail g = v.head g + 1 ∧ v.nbuf g / g.regionSize = 0 := by
  have hlt : v.nbuf g < g.regionSize := by
    have := head_lt (g := g) (v := v)
    rw [nbuf_one hq]
    omega
  unfold tail
  rw [Nat.mod_eq_of_lt hlt, nbuf_one hq]
  exact ⟨rfl, Nat.div_eq_of_lt (by rwa [← nbuf_one hq])⟩

theorem lastSlot_one (hq : v.qlen = 1) : v.lastSlot g = v.slot g 0 := by
  unfold lastSlot
  rw [nregions_eq]
  by_cases hh : v.head g = g.regionSize - 1
  · obtain ⟨ht, hn⟩ := tail_one_of_closes hq hh
    rw [if_pos ht, hn]
  · obtain ⟨ht, hn⟩ := tail_one_of_open hq hh
    rw [if_neg (by omega), hn]

theorem completed_one (hq : v.qlen = 1) :
    v.completed g = if v.head g = g.regionSize - 1 then [v.slot g 0] else [] := by
  have hR := g.two_le_regionSize
  have hlt := head_lt (g := g) (v := v)
  have hiff : v.ClosesHead g ↔ v.head g = g.regionSize - 1 := by
    unfold ClosesHead
    rw [nbuf_one hq]
    omega
  unfold completed closedHead
  rw [if_neg (by omega), keptSlots_one hq, List.append_nil]
  simp only [hiff]

end BatchRow

theorem decodeTails_eq : ∀ (rows : List BatchRow) {D : Finset Nat} {t : Step4PendingTable}, TouchedFrom b D t →
    (∀ v ∈ rows, v.qlen = 1) →
    decodeTails g rows t = (t.acquireAll (rows.flatMap (·.generalClaims g))).map fun t' =>
      (rows.filterMap fun v => (v.outRow g t').map (v.row, ·), rows.flatMap (·.completed g), t')
  | [], _, _, _, _ => rfl
  | v :: vs, D, t, h, hqs => by
    have hq : v.qlen = 1 := hqs v (List.mem_cons_self ..)
    have hrest : ∀ w ∈ vs, w.qlen = 1 := fun w hw => hqs w (List.mem_cons_of_mem _ hw)
    have hclaims : v.generalClaims g = v.tailSlots g := by
      unfold BatchRow.generalClaims
      rw [if_neg (by omega), BatchRow.keptSlots_one hq, List.append_nil]
    simp only [List.flatMap_cons, hclaims, List.filterMap_cons, BatchRow.completed_one hq, decodeTails]
    by_cases hh : v.head g = g.regionSize - 1
    · have ht := (BatchRow.tail_one_of_closes hq hh).1
      have htail : v.tailSlots g = [] := by simp [BatchRow.tailSlots, ht]
      have hout : ∀ t', v.outRow g t' = none := by simp [BatchRow.outRow, ht]
      rw [if_pos hh, if_pos hh, decodeTails_eq vs h hrest, htail, List.nil_append]
      simp only [hout]
      cases t.acquireAll (vs.flatMap (·.generalClaims g)) with
      | error e => rfl
      | ok t' => rfl
    · have ht : v.tail g ≠ 0 := by
        rw [(BatchRow.tail_one_of_open hq hh).1]
        omega
      have htail : v.tailSlots g = [v.slot g 0] := by
        rw [BatchRow.tailSlots, if_pos ht, BatchRow.lastSlot_one hq]
      rw [if_neg hh, if_neg hh, htail, List.singleton_append, acquireAll]
      cases hu : t.acquire (v.slot g 0) with
      | error e => rfl
      | ok p =>
        obtain ⟨row, u⟩ := p
        obtain ⟨hu', hrow⟩ := h.acquire hu
        simp only [bind, Except.bind, decodeTails_eq vs hu' hrest]
        cases ha : u.acquireAll (vs.flatMap (·.generalClaims g)) with
        | error e => rfl
        | ok t' =>
          have hout : v.outRow g t' = some row := by
            rw [BatchRow.outRow, if_pos ht, BatchRow.lastSlot_one hq,
              (rowOf_stable hu' ha (Finset.mem_insert_self ..)).2, hrow]
          simp only [Except.map, pure, Except.pure, hout, Option.map_some, List.nil_append]

/-! ## The outcome of a schedule -/

/-- Heads read, then regions claimed, in the given order. -/
def claimRows (b : Step4PendingTable) (heads slots : List Nat) : Except String Step4PendingTable :=
  (b.getAll heads).bind fun t => t.acquireAll slots

theorem claimRows_ok {t' : Step4PendingTable} {heads slots : List Nat} (hwf : b.Wf)
    (h : claimRows b heads slots = .ok t') :
    TouchedFrom b (heads.toFinset ∪ slots.toFinset) t' ∧
      ∀ s ∈ heads, ∃ row, b.rowOfSlot s = some row ∧ t'.rowOfSlot s = some row := by
  obtain ⟨t, hg, ha⟩ := bind_eq_ok.mp h
  have ht := (TouchedFrom.refl hwf).getAll hg
  rw [Finset.empty_union] at ht
  obtain ⟨hall, hkeep⟩ := ht.acquireAll ha
  refine ⟨hall, ?_⟩
  intro s hs
  obtain ⟨row, hrow⟩ := (getAll_ok hg).2 s hs
  refine ⟨row, hrow, hkeep s (List.mem_toFinset.mpr hs) row ?_⟩
  rw [(getAll_ok hg).1, hrow]

/-- A schedule raises when a head has no row, or when it claims more regions than there are rows. -/
theorem claimRows_isOk {heads slots : List Nat} (hwf : b.Wf) (hfresh : b.Fresh) :
    (∃ t', claimRows b heads slots = .ok t') ↔
      (∀ s ∈ heads, ∃ row, b.rowOfSlot s = some row) ∧ (heads.toFinset ∪ slots.toFinset).card ≤ b.capacity := by
  constructor
  · intro ⟨t', h⟩
    obtain ⟨ht', hheads⟩ := claimRows_ok hwf h
    refine ⟨?_, ht'.card_le_capacity⟩
    intro s hs
    obtain ⟨row, hrow, -⟩ := hheads s hs
    exact ⟨row, hrow⟩
  · intro ⟨hheads, hcard⟩
    obtain ⟨t, hg⟩ := getAll_isOk hheads
    have ht := (TouchedFrom.refl hwf).getAll hg
    rw [Finset.empty_union] at ht
    obtain ⟨t', ha⟩ := ht.acquireAll_isOk hfresh hcard
    exact ⟨t', bind_eq_ok.mpr ⟨t, hg, ha⟩⟩

theorem claimRows_error {heads slots slots' : List Nat} (hwf : b.Wf) (hfresh : b.Fresh)
    (hsame : heads.toFinset ∪ slots.toFinset = heads.toFinset ∪ slots'.toFinset) {e : String}
    (h : claimRows b heads slots = .error e) : claimRows b heads slots' = .error e := by
  unfold claimRows at h ⊢
  cases hg : b.getAll heads with
  | error e' =>
    rw [hg] at h
    exact h
  | ok t =>
    rw [hg] at h
    have ht := (TouchedFrom.refl hwf).getAll hg
    rw [Finset.empty_union] at ht
    have he := ht.acquireAll_error h
    simp only [Except.bind] at h ⊢
    cases ha : t.acquireAll slots' with
    | error e' => rw [he, ht.acquireAll_error ha]
    | ok t' =>
      have hcard := (ht.acquireAll ha).1.card_le_capacity
      rw [← hsame] at hcard
      obtain ⟨t'', hok⟩ := ht.acquireAll_isOk hfresh hcard
      rw [hok] at h
      cases h

theorem endStep_wf (hwf : t.Wf) (completed : List Nat) : (endStep g completed t).Wf := by
  unfold endStep
  induction completed generalizing t with
  | nil => exact hwf
  | cons s ss ih =>
    rw [List.foldl_cons]
    apply ih
    split
    · exact retire_wf hwf
    · exact release_wf hwf

/-- The table a schedule starts its step with. -/
def stepTable (g : Step4DSAGeometry) (completed : List Nat) (t : Step4PendingTable) : Step4PendingTable :=
  (endStep g completed t).beginStep

theorem beginStep_endStep (completed : List Nat) :
    (endStep g completed t).beginStep = stepTable g completed t := rfl

theorem stepTable_wf (hwf : t.Wf) (completed : List Nat) : (stepTable g completed t).Wf :=
  beginStep_wf (endStep_wf hwf completed)

theorem stepTable_fresh (hwf : t.Wf) (completed : List Nat) : (stepTable g completed t).Fresh :=
  beginStep_fresh (endStep_wf hwf completed)

theorem endStep_capacity (completed : List Nat) : (endStep g completed t).capacity = t.capacity := by
  unfold endStep
  induction completed generalizing t with
  | nil => rfl
  | cons s ss ih =>
    rw [List.foldl_cons, ih]
    split
    · unfold retire
      split <;> rfl
    · unfold release
      split <;> rfl

section
variable (md : Step4DSAMetadata) (completed : List Nat)

theorem generalSchedule_eq (hwf : t.Wf) : generalSchedule g md completed t =
    (claimRows (stepTable g completed t) (md.generalRows.flatMap (·.headSlots g))
      (md.generalRows.flatMap (·.generalClaims g))).map fun t' =>
        (planned g md t' md.generalRows ⟨[], 0, [], []⟩, t') := by
  unfold generalSchedule claimRows
  simp only [protectHeads_eq, beginStep_endStep]
  cases hg : (stepTable g completed t).getAll (md.generalRows.flatMap (·.headSlots g)) with
  | error e => rfl
  | ok u =>
    have hu := (TouchedFrom.refl (stepTable_wf (g := g) hwf completed)).getAll hg
    rw [Finset.empty_union] at hu
    simp only [Except.map, bind, Except.bind]
    exact planRows_eq md md.generalRows _ hu fun v hv s hs =>
      List.mem_toFinset.mpr (List.mem_flatMap.mpr ⟨v, hv, hs⟩)


theorem aliveRows_qlen {v : BatchRow} (hv : v ∈ md.aliveRows g) : v.qlen ≠ 0 := by
  have h := of_decide_eq_true (List.mem_filter.mp hv).2
  exact Nat.pos_iff_ne_zero.mp h.1

theorem decodeRows_qlen {v : BatchRow} (hv : v ∈ md.decodeRows g) : v.qlen = 1 := by
  obtain ⟨i, -, rfl⟩ := List.mem_map.mp (List.mem_filter.mp hv).1
  rfl

/-- The vectors of the decode schedule, under the table `t'` at its end. -/
def decodeVectors (g : Step4DSAGeometry) (md : Step4DSAMetadata) (trash : Nat) (t' : Step4PendingTable) :
    DecodeSchedule :=
  let dev := md.decodeRow md.blockTable
  let real := fun r => decide ((dev r).Real g)
  let closes := fun r => real r && decide ((dev r).head g = g.regionSize - 1)
  let head := fun r => if real r then (dev r).head g else 0
  { numDecodes := md.numDecodes
    counts := fun r => if closes r then g.regionSize else 0
    slots := fun r => if real r then some ((dev r).slot g 0) else none
    live := closes
    head := head
    tail := fun r => if closes r then 0 else head r + if real r then 1 else 0
    nscore := fun r => if real r then (dev r).firstRegion g else 0
    pendingIn := scatter (fun _ => trash)
      ((md.decodeRows g).filterMap fun v => (v.headRow g t').map (v.row, ·))
    pendingOut := scatter (fun _ => trash)
      ((md.decodeRows g).filterMap fun v => (v.outRow g t').map (v.row, ·))
    completedSlots := (md.decodeRows g).flatMap (·.completed g) }

theorem headEntries_eq (t : Step4PendingTable) : ∀ rows : List BatchRow,
    headEntries rows (rows.map fun v => v.headRow g t) = rows.filterMap fun v => (v.headRow g t).map (v.row, ·)
  | [] => rfl
  | v :: vs => by
    have ih := headEntries_eq t vs
    unfold headEntries at ih ⊢
    simp only [List.map_cons, List.zip_cons_cons, List.filterMap_cons, ih]

theorem decodeSchedule_eq (hwf : t.Wf) : decodeSchedule g md completed t =
    (claimRows (stepTable g completed t) ((md.decodeRows g).flatMap (·.headSlots g))
      ((md.decodeRows g).flatMap (·.generalClaims g))).map fun t' =>
        (decodeVectors g md t.capacity t', t') := by
  unfold decodeSchedule claimRows
  simp only [protectHeads_eq, beginStep_endStep]
  cases hg : (stepTable g completed t).getAll ((md.decodeRows g).flatMap (·.headSlots g)) with
  | error e => rfl
  | ok u =>
    have hu := (TouchedFrom.refl (stepTable_wf (g := g) hwf completed)).getAll hg
    rw [Finset.empty_union] at hu
    simp only [Except.map, bind, Except.bind, decodeTails_eq _ hu fun v hv => decodeRows_qlen md hv]
    cases ha : u.acquireAll ((md.decodeRows g).flatMap (·.generalClaims g)) with
    | error e => rfl
    | ok t' =>
      have hmem : ∀ v ∈ md.decodeRows g, ∀ s ∈ v.headSlots g, s ∈ ((md.decodeRows g).flatMap (·.headSlots g)).toFinset :=
        fun v hv s hs => List.mem_toFinset.mpr (List.mem_flatMap.mpr ⟨v, hv, hs⟩)
      have hheads := heads_stable hu ha hmem
      simp only [pure, Except.pure, ← hheads, headEntries_eq]
      rfl

theorem specDecodeSchedule_eq (hwf : t.Wf) (hlen : (md.verifyRows.map (·.qlen)).foldl max 0 ≤ max g.specQueryLen 1) :
    specDecodeSchedule g md completed t =
    (claimRows (stepTable g completed t) ((md.aliveRows g).flatMap (·.headSlots g))
      ((md.aliveRows g).flatMap (·.specClaims g))).map fun t' =>
        (specVectors g md t.capacity ((md.aliveRows g).map (specPlanOf g t'))
          ((md.aliveRows g).flatMap (·.completed g)), t') := by
  unfold specDecodeSchedule claimRows
  simp only [if_neg (Nat.not_lt.mpr hlen), protectHeads_eq, beginStep_endStep]
  cases hg : (stepTable g completed t).getAll ((md.aliveRows g).flatMap (·.headSlots g)) with
  | error e => rfl
  | ok u =>
    have hu := (TouchedFrom.refl (stepTable_wf (g := g) hwf completed)).getAll hg
    rw [Finset.empty_union] at hu
    simp only [Except.map, bind, Except.bind, specPlans_eq _ hu (fun v hv => aliveRows_qlen md hv) fun v hv s hs =>
        List.mem_toFinset.mpr (List.mem_flatMap.mpr ⟨v, hv, hs⟩)]
    cases u.acquireAll ((md.aliveRows g).flatMap (·.specClaims g)) with
    | error e => rfl
    | ok t' => rfl

end

end

end VllmHcu.Step4
