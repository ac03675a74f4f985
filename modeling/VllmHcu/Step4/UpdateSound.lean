import Mathlib.Data.List.Flatten
import VllmHcu.Step4.ScheduleSound
import VllmHcu.Step4.Summaries

/-!
# What the summary updates do

`Updated` says it in terms of the rows of the batch: each region that fills is
compressed from the row's own tokens, each kept region and each tail is written
to the pending row of its slot, and nothing else changes outside the trash row.
Each update is a list of single writes; `Updated.of_writes` reads the result off
the list, in whatever order the writes are made.
-/

namespace VllmHcu.Step4

open Step4PendingTable

section
variable (g : Step4DSAGeometry)

/-- No two regions of a batch share a summary slot. -/
def ExclusiveRows (rows : List BatchRow) : Prop := (rows.flatMap (·.regionSlots g)).Nodup

instance (rows : List BatchRow) : Decidable (ExclusiveRows g rows) := inferInstanceAs (Decidable (List.Nodup _))

variable {g} {rows : List BatchRow} {v w : BatchRow}

theorem ExclusiveRows.slot_inj (h : ExclusiveRows g rows) (hv : v ∈ rows) (hw : w ∈ rows) {j j' : Nat}
    (hj : j < v.nregions g) (hj' : j' < w.nregions g) (he : v.slot g j = w.slot g j') : v = w ∧ j = j' := by
  obtain ⟨hnodup, hdisj⟩ := List.nodup_flatMap.mp h
  have hsymm : Std.Symm (Function.onFun List.Disjoint fun v : BatchRow => v.regionSlots g) := ⟨fun _ _ h => h.symm⟩
  have hvw : v = w := by
    by_contra hne
    have hd := hdisj.forall hv hw hne
    exact hd (BatchRow.slot_mem_regionSlots hj) (he ▸ BatchRow.slot_mem_regionSlots hj')
  subst hvw
  exact ⟨rfl, List.inj_on_of_nodup_map (hnodup v hv) (List.mem_range.mpr hj) (List.mem_range.mpr hj') he⟩

/-! ## Writes and their effect -/

section
variable {κ σ : Type} (compress : List κ → σ)

/-- The `m`-th token of the row's buffer: the head from the pending row, then the tokens of the step. -/
def BatchRow.token (g : Step4DSAGeometry) (t : Step4PendingTable) (pending : Nat × Nat → κ) (index : Nat → κ)
    (v : BatchRow) (m : Nat) : κ :=
  if m < v.head g then pending (t.rowOf (v.slot g 0), m) else index (v.tokStart + (m - v.head g))

/-- The tokens of the row's `j`-th region. -/
def regionTokens (g : Step4DSAGeometry) (tok : Nat → κ) (j : Nat) : List κ :=
  (List.range g.regionSize).map fun i => tok (j * g.regionSize + i)

/-- The summary `compress` makes of a region that fills. -/
inductive SummaryWrite (g : Step4DSAGeometry) (rows : List BatchRow) (tok : BatchRow → Nat → κ) : Nat × σ → Prop
  | closed {v : BatchRow} {j : Nat} (hv : v ∈ rows) (hj : j < v.nbuf g / g.regionSize) :
    SummaryWrite g rows tok (v.slot g j, compress (regionTokens g (tok v) j))

/-- A token written back to the pending row of its region. -/
inductive PendingWrite (g : Step4DSAGeometry) (rows : List BatchRow) (t : Step4PendingTable)
    (tok : BatchRow → Nat → κ) : (Nat × Nat) × κ → Prop
  | keep {v : BatchRow} {j i : Nat} (hv : v ∈ rows) (hk : v.Keeps g) (hj : j < v.nbuf g / g.regionSize)
    (hi : i < g.regionSize) : PendingWrite g rows t tok ((t.rowOf (v.slot g j), i), tok v (j * g.regionSize + i))
  | tail {v : BatchRow} {i : Nat} (hv : v ∈ rows) (hi : i < v.tail g) :
    PendingWrite g rows t tok
      ((t.rowOf (v.lastSlot g), i), tok v (v.nbuf g / g.regionSize * g.regionSize + i))

/-- The effect of a step on the tensors of one layer, `t` being the table the schedule ends with. -/
structure Updated (g : Step4DSAGeometry) (rows : List BatchRow) (t : Step4PendingTable) (index : Nat → κ)
    (T T' : LayerTensors κ σ) : Prop where
  stored : ∀ p, SummaryWrite compress g rows (fun v => v.token g t T.pending index) p → T'.summary p.1 = p.2
  summary_other : ∀ s, (∀ v ∈ rows, ∀ j < v.nbuf g / g.regionSize, s ≠ v.slot g j) → T'.summary s = T.summary s
  written : ∀ p, PendingWrite g rows t (fun v => v.token g t T.pending index) p → T'.pending p.1 = p.2
  pending_other : ∀ row i, row ≠ t.capacity →
    (∀ v ∈ rows, v.Keeps g → ∀ j < v.nbuf g / g.regionSize, row ≠ t.rowOf (v.slot g j)) →
    (∀ v ∈ rows, i < v.tail g → row ≠ t.rowOf (v.lastSlot g)) → T'.pending (row, i) = T.pending (row, i)

variable {t : Step4PendingTable}

theorem rowWrites_map (row n : Nat) (f : Nat → κ) :
    rowWrites row ((List.range n).map f) = (List.range n).map fun i => ((row, i), f i) := by
  unfold rowWrites
  apply List.ext_getElem
  · simp
  · intro i _ _
    simp

theorem mem_rowWrites {row n : Nat} {f : Nat → κ} {p : (Nat × Nat) × κ} :
    p ∈ rowWrites row ((List.range n).map f) ↔ ∃ i < n, p = ((row, i), f i) := by
  rw [rowWrites_map, List.mem_map]
  constructor
  · intro ⟨i, hi, he⟩
    exact ⟨i, List.mem_range.mp hi, he.symm⟩
  · intro ⟨i, hi, he⟩
    exact ⟨i, List.mem_range.mpr hi, he.symm⟩

section
variable (hwf : t.Wf) (hmap : ∀ s ∈ claims g rows, ∃ row, t.rowOfSlot s = some row)
include hwf hmap

theorem rowOf_inj {s s' : Nat} (hs : s ∈ claims g rows) (hs' : s' ∈ claims g rows) (he : t.rowOf s = t.rowOf s') :
    s = s' := by
  obtain ⟨r, hr⟩ := hmap s hs
  obtain ⟨r', hr'⟩ := hmap s' hs'
  rw [rowOf_eq hr, rowOf_eq hr'] at he
  subst he
  exact hwf.slot_inj hr hr'

theorem rowOf_ne_trash {s : Nat} (hs : s ∈ claims g rows) : t.rowOf s ≠ t.capacity := by
  obtain ⟨r, hr⟩ := hmap s hs
  rw [rowOf_eq hr]
  exact Nat.ne_of_lt (hwf.row_lt hr)

end

theorem kept_mem_claims (hq : ∀ v ∈ rows, v.qlen ≠ 0) (hv : v ∈ rows) (hk : v.Keeps g) {j : Nat}
    (hj : j < v.nbuf g / g.regionSize) : v.slot g j ∈ claims g rows := by
  refine mem_claims.mpr ⟨v, hv, hq v hv, ?_⟩
  by_cases hc : j = 0 ∧ v.head g ≠ 0
  · left
    rw [hc.1]
    exact BatchRow.mem_headSlots.mpr ⟨⟨hq v hv, hc.2⟩, rfl⟩
  · exact .inr (.inl (BatchRow.mem_keptSlots.mpr ⟨hk, j, hj, hc, rfl⟩))

theorem last_mem_claims (hq : ∀ v ∈ rows, v.qlen ≠ 0) (hv : v ∈ rows) (ht : v.tail g ≠ 0) :
    v.lastSlot g ∈ claims g rows :=
  mem_claims.mpr ⟨v, hv, hq v hv, .inr (.inr (BatchRow.mem_tailSlots.mpr ⟨ht, rfl⟩))⟩

theorem ExclusiveRows.slot_ne_last (h : ExclusiveRows g rows) (hv : v ∈ rows) (hw : w ∈ rows) {j : Nat}
    (hj : j < v.nbuf g / g.regionSize) (ht : w.tail g ≠ 0) : v.slot g j ≠ w.lastSlot g := by
  rw [BatchRow.lastSlot_eq ht]
  intro he
  have hlast : w.nbuf g / g.regionSize < w.nregions g := by
    rw [BatchRow.nregions_eq, if_neg ht]
    exact Nat.lt_succ_self _
  obtain ⟨rfl, rfl⟩ := h.slot_inj hv hw (BatchRow.lt_nregions hj) hlast he
  exact absurd hj (Nat.lt_irrefl _)

theorem ExclusiveRows.last_inj (h : ExclusiveRows g rows) (hq : ∀ v ∈ rows, v.qlen ≠ 0) (hv : v ∈ rows) (hw : w ∈ rows)
    (he : v.lastSlot g = w.lastSlot g) : v = w := by
  have hn := BatchRow.nregions_pos (g := g) (hq v hv)
  have hn' := BatchRow.nregions_pos (g := g) (hq w hw)
  exact (h.slot_inj hv hw (by omega) (by omega) he).1

/-- Two summaries stored to one slot are the same. -/
theorem SummaryWrite.agree {tok : BatchRow → Nat → κ} (hex : ExclusiveRows g rows) {p p' : Nat × σ}
    (hp : SummaryWrite compress g rows tok p) (hp' : SummaryWrite compress g rows tok p') (he : p'.1 = p.1) : p'.2 = p.2 := by
  cases hp with
  | closed hv hj =>
    cases hp' with
    | closed hv' hj' =>
      obtain ⟨rfl, rfl⟩ := hex.slot_inj hv' hv (BatchRow.lt_nregions hj') (BatchRow.lt_nregions hj) he
      rfl

section
variable (hq : ∀ v ∈ rows, v.qlen ≠ 0) (hwf : t.Wf) (hmap : ∀ s ∈ claims g rows, ∃ row, t.rowOfSlot s = some row)
  {tok : BatchRow → Nat → κ} {p p' : (Nat × Nat) × κ}
include hq hwf hmap

theorem PendingWrite.ne_trash (hp : PendingWrite g rows t tok p) : p.1.1 ≠ t.capacity := by
  cases hp with
  | keep hv hk hj hi => exact rowOf_ne_trash hwf hmap (kept_mem_claims hq hv hk hj)
  | tail hv hi => exact rowOf_ne_trash hwf hmap (last_mem_claims hq hv (Nat.ne_zero_of_lt hi))

/-- In the pending row of a tail only the tokens of the tail are written. -/
theorem PendingWrite.lt_tail (hex : ExclusiveRows g rows) (hp : PendingWrite g rows t tok p) (hw : w ∈ rows)
    (ht : w.tail g ≠ 0) (hrow : p.1.1 = t.rowOf (w.lastSlot g)) : p.1.2 < w.tail g := by
  cases hp with
  | keep hv hk hj hi =>
    have hs := rowOf_inj hwf hmap (kept_mem_claims hq hv hk hj) (last_mem_claims hq hw ht) hrow
    exact absurd hs (hex.slot_ne_last hv hw hj ht)
  | tail hv hi =>
    have hs := rowOf_inj hwf hmap (last_mem_claims hq hv (Nat.ne_zero_of_lt hi)) (last_mem_claims hq hw ht) hrow
    obtain rfl := hex.last_inj hq hv hw hs
    exact hi

/-- Two tokens written to one place are the same. -/
theorem PendingWrite.agree (hex : ExclusiveRows g rows) (hp : PendingWrite g rows t tok p)
    (hp' : PendingWrite g rows t tok p') (he : p'.1 = p.1) : p'.2 = p.2 := by
  cases hp with
  | keep hv hk hj hi =>
    have hclaim := kept_mem_claims hq hv hk hj
    cases hp' with
    | keep hv' hk' hj' hi' =>
      obtain ⟨hrow, rfl⟩ := Prod.mk.inj he
      have hs := rowOf_inj hwf hmap (kept_mem_claims hq hv' hk' hj') hclaim hrow
      obtain ⟨rfl, rfl⟩ := hex.slot_inj hv' hv (BatchRow.lt_nregions hj') (BatchRow.lt_nregions hj) hs
      rfl
    | tail hv' hi' =>
      have ht := Nat.ne_zero_of_lt hi'
      have hs := rowOf_inj hwf hmap (last_mem_claims hq hv' ht) hclaim (Prod.mk.inj he).1
      exact absurd hs.symm (hex.slot_ne_last hv hv' hj ht)
  | tail hv hi =>
    have ht := Nat.ne_zero_of_lt hi
    have hclaim := last_mem_claims hq hv ht
    cases hp' with
    | keep hv' hk' hj' hi' =>
      have hs := rowOf_inj hwf hmap (kept_mem_claims hq hv' hk' hj') hclaim (Prod.mk.inj he).1
      exact absurd hs (hex.slot_ne_last hv' hv hj' ht)
    | tail hv' hi' =>
      obtain ⟨hrow, rfl⟩ := Prod.mk.inj he
      have hs := rowOf_inj hwf hmap (last_mem_claims hq hv' (Nat.ne_zero_of_lt hi')) hclaim hrow
      obtain rfl := hex.last_inj hq hv' hv hs
      rfl

end

theorem Updated.of_writes {index : Nat → κ} {T T' : LayerTensors κ σ} {sw : List (Nat × σ)}
    {pw : List ((Nat × Nat) × κ)} (hq : ∀ v ∈ rows, v.qlen ≠ 0) (hex : ExclusiveRows g rows) (hwf : t.Wf)
    (hmap : ∀ s ∈ claims g rows, ∃ row, t.rowOfSlot s = some row)
    (hsw : ∀ p, p ∈ sw ↔ SummaryWrite compress g rows (fun v => v.token g t T.pending index) p)
    (hpw : ∀ p ∈ pw, p.1.1 = t.capacity ∨ PendingWrite g rows t (fun v => v.token g t T.pending index) p ∨
      p.2 = T.pending p.1 ∧ ∃ v ∈ rows, v.tail g ≠ 0 ∧ p.1.1 = t.rowOf (v.lastSlot g) ∧ v.tail g ≤ p.1.2)
    (hall : ∀ p, PendingWrite g rows t (fun v => v.token g t T.pending index) p → p ∈ pw)
    (hsum : T'.summary = scatter T.summary sw) (hpend : T'.pending = scatter T.pending pw) :
    Updated compress g rows t index T T' := by
  constructor
  · intro p hp
    rw [hsum]
    exact scatter_eq_of_agree (fun p' hp' he => hp.agree compress hex ((hsw p').mp hp') he) (.inr ⟨p, (hsw p).mpr hp, rfl⟩)
  · intro s hs
    rw [hsum]
    apply scatter_of_not_mem
    intro hmem
    obtain ⟨p, hp, rfl⟩ := List.mem_map.mp hmem
    cases (hsw p).mp hp with
    | closed hv hj => exact hs _ hv _ hj rfl
  · intro p hp
    rw [hpend]
    refine scatter_eq_of_agree (fun p' hp' he => ?_) (.inr ⟨p, hall p hp, rfl⟩)
    rcases hpw p' hp' with htrash | hw | ⟨-, w, hw, ht, hrow, hge⟩
    · rw [he] at htrash
      exact absurd htrash (hp.ne_trash hq hwf hmap)
    · exact hp.agree hq hwf hmap hex hw he
    · rw [he] at hrow hge
      exact absurd (hp.lt_tail hq hwf hmap hex hw ht hrow) (Nat.not_lt.mpr hge)
  · intro row i htrash hnk hnt
    rw [hpend]
    apply scatter_eq_of_agree
    · intro p' hp' he
      rcases hpw p' hp' with hc | hw | ⟨hid, -⟩
      · rw [he] at hc
        exact absurd hc htrash
      · cases hw with
        | keep hv' hk' hj' hi' => exact absurd (Prod.mk.inj he).1.symm (hnk _ hv' hk' _ hj')
        | tail hv' hi' =>
          obtain ⟨hrow, rfl⟩ := Prod.mk.inj he
          exact absurd hrow.symm (hnt _ hv' hi')
      · rw [hid, he]
    · exact .inl rfl

/-! ## The chunk-shaped update -/

/-- The rows of a batch that have tokens, with the offset of each in the packed buffer. -/
def placed (g : Step4DSAGeometry) : Nat → List BatchRow → List (Nat × BatchRow)
  | _, [] => []
  | off, v :: vs => if v.qlen = 0 then placed g off vs else (off, v) :: placed g (off + v.nbuf g) vs

theorem planned_requests (md : Step4DSAMetadata) : ∀ (rows : List BatchRow) (sched : GeneralSchedule),
    (planned g md t rows sched).requests =
      sched.requests ++ (placed g sched.bufLen rows).map fun p => planOf g md t p.1 p.2
  | [], sched => by simp [planned, placed]
  | v :: vs, sched => by
    unfold planned placed
    by_cases hq : v.qlen = 0
    · rw [if_pos hq, if_pos hq, planned_requests md vs]
    · rw [if_neg hq, if_neg hq, planned_requests md vs]
      simp

theorem planned_regions (md : Step4DSAMetadata) : ∀ (rows : List BatchRow) (sched : GeneralSchedule),
    (planned g md t rows sched).regions =
      sched.regions ++ (placed g sched.bufLen rows).flatMap fun p => bufferRegions g p.2 p.1
  | [], sched => by simp [planned, placed]
  | v :: vs, sched => by
    unfold planned placed
    by_cases hq : v.qlen = 0
    · rw [if_pos hq, if_pos hq, planned_regions md vs]
    · rw [if_neg hq, if_neg hq, planned_regions md vs]
      simp

theorem planned_completed (md : Step4DSAMetadata) : ∀ (rows : List BatchRow) (sched : GeneralSchedule),
    (planned g md t rows sched).completedSlots = sched.completedSlots ++ rows.flatMap (·.completed g)
  | [], sched => by simp [planned]
  | v :: vs, sched => by
    unfold planned
    by_cases hq : v.qlen = 0
    · rw [if_pos hq, planned_completed md vs, List.flatMap_cons]
      simp [BatchRow.completed, hq]
    · rw [if_neg hq, planned_completed md vs, List.flatMap_cons]
      simp [BatchRow.completed, hq]

theorem mem_placed : ∀ {rows : List BatchRow} {off : Nat} {p : Nat × BatchRow}, p ∈ placed g off rows →
    p.2 ∈ rows ∧ p.2.qlen ≠ 0 ∧ off ≤ p.1
  | v :: vs, off, p, hp => by
    unfold placed at hp
    split at hp
    · obtain ⟨hmem, hq, hle⟩ := mem_placed hp
      exact ⟨List.mem_cons_of_mem _ hmem, hq, hle⟩
    · rename_i hq
      rcases List.mem_cons.mp hp with rfl | hp
      · exact ⟨List.mem_cons_self .., hq, Nat.le_refl _⟩
      · obtain ⟨hmem, hq, hle⟩ := mem_placed hp
        exact ⟨List.mem_cons_of_mem _ hmem, hq, by omega⟩

theorem exists_placed : ∀ {rows : List BatchRow} (off : Nat), v ∈ rows → v.qlen ≠ 0 → ∃ x, (x, v) ∈ placed g off rows
  | w :: ws, off, hv, hq => by
    unfold placed
    rcases List.mem_cons.mp hv with rfl | hv
    · rw [if_neg hq]
      exact ⟨off, List.mem_cons_self ..⟩
    · split
      · exact exists_placed off hv hq
      · obtain ⟨x, hx⟩ := exists_placed (off + w.nbuf g) hv hq
        exact ⟨x, List.mem_cons_of_mem _ hx⟩

theorem placed_disjoint : ∀ {rows : List BatchRow} {off : Nat} {p p' : Nat × BatchRow} {x : Nat},
    p ∈ placed g off rows → p' ∈ placed g off rows → p.1 ≤ x → x < p.1 + p.2.nbuf g → p'.1 ≤ x →
    x < p'.1 + p'.2.nbuf g → p = p'
  | v :: vs, off, p, p', x, hp, hp', h₁, h₂, h₃, h₄ => by
    unfold placed at hp hp'
    split at hp
    · rename_i hq
      rw [if_pos hq] at hp'
      exact placed_disjoint hp hp' h₁ h₂ h₃ h₄
    · rename_i hq
      rw [if_neg hq] at hp'
      rcases List.mem_cons.mp hp with rfl | hp <;> rcases List.mem_cons.mp hp' with rfl | hp'
      · rfl
      · have := (mem_placed hp').2.2
        simp only at h₂
        omega
      · have := (mem_placed hp).2.2
        simp only at h₄
        omega
      · exact placed_disjoint hp hp' h₁ h₂ h₃ h₄

/-- The places of the packed buffer that a plan fills. -/
def bufferWrites (pending : Nat × Nat → κ) (index : Nat → κ) (plan : RequestPlan) : List (Nat × κ) :=
  ((List.range plan.head).map fun i => (plan.bufStart + i, pending (plan.pendingRowIn.getD 0, i))) ++
  (List.range plan.qlen).map fun i => (plan.bufStart + plan.head + i, index (plan.tokStart + i))

theorem generalBuffer_eq (zero : κ) (sched : GeneralSchedule) (pending : Nat × Nat → κ) (index : Nat → κ) :
    generalBuffer zero sched pending index =
      scatter (fun _ => zero) (sched.requests.flatMap (bufferWrites pending index)) := by
  unfold generalBuffer
  apply foldl_scatter (fun f : Nat → κ => f)
  intro buffer plan
  simp only [writeSlice_map, bufferWrites, scatter_append]

theorem generalBuffer_at {zero : κ} {md : Step4DSAMetadata} {sched : GeneralSchedule} {pending : Nat × Nat → κ}
    {index : Nat → κ} (hmap : ∀ s ∈ claims g rows, ∃ row, t.rowOfSlot s = some row)
    (hreq : sched.requests = (placed g 0 rows).map fun p => planOf g md t p.1 p.2)
    {off m : Nat} (hp : (off, v) ∈ placed g 0 rows) (hm : m < v.nbuf g) :
    generalBuffer zero sched pending index (off + m) = v.token g t pending index m := by
  have hin : ∀ w ∈ rows, w.qlen ≠ 0 → w.head g ≠ 0 → (w.headRow g t).getD 0 = t.rowOf (w.slot g 0) := by
    intro w hw hq hh
    have hclaim := mem_claims.mpr ⟨w, hw, hq, .inl (BatchRow.mem_headSlots.mpr ⟨⟨hq, hh⟩, rfl⟩)⟩
    obtain ⟨row, hrow⟩ := hmap _ hclaim
    rw [BatchRow.headRow, if_pos ⟨hq, hh⟩, rowOf_eq hrow, hrow, Option.getD_some]
  have hmem : v ∈ rows ∧ v.qlen ≠ 0 := ⟨(mem_placed hp).1, (mem_placed hp).2.1⟩
  have hnbuf : ∀ w : BatchRow, w.nbuf g = w.head g + w.qlen := fun _ => rfl
  rw [generalBuffer_eq, hreq]
  apply scatter_eq_of_agree
  · intro w hw he
    obtain ⟨plan, hplan, hw⟩ := List.mem_flatMap.mp hw
    obtain ⟨⟨off', v'⟩, hp', rfl⟩ := List.mem_map.mp hplan
    obtain ⟨hv', hq', -⟩ := mem_placed hp'
    have hbound := hnbuf v'
    -- the write lies in the place of `v'`, so `v'` is `v`
    rcases List.mem_append.mp hw with hw | hw
    · obtain ⟨i, hi, rfl⟩ := List.mem_map.mp hw
      simp only [planOf, List.mem_range] at hi he ⊢
      have heq := placed_disjoint hp hp' (x := off + m) (by simp) (by simpa using hm)
        (by simp only; omega) (by simp only; omega)
      cases heq
      have hmi : m = i := by omega
      subst hmi
      rw [BatchRow.token, if_pos hi, hin v hv' hq' (by omega)]
    · obtain ⟨i, hi, rfl⟩ := List.mem_map.mp hw
      simp only [planOf, List.mem_range] at hi he ⊢
      have heq := placed_disjoint hp hp' (x := off + m) (by simp) (by simpa using hm)
        (by simp only; omega) (by simp only; omega)
      cases heq
      rw [BatchRow.token, if_neg (by omega)]
      congr 2
      omega
  · right
    have hplan : planOf g md t off v ∈ (placed g 0 rows).map fun p => planOf g md t p.1 p.2 :=
      List.mem_map.mpr ⟨(off, v), hp, rfl⟩
    by_cases hlt : m < v.head g
    · refine ⟨(off + m, pending ((planOf g md t off v).pendingRowIn.getD 0, m)), ?_, rfl⟩
      refine List.mem_flatMap.mpr ⟨_, hplan, List.mem_append_left _ ?_⟩
      exact List.mem_map.mpr ⟨m, List.mem_range.mpr hlt, rfl⟩
    · refine ⟨(off + m, index (v.tokStart + (m - v.head g))), ?_, rfl⟩
      refine List.mem_flatMap.mpr ⟨_, hplan, List.mem_append_right _ ?_⟩
      refine List.mem_map.mpr ⟨m - v.head g, List.mem_range.mpr ?_, ?_⟩
      · have := hnbuf v
        simp only [planOf]
        omega
      · simp only [planOf, Prod.mk.injEq]
        exact ⟨by omega, trivial⟩

theorem count_full_iff {j : Nat} :
    min g.regionSize (v.nbuf g - j * g.regionSize) = g.regionSize ↔ j < v.nbuf g / g.regionSize := by
  have := g.regionSize_pos
  rw [← BatchRow.full_iff, Nat.add_mul]
  omega

theorem compressAt_eq {buffer : Nat → κ} (tok : Nat → κ) {start j : Nat}
    (h : ∀ i < g.regionSize, buffer (start + i) = tok (j * g.regionSize + i)) :
    compressAt compress buffer start g.regionSize = compress (regionTokens g tok j) := by
  unfold compressAt regionTokens
  congr 1
  apply List.map_congr_left
  intro i hi
  exact h i (List.mem_range.mp hi)

theorem full_lt_nbuf {j i : Nat} (hj : j < v.nbuf g / g.regionSize) (hi : i < g.regionSize) :
    j * g.regionSize + i < v.nbuf g := by
  have h := BatchRow.full_iff.mpr hj
  rw [Nat.add_mul] at h
  omega

theorem tail_lt_nbuf {i : Nat} (hi : i < v.tail g) : v.nbuf g / g.regionSize * g.regionSize + i < v.nbuf g := by
  have := BatchRow.nbuf_eq (g := g) (v := v)
  omega

theorem outRow_getD (hmap : ∀ s ∈ claims g rows, ∃ row, t.rowOfSlot s = some row) (hq : v.qlen ≠ 0) (hv : v ∈ rows)
    (ht : v.tail g ≠ 0) : v.outRow g t = some (t.rowOf (v.lastSlot g)) := by
  have hclaim := mem_claims.mpr ⟨v, hv, hq, .inr (.inr (BatchRow.mem_tailSlots.mpr ⟨ht, rfl⟩))⟩
  obtain ⟨row, hrow⟩ := hmap _ hclaim
  rw [BatchRow.outRow, if_pos ht, rowOf_eq hrow, hrow]

theorem mem_keepList {k : Nat × Nat} : k ∈ v.keepList g t ↔
    v.Keeps g ∧ ∃ j < v.nbuf g / g.regionSize, k = (j, t.rowOf (v.slot g j)) := by
  unfold BatchRow.keepList
  by_cases hk : v.Keeps g
  · rw [if_pos hk, BatchRow.closedRegions_eq]
    simp only [List.mem_map, List.mem_range, hk, true_and, eq_comm]
  · simp [hk]

/-- A plan writes back the regions that its row keeps and the tail. -/
theorem mem_generalWrites {md : Step4DSAMetadata} {buffer : Nat → κ} {tok : Nat → κ} {off : Nat}
    (hmap : ∀ s ∈ claims g rows, ∃ row, t.rowOfSlot s = some row) (hv : v ∈ rows) (hq : v.qlen ≠ 0)
    (hbuf : ∀ m < v.nbuf g, buffer (off + m) = tok m) {p : (Nat × Nat) × κ} :
    p ∈ generalWrites g buffer (planOf g md t off v) ↔
      (v.Keeps g ∧ ∃ j < v.nbuf g / g.regionSize, ∃ i < g.regionSize,
        p = ((t.rowOf (v.slot g j), i), tok (j * g.regionSize + i))) ∨
      ∃ i < v.tail g, p = ((t.rowOf (v.lastSlot g), i), tok (v.nbuf g / g.regionSize * g.regionSize + i)) := by
  have htail : ∀ i < v.tail g, buffer (off + v.head g + v.qlen - v.tail g + i) =
      tok (v.nbuf g / g.regionSize * g.regionSize + i) := by
    intro i hi
    rw [← hbuf _ (tail_lt_nbuf hi)]
    congr 1
    have h₁ := BatchRow.nbuf_eq (g := g) (v := v)
    have h₂ : v.nbuf g = v.head g + v.qlen := rfl
    omega
  unfold generalWrites
  rw [List.mem_append]
  refine or_congr ⟨fun hp => ?_, ?_⟩ ⟨fun hp => ?_, ?_⟩
  · obtain ⟨k, hk, hp⟩ := List.mem_flatMap.mp hp
    obtain ⟨k', hk', rfl⟩ := List.mem_map.mp hk
    obtain ⟨hkeeps, j, hj, rfl⟩ := mem_keepList.mp hk'
    obtain ⟨i, hi, rfl⟩ := mem_rowWrites.mp hp
    refine ⟨hkeeps, j, hj, i, hi, ?_⟩
    simp only [Nat.add_assoc, hbuf _ (full_lt_nbuf hj hi)]
  · rintro ⟨hkeeps, j, hj, i, hi, rfl⟩
    refine List.mem_flatMap.mpr ⟨(t.rowOf (v.slot g j), off + j * g.regionSize), ?_, mem_rowWrites.mpr ⟨i, hi, ?_⟩⟩
    · exact List.mem_map.mpr ⟨(j, t.rowOf (v.slot g j)), mem_keepList.mpr ⟨hkeeps, j, hj, rfl⟩, rfl⟩
    · simp only [Nat.add_assoc, hbuf _ (full_lt_nbuf hj hi)]
  · obtain ⟨i, hi, rfl⟩ := mem_rowWrites.mp hp
    have hout := outRow_getD hmap hq hv (Nat.ne_zero_of_lt hi)
    refine ⟨i, hi, ?_⟩
    simp only [planOf, htail i hi, hout, Option.getD_some]
  · rintro ⟨i, hi, rfl⟩
    have hout := outRow_getD hmap hq hv (Nat.ne_zero_of_lt hi)
    refine mem_rowWrites.mpr ⟨i, hi, ?_⟩
    simp only [planOf, htail i hi, hout, Option.getD_some]

section
variable {md : Step4DSAMetadata} {sched : GeneralSchedule} {buffer : Nat → κ} {tok : BatchRow → Nat → κ}
  (hq : ∀ v ∈ rows, v.qlen ≠ 0)
  (hbuf : ∀ {off v}, (off, v) ∈ placed g 0 rows → ∀ m < v.nbuf g, buffer (off + m) = tok v m)
include hq hbuf

theorem mem_generalSummaries (hreg : sched.regions = (placed g 0 rows).flatMap fun p => bufferRegions g p.2 p.1)
    {p : Nat × σ} :
    p ∈ ((sched.regions.filter BufferRegion.live).map fun r => (r.slot, compressAt compress buffer r.start r.count)) ↔
      SummaryWrite compress g rows tok p := by
  have hcompress : ∀ {off v j}, (off, v) ∈ placed g 0 rows → j < v.nbuf g / g.regionSize →
      compressAt compress buffer (off + j * g.regionSize) g.regionSize = compress (regionTokens g (tok v) j) :=
    fun hp hj => compressAt_eq compress _ fun i hi => by rw [Nat.add_assoc, hbuf hp _ (full_lt_nbuf hj hi)]
  simp only [hreg, List.mem_map, List.mem_filter, List.mem_flatMap]
  constructor
  · rintro ⟨r, ⟨⟨⟨off, v⟩, hp, hr⟩, hlive⟩, rfl⟩
    obtain ⟨j, hj, rfl⟩ := List.mem_map.mp hr
    have hfull : j < v.nbuf g / g.regionSize := by
      by_contra hc
      simp only [BufferRegion.live, count_full_iff, hc, if_false, Nat.lt_irrefl, decide_false, Bool.false_eq_true] at hlive
    simp only [if_pos (count_full_iff.mpr hfull), hcompress hp hfull]
    exact .closed (mem_placed hp).1 hfull
  · intro hp
    cases hp with
    | @closed v j hv hj =>
      obtain ⟨off, hp⟩ := exists_placed (g := g) 0 hv (hq v hv)
      refine ⟨⟨off + j * g.regionSize, g.regionSize, v.slot g j⟩, ⟨⟨(off, v), hp, ?_⟩, ?_⟩, ?_⟩
      · refine List.mem_map.mpr ⟨j, List.mem_range.mpr (BatchRow.lt_nregions hj), ?_⟩
        simp only [if_pos (count_full_iff.mpr hj)]
      · simp [BufferRegion.live, g.regionSize_pos]
      · rw [hcompress hp hj]

theorem mem_generalPending (hmap : ∀ s ∈ claims g rows, ∃ row, t.rowOfSlot s = some row)
    (hreq : sched.requests = (placed g 0 rows).map fun p => planOf g md t p.1 p.2) {p : (Nat × Nat) × κ} :
    p ∈ sched.requests.flatMap (generalWrites g buffer) ↔ PendingWrite g rows t tok p := by
  rw [hreq, List.flatMap_map, List.mem_flatMap]
  constructor
  · rintro ⟨⟨off, v⟩, hpl, hp⟩
    have hv := (mem_placed hpl).1
    obtain ⟨hk, j, hj, i, hi, rfl⟩ | ⟨i, hi, rfl⟩ := (mem_generalWrites hmap hv (hq v hv) (hbuf hpl)).mp hp
    · exact .keep hv hk hj hi
    · exact .tail hv hi
  · intro hp
    have hplan : ∀ {v}, v ∈ rows → ∃ off, (off, v) ∈ placed g 0 rows := fun hv => exists_placed 0 hv (hq _ hv)
    cases hp with
    | keep hv hk hj hi =>
      obtain ⟨off, hpl⟩ := hplan hv
      exact ⟨_, hpl, (mem_generalWrites hmap hv (hq _ hv) (hbuf hpl)).mpr (.inl ⟨hk, _, hj, _, hi, rfl⟩)⟩
    | tail hv hi =>
      obtain ⟨off, hpl⟩ := hplan hv
      exact ⟨_, hpl, (mem_generalWrites hmap hv (hq _ hv) (hbuf hpl)).mpr (.inr ⟨_, hi, rfl⟩)⟩

end

theorem updated_general {zero : κ} {md : Step4DSAMetadata} {sched : GeneralSchedule} {index : Nat → κ}
    {T : LayerTensors κ σ} (hq : ∀ v ∈ rows, v.qlen ≠ 0) (hex : ExclusiveRows g rows) (hwf : t.Wf)
    (hmap : ∀ s ∈ claims g rows, ∃ row, t.rowOfSlot s = some row)
    (hreq : sched.requests = (placed g 0 rows).map fun p => planOf g md t p.1 p.2)
    (hreg : sched.regions = (placed g 0 rows).flatMap fun p => bufferRegions g p.2 p.1) :
    Updated compress g rows t index T (updateSummariesGeneral g zero compress sched index T) := by
  have hbuf : ∀ {off v}, (off, v) ∈ placed g 0 rows → ∀ m < v.nbuf g,
      generalBuffer zero sched T.pending index (off + m) = v.token g t T.pending index m :=
    fun hp m hm => generalBuffer_at hmap hreq hp hm
  exact Updated.of_writes compress hq hex hwf hmap (fun p => mem_generalSummaries compress hq hbuf hreg)
    (fun p hp => .inr (.inl ((mem_generalPending hq hbuf hmap hreq).mp hp)))
    (fun p hp => (mem_generalPending hq hbuf hmap hreq).mpr hp) rfl rfl

/-! ## The update of a decode step -/

/-- The host mirror agrees with the device table on every row with tokens. -/
def Step4DSAMetadata.Mirrors (md : Step4DSAMetadata) : Prop :=
  ∀ i < md.numDecodes + md.numPrefills, 0 < md.seqLens i → md.hostTable i = md.blockTable i

section
variable {md : Step4DSAMetadata}

theorem mem_decodeRows : v ∈ md.decodeRows g ↔
    ∃ i < md.numDecodes, v = md.decodeRow md.hostTable i ∧ v.Real g := by
  unfold Step4DSAMetadata.decodeRows
  simp only [List.mem_filter, List.mem_map, List.mem_range, decide_eq_true_eq]
  constructor
  · rintro ⟨⟨i, hi, rfl⟩, hr⟩
    exact ⟨i, hi, rfl, hr⟩
  · rintro ⟨i, hi, rfl, hr⟩
    exact ⟨⟨i, hi, rfl⟩, hr⟩

theorem decodeRow_device (hmir : md.Mirrors) (hv : v ∈ md.decodeRows g) :
    v.row < md.numDecodes ∧ md.decodeRow md.blockTable v.row = v ∧ v.Real g ∧ v.qlen = 1 ∧ v.tokStart = v.row := by
  obtain ⟨i, hi, rfl, hr⟩ := mem_decodeRows.mp hv
  refine ⟨hi, ?_, hr, rfl, rfl⟩
  have hm := hmir i (by omega) hr.1
  unfold Step4DSAMetadata.decodeRow
  simp only [hm]

theorem real_device (hmir : md.Mirrors) {i : Nat} (hi : i < md.numDecodes)
    (hr : (md.decodeRow md.blockTable i).Real g) : md.decodeRow md.blockTable i ∈ md.decodeRows g := by
  have hm := hmir i (by omega) hr.1
  refine mem_decodeRows.mpr ⟨i, hi, ?_, hr⟩
  unfold Step4DSAMetadata.decodeRow
  simp only [hm]

theorem decodeRow_inj (hmir : md.Mirrors) (hv : v ∈ md.decodeRows g) (hw : w ∈ md.decodeRows g)
    (he : v.row = w.row) : v = w := by
  rw [← (decodeRow_device hmir hv).2.1, he, (decodeRow_device hmir hw).2.1]

theorem scatter_rows {f : BatchRow → Option Nat} {trash : Nat} {rows : List BatchRow}
    (hinj : ∀ v ∈ rows, ∀ w ∈ rows, v.row = w.row → v = w) (hv : v ∈ rows) :
    scatter (fun _ => trash) (rows.filterMap fun v => (f v).map (v.row, ·)) v.row = (f v).getD trash := by
  apply scatter_eq_of_agree
  · intro p hp he
    obtain ⟨w, hw, hp⟩ := List.mem_filterMap.mp hp
    obtain ⟨x, hx, rfl⟩ := Option.map_eq_some_iff.mp hp
    obtain rfl := hinj w hw v hv he
    rw [hx, Option.getD_some]
  · cases hf : f v with
    | none => exact .inl rfl
    | some x =>
      right
      refine ⟨(v.row, x), List.mem_filterMap.mpr ⟨v, hv, ?_⟩, rfl⟩
      rw [hf, Option.map_some]

theorem scatter_rows_other {f : BatchRow → Option Nat} {trash r : Nat} {rows : List BatchRow}
    (hr : ∀ v ∈ rows, v.row ≠ r) :
    scatter (fun _ => trash) (rows.filterMap fun v => (f v).map (v.row, ·)) r = trash := by
  apply scatter_of_not_mem
  intro hmem
  obtain ⟨p, hp, rfl⟩ := List.mem_map.mp hmem
  obtain ⟨w, hw, hp⟩ := List.mem_filterMap.mp hp
  obtain ⟨x, -, rfl⟩ := Option.map_eq_some_iff.mp hp
  exact hr w hw rfl

theorem headRow_getD {rows : List BatchRow} (hmap : ∀ s ∈ claims g rows, ∃ row, t.rowOfSlot s = some row)
    (hv : v ∈ rows) (hq : v.qlen ≠ 0) (hh : v.head g ≠ 0) : v.headRow g t = some (t.rowOf (v.slot g 0)) := by
  have hclaim := mem_claims.mpr ⟨v, hv, hq, .inl (BatchRow.mem_headSlots.mpr ⟨⟨hq, hh⟩, rfl⟩)⟩
  obtain ⟨row, hrow⟩ := hmap _ hclaim
  rw [BatchRow.headRow, if_pos ⟨hq, hh⟩, rowOf_eq hrow, hrow]

theorem decodeVectors_live {trash r : Nat} : (decodeVectors g md trash t).live r = true ↔
    (md.decodeRow md.blockTable r).Real g ∧ (md.decodeRow md.blockTable r).head g = g.regionSize - 1 := by
  simp [decodeVectors]

theorem decodeVectors_pendingOut (hmir : md.Mirrors) (hv : v ∈ md.decodeRows g) {trash : Nat} :
    (decodeVectors g md trash t).pendingOut v.row = (v.outRow g t).getD trash :=
  scatter_rows (fun _ hv _ hw he => decodeRow_inj hmir hv hw he) hv

/-- A row that leaves its region open has a tail up to its new token. -/
theorem decodeVectors_tail {trash : Nat} (hdev : md.decodeRow md.blockTable v.row = v) (hreal : v.Real g) (hq : v.qlen = 1)
    (hh : v.head g ≠ g.regionSize - 1) : (decodeVectors g md trash t).tail v.row = v.tail g := by
  simp [decodeVectors, hdev, hreal, hh, (BatchRow.tail_one_of_open hq hh).1]

section
variable (zero : κ) {index : Nat → κ} {T : LayerTensors κ σ} (hmir : md.Mirrors)
  (hmap : ∀ s ∈ claims g (md.decodeRows g), ∃ row, t.rowOfSlot s = some row)
include hmir hmap

/-- The buffer of a row holds its pending tokens and then the new one. -/
theorem decodeBuffer_eq (hv : v ∈ md.decodeRows g) {i : Nat} (hi : i < v.nbuf g) :
    decodeBuffer zero (decodeVectors g md t.capacity t) T.pending index v.row i = v.token g t T.pending index i := by
  obtain ⟨-, hdev, hreal, hq, htok⟩ := decodeRow_device hmir hv
  have hhead : (decodeVectors g md t.capacity t).head v.row = v.head g := by
    simp [decodeVectors, hdev, hreal]
  rw [BatchRow.nbuf_one hq] at hi
  unfold decodeBuffer BatchRow.token
  rw [hhead]
  by_cases he : i = v.head g
  · rw [if_pos he, if_neg (by omega), he, Nat.sub_self, Nat.add_zero, htok]
  · have hlt : i < v.head g := by omega
    have hin : (decodeVectors g md t.capacity t).pendingIn v.row = (v.headRow g t).getD t.capacity :=
      scatter_rows (fun _ hv _ hw he => decodeRow_inj hmir hv hw he) hv
    rw [if_neg he, if_pos hlt, if_pos hlt, hin, headRow_getD hmap hv (by omega) (by omega), Option.getD_some]

theorem decodeSummary_eq (hv : v ∈ md.decodeRows g) (hj : 0 < v.nbuf g / g.regionSize) :
    compressAt compress (decodeBuffer zero (decodeVectors g md t.capacity t) T.pending index v.row) 0 g.regionSize =
      compress (regionTokens g (v.token g t T.pending index) 0) := by
  apply compressAt_eq
  intro i hi
  have hi' := full_lt_nbuf hj hi
  rw [Nat.zero_mul, Nat.zero_add] at hi' ⊢
  exact decodeBuffer_eq zero hmir hmap hv hi'

theorem mem_decodeSummaries {p : Nat × σ} :
    p ∈ ((List.range md.numDecodes).filter (decodeVectors g md t.capacity t).live).map (fun r =>
        (((decodeVectors g md t.capacity t).slots r).getD 0,
          compressAt compress (decodeBuffer zero (decodeVectors g md t.capacity t) T.pending index r) 0
            ((decodeVectors g md t.capacity t).counts r))) ↔
      SummaryWrite compress g (md.decodeRows g) (fun v => v.token g t T.pending index) p := by
  simp only [List.mem_map, List.mem_filter, List.mem_range]
  constructor
  · rintro ⟨r, ⟨hr, hl⟩, rfl⟩
    obtain ⟨hreal, hh⟩ := decodeVectors_live.mp hl
    have hv := real_device hmir hr hreal
    have hj : 0 < (md.decodeRow md.blockTable r).nbuf g / g.regionSize := by
      rw [(BatchRow.tail_one_of_closes (decodeRows_qlen md hv) hh).2]
      exact Nat.one_pos
    have hcounts : (decodeVectors g md t.capacity t).counts r = g.regionSize := by
      simp [decodeVectors, hreal, hh]
    have hslots : ((decodeVectors g md t.capacity t).slots r).getD 0 = (md.decodeRow md.blockTable r).slot g 0 := by
      simp [decodeVectors, hreal]
    have hw : SummaryWrite compress g _ (fun v => v.token g t T.pending index) _ := .closed hv hj
    rw [← decodeSummary_eq compress zero hmir hmap hv hj] at hw
    rw [hcounts, hslots]
    exact hw
  · intro hp
    cases hp with
    | @closed v j hv hj =>
      obtain ⟨hlt, hdev, hreal, hq, -⟩ := decodeRow_device hmir hv
      have hh : v.head g = g.regionSize - 1 := by
        by_contra hne
        rw [(BatchRow.tail_one_of_open hq hne).2] at hj
        exact absurd hj (Nat.not_lt_zero _)
      have hj0 : j = 0 := by
        rw [(BatchRow.tail_one_of_closes hq hh).2] at hj
        omega
      subst hj0
      refine ⟨v.row, ⟨hlt, ?_⟩, ?_⟩
      · rw [decodeVectors_live, hdev]
        exact ⟨hreal, hh⟩
      · rw [← decodeSummary_eq compress zero hmir hmap hv hj]
        simp [decodeVectors, hdev, hreal, hh]

/-- A pending row is written in the trash row, with the tokens of a tail, or with what it holds. -/
theorem decodePending_writes {r : Nat} (hr : r < md.numDecodes) {p : (Nat × Nat) × κ}
    (hp : p ∈ rowWrites ((decodeVectors g md t.capacity t).pendingOut r) ((List.range g.regionSize).map fun i =>
      if i < (decodeVectors g md t.capacity t).tail r then
        decodeBuffer zero (decodeVectors g md t.capacity t) T.pending index r i
      else T.pending ((decodeVectors g md t.capacity t).pendingOut r, i))) :
    p.1.1 = t.capacity ∨ PendingWrite g (md.decodeRows g) t (fun v => v.token g t T.pending index) p ∨
      p.2 = T.pending p.1 ∧ ∃ v ∈ md.decodeRows g, v.tail g ≠ 0 ∧ p.1.1 = t.rowOf (v.lastSlot g) ∧ v.tail g ≤ p.1.2 := by
  obtain ⟨i, hi, rfl⟩ := mem_rowWrites.mp hp
  by_cases hreal : (md.decodeRow md.blockTable r).Real g
  · have hv := real_device hmir hr hreal
    have hq := decodeRows_qlen md hv
    have ho : (decodeVectors g md t.capacity t).pendingOut r = ((md.decodeRow md.blockTable r).outRow g t).getD t.capacity :=
      decodeVectors_pendingOut hmir hv
    by_cases hh : (md.decodeRow md.blockTable r).head g = g.regionSize - 1
    · left
      rw [BatchRow.outRow, if_neg (by simp [(BatchRow.tail_one_of_closes hq hh).1])] at ho
      exact ho
    · obtain ⟨ht, hn⟩ := BatchRow.tail_one_of_open hq hh
      have ht0 : (md.decodeRow md.blockTable r).tail g ≠ 0 := by
        rw [ht]
        exact Nat.succ_ne_zero _
      rw [outRow_getD hmap (by omega) hv ht0, Option.getD_some] at ho
      have htail : (decodeVectors g md t.capacity t).tail r = (md.decodeRow md.blockTable r).tail g :=
        decodeVectors_tail rfl hreal hq hh
      right
      rw [htail, ho]
      by_cases hlt : i < (md.decodeRow md.blockTable r).tail g
      · left
        have hw : PendingWrite g _ t (fun v => v.token g t T.pending index) _ := .tail hv hlt
        have hb : decodeBuffer zero (decodeVectors g md t.capacity t) T.pending index r i =
            (md.decodeRow md.blockTable r).token g t T.pending index i :=
          decodeBuffer_eq zero hmir hmap hv (by have := tail_lt_nbuf hlt; omega)
        rw [hn, Nat.zero_mul, Nat.zero_add, ← hb] at hw
        rw [if_pos hlt]
        exact hw
      · right
        refine ⟨by simp only [if_neg hlt], _, hv, ht0, rfl, ?_⟩
        exact Nat.not_lt.mp hlt
  · left
    apply scatter_rows_other
    intro w hw he
    obtain ⟨-, hdev, hw', -, -⟩ := decodeRow_device hmir hw
    rw [he] at hdev
    rw [hdev] at hreal
    exact hreal hw'

/-- The tokens of every tail are written. -/
theorem decodePending_tails {p : (Nat × Nat) × κ}
    (hp : PendingWrite g (md.decodeRows g) t (fun v => v.token g t T.pending index) p) :
    ∃ r < md.numDecodes, p ∈ rowWrites ((decodeVectors g md t.capacity t).pendingOut r) ((List.range g.regionSize).map fun i =>
      if i < (decodeVectors g md t.capacity t).tail r then
        decodeBuffer zero (decodeVectors g md t.capacity t) T.pending index r i
      else T.pending ((decodeVectors g md t.capacity t).pendingOut r, i)) := by
  cases hp with
  | keep hv hk hj hi =>
    -- a row of one token keeps no region
    have := decodeRows_qlen md hv
    have := hk.1
    omega
  | @tail v i hv hi =>
    obtain ⟨hlt, hdev, hreal, hq, -⟩ := decodeRow_device hmir hv
    have hh : v.head g ≠ g.regionSize - 1 := by
      intro hc
      rw [(BatchRow.tail_one_of_closes hq hc).1] at hi
      exact absurd hi (Nat.not_lt_zero _)
    refine ⟨v.row, hlt, mem_rowWrites.mpr ⟨i, hi.trans BatchRow.tail_lt, ?_⟩⟩
    rw [decodeVectors_pendingOut hmir hv, outRow_getD hmap (by omega) hv (by omega), Option.getD_some,
      decodeVectors_tail hdev hreal hq hh, if_pos hi,
      decodeBuffer_eq zero hmir hmap hv (by have := tail_lt_nbuf hi; omega), (BatchRow.tail_one_of_open hq hh).2, Nat.zero_mul,
      Nat.zero_add]

theorem updated_decode (hex : ExclusiveRows g (md.decodeRows g)) (hwf : t.Wf) :
    Updated compress g (md.decodeRows g) t index T
      (updateSummariesDecode g zero compress (decodeVectors g md t.capacity t) index T) := by
  have hq : ∀ v ∈ md.decodeRows g, v.qlen ≠ 0 := fun v hv => by
    rw [decodeRows_qlen md hv]
    exact Nat.one_ne_zero
  refine Updated.of_writes compress hq hex hwf hmap (fun p => mem_decodeSummaries compress zero hmir hmap) (fun p hp => ?_)
    (fun p hp => ?_) rfl rfl
  · obtain ⟨r, hr, hp⟩ := List.mem_flatMap.mp hp
    exact decodePending_writes zero hmir hmap (List.mem_range.mp hr) hp
  · obtain ⟨r, hr, hp⟩ := decodePending_tails zero hmir hmap hp
    exact List.mem_flatMap.mpr ⟨r, List.mem_range.mpr hr, hp⟩

end

end

end

end

end VllmHcu.Step4
