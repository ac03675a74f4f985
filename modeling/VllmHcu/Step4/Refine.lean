import VllmHcu.Step4.Forward
import Mathlib.Algebra.GroupWithZero.Nat

/-!
# The fast schedules beside the general one

A batch without prefill rows takes one of the fast schedules. Beside a batch of the
same rows without the padding, scheduled the general way, the fast step has the same
effect up to a renaming of pending rows, and it raises for the same reasons.
-/

namespace VllmHcu.Step4

open Step4PendingTable

section
variable {ι κ σ : Type} {g : Step4DSAGeometry}

/-- The row `w` holds what `v` holds, at another place of another batch. -/
structure SameRow (index index' : ι → Nat → κ) (v w : BatchRow) : Prop where
  same : w = { v with row := w.row, tokStart := w.tokStart }
  tokens : ∀ l, ∀ i < v.qlen, index' l (w.tokStart + i) = index l (v.tokStart + i)

/-- Two batches hold the same rows in the same order. -/
abbrev SameRows (index index' : ι → Nat → κ) (rows rows' : List BatchRow) : Prop :=
  List.Forall₂ (SameRow index index') rows rows'

section
variable {index index' : ι → Nat → κ} {rows rows' : List BatchRow} (h : SameRows index index' rows rows')
include h

/-- What does not look at the place of a row is the same for both batches. -/
theorem SameRows.flatMap_eq {β : Type} {f : BatchRow → List β}
    (hf : ∀ (v : BatchRow) row tokStart, f { v with row := row, tokStart := tokStart } = f v) :
    rows'.flatMap f = rows.flatMap f := by
  induction h with
  | nil => rfl
  | @cons v w _ _ hvw _ ih =>
    rw [List.flatMap_cons, List.flatMap_cons, ih, hvw.same, hf]

theorem SameRows.claims_eq : claims g rows' = claims g rows := by
  unfold claims
  rw [h.flatMap_eq (f := (·.headSlots g)) fun _ _ _ => rfl, h.flatMap_eq (f := (·.generalClaims g)) fun _ _ _ => rfl]

theorem SameRows.exclusive (hex : ExclusiveRows g rows) : ExclusiveRows g rows' := by
  unfold ExclusiveRows
  rw [h.flatMap_eq (f := (·.regionSlots g)) fun _ _ _ => rfl]
  exact hex

end

/-! ## A general batch of given rows -/

/-- The general batch that holds `rows` and nothing else, their tokens one after the other. -/
def compactBatch (numPages : Nat) (rows : List BatchRow) : Step4DSAMetadata where
  numDecodes := rows.length
  numPrefills := 0
  numDecodeTokens := (rows.map (·.qlen)).sum
  queryStartLoc i := ((rows.take i).map (·.qlen)).sum
  seqLens i := (rows[i]?.map (·.seqLen)).getD 0
  blockTable i := (rows[i]?.map (·.pages)).getD fun _ => 0
  numPages := numPages

def rowTokens (rows : List BatchRow) : List Nat := rows.flatMap fun v => (List.range v.qlen).map (v.tokStart + ·)

def compactIndex (rows : List BatchRow) (index : ι → Nat → κ) (l : ι) (t : Nat) : κ := index l ((rowTokens rows).getD t 0)

theorem rowTokens_getD {rows : List BatchRow} {n : Nat} {v : BatchRow} (hv : rows[n]? = some v) {i : Nat} (hi : i < v.qlen) :
    (rowTokens rows).getD (((rows.take n).map (·.qlen)).sum + i) 0 = v.tokStart + i := by
  induction rows generalizing n with
  | nil => cases hv
  | cons w rows ih =>
    have hcons : rowTokens (w :: rows) = (List.range w.qlen).map (w.tokStart + ·) ++ rowTokens rows := List.flatMap_cons
    have hlen : ((List.range w.qlen).map (w.tokStart + ·)).length = w.qlen := by
      rw [List.length_map, List.length_range]
    rw [hcons]
    cases n with
    | zero =>
      cases hv
      rw [List.take_zero, List.map_nil, List.sum_nil, Nat.zero_add, List.getD_eq_getElem?_getD,
        List.getElem?_append_left (hlen.symm ▸ hi)]
      simp [hi]
    | succ n =>
      rw [List.take_succ_cons, List.map_cons, List.sum_cons, List.getD_eq_getElem?_getD,
        List.getElem?_append_right (by rw [hlen]; omega), hlen]
      have hsub : w.qlen + ((rows.take n).map (·.qlen)).sum + i - w.qlen = ((rows.take n).map (·.qlen)).sum + i := by omega
      rw [hsub, ← List.getD_eq_getElem?_getD]
      exact ih hv

/-- Any rows that hold tokens make up a general batch. -/
theorem compactBatch_sameRows (numPages : Nat) (index : ι → Nat → κ) {rows : List BatchRow} (hq : ∀ v ∈ rows, v.qlen ≠ 0) :
    SameRows index (compactIndex rows index) rows (compactBatch numPages rows).activeRows := by
  have hrow : ∀ (n : Nat) (v : BatchRow), rows[n]? = some v → (compactBatch numPages rows).generalRow n =
      { v with row := n, tokStart := ((rows.take n).map (·.qlen)).sum } := by
    intro n v hv
    have hsum : ((rows.take (n + 1)).map (·.qlen)).sum = ((rows.take n).map (·.qlen)).sum + v.qlen := by
      rw [List.take_add_one, hv, Option.toList_some, List.map_append, List.sum_append, List.map_singleton, List.sum_singleton]
    have hlen : ((rows.take (n + 1)).map (·.qlen)).sum - ((rows.take n).map (·.qlen)).sum = v.qlen := by
      rw [hsum, Nat.add_sub_cancel_left]
    unfold Step4DSAMetadata.generalRow compactBatch Step4DSAMetadata.hostTable
    simp only [hv, hlen, Option.map_some, Option.getD_some, Option.getD_none]
  have hactive : (compactBatch numPages rows).activeRows =
      (List.range rows.length).map (compactBatch numPages rows).generalRow := by
    unfold Step4DSAMetadata.activeRows
    apply List.filter_eq_self.mpr
    intro w hw
    obtain ⟨n, hn, rfl⟩ := List.mem_map.mp hw
    have hn : n < rows.length := List.mem_range.mp hn
    rw [hrow n rows[n] (List.getElem?_eq_getElem hn)]
    exact decide_eq_true (hq rows[n] (List.getElem_mem hn))
  rw [hactive]
  apply List.forall₂_iff_get.mpr
  refine ⟨by rw [List.length_map, List.length_range], fun n hn hn' => ?_⟩
  have hv : rows[n]? = some (rows.get ⟨n, hn⟩) := List.getElem?_eq_getElem hn
  have hget : ((List.range rows.length).map (compactBatch numPages rows).generalRow).get ⟨n, hn'⟩ =
      (compactBatch numPages rows).generalRow n := by simp
  rw [hget, hrow n _ hv]
  exact ⟨rfl, fun l i hi => congrArg (index l) (rowTokens_getD hv hi)⟩

/-! ## One effect on two batches of the same rows -/

section
variable {index index' : ι → Nat → κ} {rows rows' : List BatchRow} {compress : List κ → σ}

theorem SameRow.token {v w : BatchRow} (h : SameRow index index' v w) (t : Step4PendingTable) (pending : Nat × Nat → κ)
    (l : ι) {m : Nat} (hm : m < v.nbuf g) :
    w.token g t pending (index' l) m = v.token g t pending (index l) m := by
  have hhead : w.head g = v.head g := by
    rw [h.same]
    rfl
  have hslot : w.slot g 0 = v.slot g 0 := by
    rw [h.same]
    rfl
  unfold BatchRow.token
  rw [hhead, hslot]
  by_cases hlt : m < v.head g
  · rw [if_pos hlt, if_pos hlt]
  · rw [if_neg hlt, if_neg hlt]
    apply h.tokens
    unfold BatchRow.nbuf at hm
    omega

variable {t : Step4PendingTable} {T T' : LayerTensors κ σ}

theorem SameRows.updated (h : SameRows index index' rows rows') (l : ι)
    (hu : Updated compress g rows' t (index' l) T T') : Updated compress g rows t (index l) T T' where
  stored p hp := by
    cases hp with
    | @closed v j hv hj =>
      obtain ⟨w, hw, hvw⟩ := forall₂_mem_left h hv
      have hslot : w.slot g j = v.slot g j := by
        rw [hvw.same]
        rfl
      have hj' : j < w.nbuf g / g.regionSize := by
        rw [hvw.same]
        exact hj
      have hstored := hu.stored _ (.closed hw hj')
      have htokens : regionTokens g (fun m => w.token g t T.pending (index' l) m) j =
          regionTokens g (fun m => v.token g t T.pending (index l) m) j := by
        unfold regionTokens
        apply List.map_congr_left
        intro i hi
        exact hvw.token t T.pending l (full_lt_nbuf hj (List.mem_range.mp hi))
      rw [hslot] at hstored
      exact hstored.trans (congrArg compress htokens)
  summary_other s hs := by
    apply hu.summary_other s
    intro w hw j hj
    obtain ⟨v, hv, hvw⟩ := forall₂_mem_right h hw
    rw [hvw.same] at hj ⊢
    exact hs v hv j hj
  written p hp := by
    cases hp with
    | @keep v j i hv hk hj hi =>
      obtain ⟨w, hw, hvw⟩ := forall₂_mem_left h hv
      have hk' : w.Keeps g := by
        rw [hvw.same]
        exact hk
      have hj' : j < w.nbuf g / g.regionSize := by
        rw [hvw.same]
        exact hj
      have hslot : w.slot g j = v.slot g j := by
        rw [hvw.same]
        rfl
      have hwritten := hu.written _ (.keep hw hk' hj' hi)
      rw [hslot] at hwritten
      exact hwritten.trans (hvw.token t T.pending l (full_lt_nbuf hj hi))
    | @tail v i hv hi =>
      obtain ⟨w, hw, hvw⟩ := forall₂_mem_left h hv
      have hi' : i < w.tail g := by
        rw [hvw.same]
        exact hi
      have hslot : w.lastSlot g = v.lastSlot g := by
        rw [hvw.same]
        rfl
      have hbuf : w.nbuf g = v.nbuf g := by
        rw [hvw.same]
        rfl
      have hwritten := hu.written _ (.tail hw hi')
      rw [hslot, hbuf] at hwritten
      exact hwritten.trans (hvw.token t T.pending l (tail_lt_nbuf hi))
  pending_other row i htrash hkeep htail := by
    apply hu.pending_other row i htrash
    · intro w hw hk j hj
      obtain ⟨v, hv, hvw⟩ := forall₂_mem_right h hw
      rw [hvw.same] at hk hj ⊢
      exact hkeep v hv hk j hj
    · intro w hw hi
      obtain ⟨v, hv, hvw⟩ := forall₂_mem_right h hw
      rw [hvw.same] at hi ⊢
      exact htail v hv hi

theorem SameRows.outcome (h : SameRows index index' rows rows') {s s' : Step4DSAState ι κ σ}
    (ho : Outcome compress (g := g) rows' index' s s') : Outcome compress (g := g) rows index s s' where
  table := h.claims_eq (g := g) ▸ ho.table
  heads v hv x hx := by
    obtain ⟨w, hw, hvw⟩ := forall₂_mem_left h hv
    apply ho.heads w hw x
    rw [hvw.same]
    exact hx
  completed := ho.completed.trans (h.flatMap_eq (f := (·.completed g)) fun _ _ _ => rfl)
  updated l := h.updated l (ho.updated l)

end

/-! ## Two outcomes of one batch -/

/-- The tokens a step leaves in the pending row of a region: those of a kept region, those of the last one, and
all of a region the batch does not touch. -/
inductive Leads (g : Step4DSAGeometry) (rows : List BatchRow) : Nat → Nat → Prop
  | keep {v : BatchRow} {j i : Nat} (hv : v ∈ rows) (hk : v.Keeps g) (hj : j < v.nbuf g / g.regionSize)
    (hi : i < g.regionSize) : Leads g rows (v.slot g j) i
  | tail {v : BatchRow} {i : Nat} (hv : v ∈ rows) (hi : i < v.tail g) : Leads g rows (v.lastSlot g) i
  | other {slot i : Nat} (h : slot ∉ claims g rows) : Leads g rows slot i

/-- The states after two steps from `s`: the same but for the numbers of the pending rows, and touched only by
the rows of the batch. -/
structure SameEffect (g : Step4DSAGeometry) (rows : List BatchRow) (s s₁ s₂ : Step4DSAState ι κ σ) : Prop where
  completed : s₁.completedSlots = s₂.completedSlots
  summary : ∀ l, (s₁.tensors l).summary = (s₂.tensors l).summary
  renamed : ∃ ρ : Nat → Nat, (∀ slot, s₂.pending.rowOfSlot slot = (s₁.pending.rowOfSlot slot).map ρ) ∧
    Set.InjOn ρ {row | ∃ slot, s₁.pending.rowOfSlot slot = some row} ∧
    ∀ l slot row i, s₁.pending.rowOfSlot slot = some row → Leads g rows slot i →
      (s₁.tensors l).pending (row, i) = (s₂.tensors l).pending (ρ row, i)
  summary_other : ∀ l slot, (∀ v ∈ rows, ∀ j < v.nbuf g / g.regionSize, slot ≠ v.slot g j) →
    (s₁.tensors l).summary slot = (s.tensors l).summary slot
  pending_other : ∀ l row i, row ≠ s.pending.capacity →
    (∀ v ∈ rows, v.Keeps g → ∀ j < v.nbuf g / g.regionSize, row ≠ s₁.pending.rowOf (v.slot g j)) →
    (∀ v ∈ rows, i < v.tail g → row ≠ s₁.pending.rowOf (v.lastSlot g)) →
    (s₁.tensors l).pending (row, i) = (s.tensors l).pending (row, i)

section
variable {index : ι → Nat → κ} {rows : List BatchRow} {compress : List κ → σ} {s s₁ s₂ : Step4DSAState ι κ σ}

/-- Both outcomes read the same tokens: the heads keep their rows. -/
theorem outcome_token (hq : ∀ v ∈ rows, v.qlen ≠ 0) (h₁ : Outcome compress (g := g) rows index s s₁)
    (h₂ : Outcome compress (g := g) rows index s s₂) {v : BatchRow} (hv : v ∈ rows) (l : ι) (m : Nat) :
    v.token g s₁.pending (s.tensors l).pending (index l) m = v.token g s₂.pending (s.tensors l).pending (index l) m := by
  unfold BatchRow.token
  by_cases hm : m < v.head g
  · have hmem : v.slot g 0 ∈ v.headSlots g := BatchRow.mem_headSlots.mpr ⟨⟨hq v hv, by omega⟩, rfl⟩
    obtain ⟨r₁, hb₁, hr₁⟩ := h₁.heads v hv _ hmem
    obtain ⟨r₂, hb₂, hr₂⟩ := h₂.heads v hv _ hmem
    rw [hb₁] at hb₂
    cases hb₂
    rw [if_pos hm, if_pos hm, rowOf_eq hr₁, rowOf_eq hr₂]
  · rw [if_neg hm, if_neg hm]

theorem outcome_summary (hq : ∀ v ∈ rows, v.qlen ≠ 0) (h₁ : Outcome compress (g := g) rows index s s₁)
    (h₂ : Outcome compress (g := g) rows index s s₂) (l : ι) : (s₁.tensors l).summary = (s₂.tensors l).summary := by
  funext slot
  by_cases hs : ∃ v ∈ rows, ∃ j < v.nbuf g / g.regionSize, slot = v.slot g j
  · obtain ⟨v, hv, j, hj, rfl⟩ := hs
    have hw₁ := (h₁.updated l).stored _ (.closed hv hj)
    have hw₂ := (h₂.updated l).stored _ (.closed hv hj)
    have htok : v.token g s₁.pending (s.tensors l).pending (index l) = v.token g s₂.pending (s.tensors l).pending (index l) :=
      funext (outcome_token hq h₁ h₂ hv l)
    rw [hw₁, hw₂, htok]
  · have hnot : ∀ v ∈ rows, ∀ j < v.nbuf g / g.regionSize, slot ≠ v.slot g j := fun v hv j hj he => hs ⟨v, hv, j, hj, he⟩
    rw [(h₁.updated l).summary_other slot hnot, (h₂.updated l).summary_other slot hnot]

theorem outcome_pending (hq : ∀ v ∈ rows, v.qlen ≠ 0) (h₁ : Outcome compress (g := g) rows index s s₁)
    (h₂ : Outcome compress (g := g) rows index s s₂) (l : ι) {slot row₁ row₂ i : Nat}
    (hr₁ : s₁.pending.rowOfSlot slot = some row₁) (hr₂ : s₂.pending.rowOfSlot slot = some row₂)
    (hl : Leads g rows slot i) : (s₁.tensors l).pending (row₁, i) = (s₂.tensors l).pending (row₂, i) := by
  cases hl with
  | @keep v j i hv hk hj hi =>
    have hw₁ := (h₁.updated l).written _ (.keep hv hk hj hi)
    have hw₂ := (h₂.updated l).written _ (.keep hv hk hj hi)
    rw [rowOf_eq hr₁] at hw₁
    rw [rowOf_eq hr₂] at hw₂
    exact hw₁.trans ((outcome_token hq h₁ h₂ hv l _).trans hw₂.symm)
  | @tail v i hv hi =>
    have hw₁ := (h₁.updated l).written _ (.tail hv hi)
    have hw₂ := (h₂.updated l).written _ (.tail hv hi)
    rw [rowOf_eq hr₁] at hw₁
    rw [rowOf_eq hr₂] at hw₂
    exact hw₁.trans ((outcome_token hq h₁ h₂ hv l _).trans hw₂.symm)
  | other hmem =>
    have hkept : ∀ {s' : Step4DSAState ι κ σ} {row : Nat}, Outcome compress (g := g) rows index s s' →
        s'.pending.rowOfSlot slot = some row → (s'.tensors l).pending (row, i) = (s.tensors l).pending (row, i) := by
      intro s' row ho hr
      have hne : ∀ x ∈ claims g rows, row ≠ s'.pending.rowOf x := by
        intro x hx he
        obtain ⟨r, hx'⟩ := ho.table.mapped x hx
        rw [rowOf_eq hx'] at he
        subst he
        exact hmem (ho.table.wf.slot_inj hr hx' ▸ hx)
      apply (ho.updated l).pending_other row i (Nat.ne_of_lt (ho.table.wf.row_lt hr))
      · intro v hv hk j hj
        exact hne _ (kept_mem_claims hq hv hk hj)
      · intro v hv hi
        exact hne _ (last_mem_claims hq hv (by omega))
    have hrow : row₁ = row₂ := by
      have hb₁ := (h₁.table.others slot hmem row₁ hr₁).1
      have hb₂ := (h₂.table.others slot hmem row₂ hr₂).1
      rw [hb₁] at hb₂
      exact Option.some.inj hb₂
    subst hrow
    exact (hkept h₁ hr₁).trans (hkept h₂ hr₂).symm

theorem sameEffect_of_outcomes (hq : ∀ v ∈ rows, v.qlen ≠ 0) (h₁ : Outcome compress (g := g) rows index s s₁)
    (h₂ : Outcome compress (g := g) rows index s s₂) : SameEffect g rows s s₁ s₂ where
  completed := h₁.completed.trans h₂.completed.symm
  summary := outcome_summary hq h₁ h₂
  renamed := by
    have hmaps : ∀ slot, s₂.pending.rowOfSlot slot =
        (s₁.pending.rowOfSlot slot).map fun row => s₂.pending.rowOf ((s₁.pending.slotOfRow row).getD 0) := by
      intro slot
      cases hs : s₁.pending.rowOfSlot slot with
      | none => exact h₁.table.unmapped_of_unmapped h₂.table hs
      | some row =>
        obtain ⟨row', hr', -⟩ := h₁.table.agree h₂.table hs
        rw [Option.map_some, h₁.table.wf.slotOfRow_eq hs, Option.getD_some, rowOf_eq hr', hr']
    refine ⟨_, hmaps, ?_, fun l slot row i hr hl => ?_⟩
    · rintro row ⟨slot, hr⟩ row' ⟨slot', hr'⟩ he
      change s₂.pending.rowOf ((s₁.pending.slotOfRow row).getD 0) = s₂.pending.rowOf ((s₁.pending.slotOfRow row').getD 0) at he
      have h := hmaps slot
      have h' := hmaps slot'
      rw [hr, Option.map_some] at h
      rw [hr', Option.map_some, ← he] at h'
      rw [h₂.table.wf.slot_inj h h'] at hr
      rw [hr] at hr'
      exact Option.some.inj hr'
    · have h := hmaps slot
      rw [hr, Option.map_some] at h
      exact outcome_pending hq h₁ h₂ l hr h hl
  summary_other l slot hs := (h₁.updated l).summary_other slot hs
  pending_other l row i htrash hkeep htail := by
    apply (h₁.updated l).pending_other row i ?_ hkeep htail
    rw [h₁.table.capacity, stepTable_capacity]
    exact htrash

end

/-! ## The two fast schedules -/

inductive FastSchedule
  | decode
  | spec

section
variable (g) (zero : κ) (compress : List κ → σ) (fused : Bool)

/-- The step a batch without prefill rows takes. -/
def FastSchedule.step (md : Step4DSAMetadata) (index : ι → Nat → κ) (s : Step4DSAState ι κ σ) :
    FastSchedule → Except String (Step4DSASchedule × Step4DSAState ι κ σ)
  | .decode => decodeStep g zero compress fused md index s
  | .spec => specStep g zero compress fused md index s

/-- The rows that are not padding. -/
def FastSchedule.rows (md : Step4DSAMetadata) : FastSchedule → List BatchRow
  | .decode => md.decodeRows g
  | .spec => md.aliveRows g

/-- The host mirror agrees with the device table; a verify batch is one. -/
def FastSchedule.Valid (md : Step4DSAMetadata) : FastSchedule → Prop
  | .decode => md.Mirrors
  | .spec => md.VerifyBatch g

end

section
variable {md md' : Step4DSAMetadata} {index index' : ι → Nat → κ} {s s₁ s₂ : Step4DSAState ι κ σ} {zero : κ}
  {compress : List κ → σ} {fused : Bool} {sched sched' : Step4DSASchedule} {path : FastSchedule}

theorem FastSchedule.qlen {v : BatchRow} (hv : v ∈ path.rows g md) : v.qlen ≠ 0 := by
  cases path with
  | decode =>
    rw [decodeRows_qlen md hv]
    exact Nat.one_ne_zero
  | spec => exact aliveRows_qlen md hv

theorem FastSchedule.outcome (hwf : s.pending.Wf) (hvalid : path.Valid g md) (hex : ExclusiveRows g (path.rows g md))
    (h : path.step g zero compress fused md index s = .ok (sched, s₁)) :
    Outcome compress (g := g) (path.rows g md) index s s₁ := by
  cases path with
  | decode => exact decode_outcome compress hwf hvalid hex h
  | spec => exact spec_outcome compress hwf hvalid hex h

theorem FastSchedule.visible (hwf : s.pending.Wf) (hvalid : path.Valid g md)
    (h : path.step g zero compress fused md index s = .ok (sched, s₁)) {v : BatchRow} (hv : v ∈ path.rows g md) {i : Nat}
    (hi : i < v.qlen) : sched.visible g v.row i = (v.past + i) / g.regionSize := by
  cases path with
  | decode => exact decode_visible compress hwf hvalid h hv hi
  | spec => exact spec_visible compress hwf hvalid h hv hi

theorem map_eq_error {ε α β : Type} {x : Except ε α} {f : α → β} {e : ε} : x.map f = .error e ↔ x = .error e := by
  cases x with
  | error e' => exact ⟨fun h => congrArg _ (Except.error.inj h), fun h => congrArg _ (Except.error.inj h)⟩
  | ok a => exact ⟨nofun, nofun⟩

theorem general_error (hwf : s.pending.Wf) {e : String} : generalStep g zero compress fused md' index' s = .error e ↔
    claimRows (stepTable g s.completedSlots s.pending) (md'.activeRows.flatMap (·.headSlots g))
      (md'.activeRows.flatMap (·.generalClaims g)) = .error e := by
  unfold generalStep
  rw [map_eq_error, generalClaim_eq hwf, map_eq_error]

theorem FastSchedule.error (hwf : s.pending.Wf) (hvalid : path.Valid g md) {e : String} :
    path.step g zero compress fused md index s = .error e ↔
      claimRows (stepTable g s.completedSlots s.pending) ((path.rows g md).flatMap (·.headSlots g))
        ((path.rows g md).flatMap (·.generalClaims g)) = .error e := by
  cases path with
  | decode =>
    change decodeStep g zero compress fused md index s = .error e ↔ _
    unfold decodeStep
    rw [map_eq_error, decodeSchedule_eq md s.completedSlots hwf, map_eq_error]
    rfl
  | spec =>
    change specStep g zero compress fused md index s = .error e ↔ _
    unfold specStep
    rw [map_eq_error, specDecodeSchedule_eq md s.completedSlots hwf (longest_le hvalid), map_eq_error]
    have hq : ∀ v ∈ md.aliveRows g, v.qlen ≠ 0 := fun v hv => aliveRows_qlen md hv
    have hset := (claims_eq (g := g) (md.aliveRows g)).symm.trans (claims_spec hq)
    have hstep := stepTable_wf (g := g) hwf s.completedSlots
    have hfresh : (stepTable g s.completedSlots s.pending).Fresh := beginStep_fresh (endStep_wf hwf s.completedSlots)
    exact ⟨claimRows_error hstep hfresh hset.symm, claimRows_error hstep hfresh hset⟩

/-- The fast step beside the general step on the same rows without the padding: one raises exactly if the other does,
with the same message, and otherwise they have the same effect up to a renaming of the pending rows. -/
theorem fast_refines_general (hwf : s.pending.Wf) (hvalid : path.Valid g md) (hex : ExclusiveRows g (path.rows g md))
    (hsame : SameRows index index' (path.rows g md) md'.activeRows) :
    (∀ e, path.step g zero compress fused md index s = .error e ↔
      generalStep g zero compress fused md' index' s = .error e) ∧
    ∀ sched s₁ sched' s₂, path.step g zero compress fused md index s = .ok (sched, s₁) →
      generalStep g zero compress fused md' index' s = .ok (sched', s₂) →
        SameEffect g (path.rows g md) s s₁ s₂ ∧
          ∀ v ∈ path.rows g md, ∀ w ∈ md'.activeRows, SameRow index index' v w → ∀ i < v.qlen,
            sched.visible g v.row i = sched'.visible g w.row i := by
  constructor
  · intro e
    rw [FastSchedule.error hwf hvalid, general_error hwf, hsame.flatMap_eq (f := (·.headSlots g)) fun _ _ _ => rfl,
      hsame.flatMap_eq (f := (·.generalClaims g)) fun _ _ _ => rfl]
  · intro sched s₁ sched' s₂ h₁ h₂
    have hgeneral := hsame.outcome (general_outcome compress hwf (hsame.exclusive hex) h₂)
    refine ⟨sameEffect_of_outcomes (fun v hv => FastSchedule.qlen hv) (FastSchedule.outcome hwf hvalid hex h₁) hgeneral,
      fun v hv w hw hvw i hi => ?_⟩
    have hlen : w.qlen = v.qlen := by
      rw [hvw.same]
    have hpast : w.past = v.past := by
      rw [hvw.same]
      rfl
    rw [FastSchedule.visible hwf hvalid h₁ hv hi, general_visible compress hwf h₂ hw (hlen ▸ hi), hpast]

/-- Two requests and a padding row between them; the first goes on with the region that it has begun. -/
theorem fast_refines_general_padded :
    let g : Step4DSAGeometry := ⟨2, 4, 1, by decide, by decide⟩
    let md : Step4DSAMetadata :=
      ⟨3, 0, 3, fun i => i, fun r => if r = 0 then 6 else if r = 1 then 0 else 5, fun r _ => if r = 1 then 0 else r + 1, none, 1⟩
    let md' : Step4DSAMetadata := ⟨2, 0, 2, fun i => i, fun r => if r = 0 then 6 else 5, fun r _ => 2 * r + 1, none, 1⟩
    let s : Step4DSAState Unit Nat (List Nat) := ⟨.single 8 6 3, [], fun _ => ⟨fun _ => 0, fun _ => []⟩⟩
    let index : Unit → Nat → Nat := fun _ t => 10 * t
    let index' : Unit → Nat → Nat := fun _ t => 20 * t
    (FastSchedule.decode.rows g md).flatMap (·.headSlots g) = [6] ∧
    (∀ e, FastSchedule.decode.step g 0 id false md index s = .error e ↔ generalStep g 0 id false md' index' s = .error e) ∧
    ∀ sched s₁ sched' s₂, FastSchedule.decode.step g 0 id false md index s = .ok (sched, s₁) →
      generalStep g 0 id false md' index' s = .ok (sched', s₂) →
        SameEffect g (FastSchedule.decode.rows g md) s s₁ s₂ ∧
          ∀ v ∈ FastSchedule.decode.rows g md, ∀ w ∈ md'.activeRows, SameRow index index' v w → ∀ i < v.qlen,
            sched.visible g v.row i = sched'.visible g w.row i := by
  intro g md md' s index index'
  have hrow : ∀ r tok : Nat, tok = 2 * r → ∀ l : Unit, ∀ i < 1, index' l (r + i) = index l (tok + i) := by
    intro r tok ht l i hi
    change 20 * (r + i) = 10 * (tok + i)
    omega
  exact ⟨by decide, fast_refines_general (Step4PendingTable.single_wf (by decide)) (fun i _ _ => rfl) (by decide)
    (.cons ⟨rfl, hrow 0 0 rfl⟩ (.cons ⟨rfl, hrow 1 2 rfl⟩ .nil))⟩

end

end

end VllmHcu.Step4
