import Mathlib.Tactic.Common
import VllmHcu.Step4.Pending

/-!
# What a step does to the pending table

Within one step every region is claimed at most through `get` and `acquire`.
`TouchedFrom b D t` says all there is to say about the table `t` after the
regions `D` were claimed in some order from `b`: it does not mention the order,
and it determines `t` up to the rows the claimed regions were given.
-/

namespace VllmHcu.Step4

namespace Step4PendingTable

variable {t t' b : Step4PendingTable} {slot slot' row row' : Nat}

/-! ## The scan for a row -/

theorem scanRows_none : ∀ {rows : List Nat} {oldestRow : Option Nat} {oldestStep : Int},
    t.scanRows rows oldestRow oldestStep = none →
    oldestRow = none ∧ ∀ r ∈ rows, t.slotOfRow r ≠ none ∧ oldestStep ≤ t.age r
  | [], _, _, h => ⟨h, by simp⟩
  | a :: rows, oldestRow, oldestStep, h => by
    unfold scanRows at h
    split at h
    · cases h
    · rename_i s hs
      split at h
      · exact absurd (scanRows_none h).1 (by simp)
      · rename_i hage
        obtain ⟨hnone, hrest⟩ := scanRows_none h
        refine ⟨hnone, ?_⟩
        intro r hr
        rcases List.mem_cons.mp hr with he | hr
        · subst he
          exact ⟨by simp [hs], by omega⟩
        · exact hrest r hr

/-- The scan returns a free row if it meets one, and the first of the oldest rows otherwise. -/
theorem scanRows_some : ∀ {rows : List Nat} {oldestRow : Option Nat} {oldestStep : Int},
    rows.Pairwise (· < ·) → t.scanRows rows oldestRow oldestStep = some row →
    (row ∈ rows ∧ t.slotOfRow row = none) ∨
    ((∀ r ∈ rows, t.slotOfRow r ≠ none) ∧
      ((oldestRow = some row ∧ ∀ r ∈ rows, oldestStep ≤ t.age r) ∨
        (row ∈ rows ∧ t.age row < oldestStep ∧ ∀ r ∈ rows, r = row ∨ t.Older row r)))
  | [], _, _, _, h => .inr ⟨by simp, .inl ⟨h, by simp⟩⟩
  | a :: rows, oldestRow, oldestStep, hp, h => by
    obtain ⟨ha, hp⟩ := List.pairwise_cons.mp hp
    unfold scanRows at h
    split at h
    · rename_i hfree
      cases h
      exact .inl ⟨List.mem_cons_self .., hfree⟩
    · rename_i s hs
      have hmapped : (∀ r ∈ rows, t.slotOfRow r ≠ none) → ∀ r ∈ a :: rows, t.slotOfRow r ≠ none := by
        intro hall r hr
        rcases List.mem_cons.mp hr with he | hr
        · subst he
          simp [hs]
        · exact hall r hr
      split at h
      · rename_i hage
        rcases scanRows_some hp h with ⟨hmem, hfree⟩ | ⟨hall, ⟨he, hmin⟩ | ⟨hmem, hlt, hmin⟩⟩
        · exact .inl ⟨List.mem_cons_of_mem _ hmem, hfree⟩
        · cases he
          refine .inr ⟨hmapped hall, .inr ⟨List.mem_cons_self .., hage, ?_⟩⟩
          intro r hr
          rcases List.mem_cons.mp hr with he | hr
          · exact .inl he
          · have := hmin r hr
            have := ha r hr
            right
            unfold Older
            omega
        · refine .inr ⟨hmapped hall, .inr ⟨List.mem_cons_of_mem _ hmem, by omega, ?_⟩⟩
          intro r hr
          rcases List.mem_cons.mp hr with he | hr
          · subst he
            exact .inr (.inl hlt)
          · exact hmin r hr
      · rename_i hage
        rcases scanRows_some hp h with ⟨hmem, hfree⟩ | ⟨hall, ⟨he, hmin⟩ | ⟨hmem, hlt, hmin⟩⟩
        · exact .inl ⟨List.mem_cons_of_mem _ hmem, hfree⟩
        · refine .inr ⟨hmapped hall, .inl ⟨he, ?_⟩⟩
          intro r hr
          rcases List.mem_cons.mp hr with he | hr
          · subst he
            omega
          · exact hmin r hr
        · refine .inr ⟨hmapped hall, .inr ⟨List.mem_cons_of_mem _ hmem, hlt, ?_⟩⟩
          intro r hr
          rcases List.mem_cons.mp hr with he | hr
          · subst he
            right
            left
            omega
          · exact hmin r hr

/-! ## The cases of `acquire` -/

/-- Everything `acquire` can do to an unmapped slot. -/
inductive Claim (t : Step4PendingTable) (slot : Nat) : Nat → Step4PendingTable → Prop
  | free {row : Nat} (hlt : row < t.capacity) (hfree : t.slotOfRow row = none) :
    Claim t slot row { t with
      rowOfSlot := Function.update t.rowOfSlot slot (some row)
      slotOfRow := Function.update t.slotOfRow row (some slot)
      touched := Function.update t.touched row t.step }
  | recycled {row old : Nat} (hlt : row < t.capacity) (hold : t.slotOfRow row = some old)
    (hfull : ∀ r < t.capacity, t.slotOfRow r ≠ none) (hage : t.age row < t.step)
    (hoff : ∀ r < t.capacity, r = row ∨ t.Older row r) :
    Claim t slot row { t with
      rowOfSlot := Function.update (Function.update t.rowOfSlot old none) slot (some row)
      slotOfRow := Function.update (Function.update t.slotOfRow row none) row (some slot)
      touched := Function.update t.touched row t.step }

theorem acquire_mapped (h : t.rowOfSlot slot = some row) : t.acquire slot = .ok (row, t.touch row) := by
  simp [acquire, h]

theorem acquire_ok (hm : t.rowOfSlot slot = none) (h : t.acquire slot = .ok (row, t')) :
    Claim t slot row t' := by
  simp only [acquire, hm] at h
  obtain ⟨⟨r, u⟩, hfree, hu⟩ := bind_eq_ok.mp h
  cases hu
  unfold freeRow at hfree
  split at hfree
  · cases hfree
  · rename_i r' hscan
    rcases scanRows_some List.pairwise_lt_range hscan with ⟨hmem, hnone⟩ | ⟨hall, ⟨he, _⟩ | ⟨hmem, hlt, hmin⟩⟩
    · simp only [hnone] at hfree
      cases hfree
      exact .free (List.mem_range.mp hmem) hnone
    · cases he
    · obtain ⟨old, hold⟩ := Option.ne_none_iff_exists'.mp (hall r' hmem)
      simp only [hold] at hfree
      cases hfree
      exact .recycled (List.mem_range.mp hmem) hold (fun r hr => hall r (List.mem_range.mpr hr)) hlt
        fun r hr => hmin r (List.mem_range.mpr hr)

theorem acquire_error {e : String} (h : t.acquire slot = .error e) :
    e = allInUse t.capacity ∧ t.rowOfSlot slot = none ∧
      ∀ r < t.capacity, t.slotOfRow r ≠ none ∧ (t.step : Int) ≤ t.age r := by
  unfold acquire at h
  split at h
  · cases h
  · rename_i hm
    unfold freeRow at h
    split at h
    · rename_i hscan
      cases h
      exact ⟨rfl, hm, fun r hr => (scanRows_none hscan).2 r (List.mem_range.mpr hr)⟩
    · split at h <;> cases h

theorem get_ok (h : t.get slot = .ok (row, t')) : t.rowOfSlot slot = some row ∧ t' = t.touch row := by
  unfold get at h
  split at h
  · cases h
  · rename_i r hr
    cases h
    exact ⟨hr, rfl⟩

/-! ## Claimed regions -/

/-- The table `t` is reached from `b` by claiming exactly the regions `D` in the current step. -/
structure TouchedFrom (b : Step4PendingTable) (D : Finset Nat) (t : Step4PendingTable) : Prop where
  wf : t.Wf
  capacity : t.capacity = b.capacity
  step : t.step = b.step
  claimed : ∀ s ∈ D, ∃ row, t.rowOfSlot s = some row ∧ t.touched row = b.step
  others : ∀ s ∉ D, ∀ row, t.rowOfSlot s = some row → b.rowOfSlot s = some row ∧ t.touched row = b.touched row
  -- a lost region had to make room in a full table, and was older than every region still there
  lost : ∀ s ∉ D, ∀ row, b.rowOfSlot s = some row → t.rowOfSlot s = none →
    (∀ r < t.capacity, t.slotOfRow r ≠ none) ∧
      ∀ s' ∉ D, ∀ row', t.rowOfSlot s' = some row' → b.Older row row'

theorem TouchedFrom.refl (h : b.Wf) : TouchedFrom b ∅ b where
  wf := h
  capacity := rfl
  step := rfl
  claimed := by simp
  others _ _ row hs := ⟨hs, rfl⟩
  lost s _ row hs hn := by
    rw [hs] at hn
    cases hn

theorem age_congr (hstep : t.step = b.step) (h : t.touched row = b.touched row) : t.age row = b.age row := by
  rw [age_eq, age_eq, hstep, h]

theorem age_of_touched_now (h : t.touched row = t.step) : t.age row = t.step := by
  rw [age_eq, h, if_neg (by omega)]

namespace TouchedFrom

variable {D : Finset Nat}

theorem touch_mapped (h : TouchedFrom b D t) (hs : t.rowOfSlot slot = some row) :
    TouchedFrom b (insert slot D) (t.touch row) := by
  have hne : ∀ s r, s ≠ slot → t.rowOfSlot s = some r → r ≠ row := by
    intro s r hsne hr he
    subst he
    exact hsne (h.wf.slot_inj hr hs)
  constructor
  · refine ⟨h.wf.inverse, ?_⟩
    intro s r hr
    have := h.wf.stamped s r hr
    simp only [touch, Function.update_apply]
    split
    · omega
    · exact this
  · exact h.capacity
  · exact h.step
  · intro s hmem
    by_cases hsl : s = slot
    · subst hsl
      exact ⟨row, hs, by simp [touch, h.step]⟩
    · obtain ⟨r, hr, htouched⟩ := h.claimed s (Finset.mem_of_mem_insert_of_ne hmem hsl)
      refine ⟨r, hr, ?_⟩
      simp only [touch, Function.update_of_ne (hne s r hsl hr)]
      exact htouched
  · intro s hmem r hr
    rw [Finset.mem_insert, not_or] at hmem
    obtain ⟨hb, htouched⟩ := h.others s hmem.2 r hr
    refine ⟨hb, ?_⟩
    simp only [touch, Function.update_of_ne (hne s r hmem.1 hr)]
    exact htouched
  · intro s hmem r hb hn
    rw [Finset.mem_insert, not_or] at hmem
    obtain ⟨hfull, hold⟩ := h.lost s hmem.2 r hb hn
    refine ⟨hfull, ?_⟩
    intro s' hmem' r' hr'
    rw [Finset.mem_insert, not_or] at hmem'
    exact hold s' hmem'.2 r' hr'

theorem get (h : TouchedFrom b D t) (hg : t.get slot = .ok (row, t')) :
    TouchedFrom b (insert slot D) t' ∧ t'.rowOfSlot slot = some row := by
  obtain ⟨hs, rfl⟩ := get_ok hg
  exact ⟨h.touch_mapped hs, hs⟩

/-- The maps of a table after one row is given to a slot that had none. -/
theorem wf_claim (hwf : t.Wf) (hm : t.rowOfSlot slot = none) (hc : Claim t slot row t') : t'.Wf := by
  cases hc with
  | free hlt hfree =>
    constructor
    · intro s r
      simp only [Function.update_apply]
      by_cases hs : s = slot <;> by_cases hr : r = row
      · simp [hs, hr, hlt]
      · rw [if_pos hs, if_neg hr]
        subst hs
        constructor
        · intro he
          exact absurd (Option.some.inj he).symm hr
        · intro hr
          rw [(hwf.inverse s r).mpr hr] at hm
          cases hm
      · rw [if_neg hs, if_pos hr, hwf.inverse, hr, hfree]
        simp [Ne.symm hs]
      · rw [if_neg hs, if_neg hr, hwf.inverse]
    · intro s r hr
      simp only [Function.update_apply] at hr ⊢
      by_cases he : r = row
      · rw [if_pos he]
        omega
      · rw [if_neg he]
        split at hr
        · exact absurd (Option.some.inj hr).symm he
        · exact hwf.stamped s r hr
  | @recycled old hlt hold hfull hage hoff =>
    have hrow : t.rowOfSlot old = some row := (hwf.inverse old row).mpr ⟨hlt, hold⟩
    have hne : old ≠ slot := by
      intro he
      rw [he, hm] at hrow
      cases hrow
    have hother : ∀ s r, s ≠ old → t.rowOfSlot s = some r → r ≠ row := by
      intro s r hs hr he
      subst he
      exact hs (hwf.slot_inj hr hrow)
    constructor
    · intro s r
      simp only [Function.update_apply]
      by_cases hs : s = slot <;> by_cases hr : r = row
      · simp [hs, hr, hlt]
      · rw [if_pos hs, if_neg hr, if_neg hr]
        subst hs
        constructor
        · intro he
          exact absurd (Option.some.inj he).symm hr
        · intro hr
          rw [(hwf.inverse s r).mpr hr] at hm
          cases hm
      · rw [if_neg hs, if_pos hr, hr]
        constructor
        · intro he
          split at he
          · cases he
          · rename_i hso
            exact absurd rfl (hother s row hso he)
        · intro ⟨_, he⟩
          exact absurd (Option.some.inj he).symm hs
      · rw [if_neg hs, if_neg hr, if_neg hr]
        by_cases hso : s = old
        · subst hso
          simp only [if_true]
          constructor
          · intro he
            cases he
          · intro he
            have := (hwf.inverse s r).mpr he
            rw [hrow] at this
            exact absurd (Option.some.inj this).symm hr
        · rw [if_neg hso, hwf.inverse]
    · intro s r hr
      simp only [Function.update_apply] at hr ⊢
      by_cases he : r = row
      · rw [if_pos he]
        omega
      · rw [if_neg he]
        split at hr
        · exact absurd (Option.some.inj hr).symm he
        · split at hr
          · cases hr
          · exact hwf.stamped s r hr

theorem keeps_claim (hwf : t.Wf) (hm : t.rowOfSlot slot = none) (hc : Claim t slot row t')
    (hs : t.rowOfSlot slot' = some row') (hnow : t.touched row' = t.step) :
    t'.rowOfSlot slot' = some row' ∧ t'.touched row' = t.step := by
  have hne : slot' ≠ slot := by
    intro he
    rw [he, hm] at hs
    cases hs
  have hslot := hwf.slotOfRow_eq hs
  cases hc with
  | free hlt hfree =>
    have hrow : row' ≠ row := by
      intro he
      rw [he, hfree] at hslot
      cases hslot
    simp [Function.update_of_ne hne, Function.update_of_ne hrow, hs, hnow]
  | @recycled old hlt hold hfull hage hoff =>
    have hrow : row' ≠ row := by
      intro he
      have := age_of_touched_now hnow
      rw [he] at this
      omega
    have hso : slot' ≠ old := by
      intro he
      subst he
      have := (hwf.inverse slot' row).mpr ⟨hlt, hold⟩
      rw [hs] at this
      exact hrow (Option.some.inj this)
    simp [Function.update_of_ne hne, Function.update_of_ne hrow, Function.update_of_ne hso, hs, hnow]

theorem claim (h : TouchedFrom b D t) (hm : t.rowOfSlot slot = none) (hc : Claim t slot row t') :
    TouchedFrom b (insert slot D) t' ∧ t'.rowOfSlot slot = some row := by
  have hwf := wf_claim h.wf hm hc
  have hnew : t'.rowOfSlot slot = some row ∧ t'.touched row = b.step ∧ t'.capacity = b.capacity ∧
      t'.step = b.step := by
    cases hc <;> simp [h.capacity, h.step]
  obtain ⟨hslot, hnow, hcap, hstep⟩ := hnew
  -- a region other than the new one keeps its row and its stamp, or was unmapped
  have hkeep : ∀ s r, s ≠ slot → t'.rowOfSlot s = some r →
      t.rowOfSlot s = some r ∧ t'.touched r = t.touched r ∧ r ≠ row := by
    intro s r hs hr
    have hne : r ≠ row := by
      intro he
      subst he
      exact hs (hwf.slot_inj hr hslot)
    cases hc with
    | free hlt hfree =>
      simp only [Function.update_of_ne hs] at hr
      exact ⟨hr, by simp [Function.update_of_ne hne], hne⟩
    | @recycled old hlt hold hfull hage hoff =>
      simp only [Function.update_of_ne hs, Function.update_apply] at hr
      split at hr
      · cases hr
      · exact ⟨hr, by simp [Function.update_of_ne hne], hne⟩
  refine ⟨⟨hwf, hcap, hstep, ?_, ?_, ?_⟩, hslot⟩
  · intro s hmem
    by_cases hs : s = slot
    · subst hs
      exact ⟨row, hslot, hnow⟩
    · obtain ⟨r, hr, htouched⟩ := h.claimed s (Finset.mem_of_mem_insert_of_ne hmem hs)
      rw [← h.step] at htouched ⊢
      exact ⟨r, keeps_claim h.wf hm hc hr htouched⟩
  · intro s hmem r hr
    rw [Finset.mem_insert, not_or] at hmem
    obtain ⟨hr, htouched, -⟩ := hkeep s r hmem.1 hr
    rw [htouched]
    exact h.others s hmem.2 r hr
  · intro s hmem r hb hn
    rw [Finset.mem_insert, not_or] at hmem
    cases hc with
    | free hlt hfree =>
      simp only [Function.update_of_ne hmem.1] at hn
      exact absurd hfree ((h.lost s hmem.2 r hb hn).1 _ hlt)
    | @recycled old hlt hold hfull hage hoff =>
      have hrow : t.rowOfSlot old = some row := (h.wf.inverse old row).mpr ⟨hlt, hold⟩
      constructor
      · intro r' hr'
        simp only [Function.update_apply]
        split
        · simp
        · simpa using hfull r' hr'
      · intro s' hmem' r' hr'
        rw [Finset.mem_insert, not_or] at hmem'
        obtain ⟨hrt, -, hne⟩ := hkeep s' r' hmem'.1 hr'
        by_cases hso : s = old
        · -- the region whose row is recycled now
          subst hso
          obtain ⟨hb', htouched⟩ := h.others s hmem.2 row hrow
          rw [hb] at hb'
          cases hb'
          have hstamp := (h.others s' hmem'.2 r' hrt).2
          have holder := (hoff r' (h.wf.row_lt hrt)).resolve_left hne
          unfold Older at holder ⊢
          rwa [age_congr h.step htouched, age_congr h.step hstamp] at holder
        · simp only [Function.update_of_ne hmem.1, Function.update_of_ne hso] at hn
          exact (h.lost s hmem.2 r hb hn).2 s' hmem'.2 r' hrt

theorem acquire (h : TouchedFrom b D t) (ha : t.acquire slot = .ok (row, t')) :
    TouchedFrom b (insert slot D) t' ∧ t'.rowOfSlot slot = some row := by
  cases hm : t.rowOfSlot slot with
  | none => exact h.claim hm (acquire_ok hm ha)
  | some r =>
    rw [acquire_mapped hm] at ha
    cases ha
    exact ⟨h.touch_mapped hm, hm⟩

theorem keeps (h : TouchedFrom b D t) (ha : t.acquire slot = .ok (row, t')) (hmem : slot' ∈ D)
    (hs : t.rowOfSlot slot' = some row') : t'.rowOfSlot slot' = some row' := by
  obtain ⟨r, hr, hnow⟩ := h.claimed slot' hmem
  rw [hs] at hr
  cases hr
  cases hm : t.rowOfSlot slot with
  | none => exact (keeps_claim h.wf hm (acquire_ok hm ha) hs (hnow.trans (by rw [h.step]))).1
  | some r =>
    rw [acquire_mapped hm] at ha
    cases ha
    exact hs

/-! ## What the claimed regions determine -/

theorem subset_mapped (h : TouchedFrom b D t) : D ⊆ t.mappedSlots := by
  intro s hs
  obtain ⟨r, hr, -⟩ := h.claimed s hs
  exact h.wf.mem_mappedSlots.mpr ⟨r, hr⟩

theorem card_le_capacity (h : TouchedFrom b D t) : D.card ≤ b.capacity := by
  have hle := Finset.card_le_card h.subset_mapped
  have hcard := h.wf.card_mappedSlots
  have := h.capacity
  omega

/-- When every row was touched in this step, the mapped regions are the claimed ones. -/
theorem mapped_subset (h : TouchedFrom b D t) (hfresh : b.Fresh)
    (hnow : ∀ r < t.capacity, (t.step : Int) ≤ t.age r) : t.mappedSlots ⊆ D := by
  intro s hs
  by_contra hmem
  obtain ⟨r, hr⟩ := h.wf.mem_mappedSlots.mp hs
  obtain ⟨hb, htouched⟩ := h.others s hmem r hr
  have hage := hnow r (h.wf.row_lt hr)
  rw [age_congr h.step htouched, h.step] at hage
  have := hfresh s r hb
  omega

theorem card_mapped_of_full (hwf : t.Wf) (hfull : ∀ r < t.capacity, t.slotOfRow r ≠ none) :
    t.mappedSlots.card = t.capacity := by
  have hfree : t.freeRows = ∅ := by
    apply Finset.filter_eq_empty_iff.mpr
    intro r hr
    exact hfull r (Finset.mem_range.mp hr)
  have := hwf.card_mappedSlots
  rw [hfree, Finset.card_empty] at this
  omega

theorem acquire_isOk (h : TouchedFrom b D t) (hfresh : b.Fresh)
    (hcard : (insert slot D).card ≤ b.capacity) : ∃ r, t.acquire slot = .ok r := by
  cases ha : t.acquire slot with
  | ok r => exact ⟨r, rfl⟩
  | error e =>
    obtain ⟨-, hm, hall⟩ := acquire_error ha
    have hsub := h.mapped_subset hfresh fun r hr => (hall r hr).2
    have hfull := card_mapped_of_full h.wf fun r hr => (hall r hr).1
    have hnew : slot ∉ D := by
      intro hmem
      exact h.wf.not_mem_mappedSlots.mpr hm (h.subset_mapped hmem)
    have := Finset.card_le_card hsub
    rw [Finset.card_insert_of_notMem hnew] at hcard
    have := h.capacity
    omega

theorem card_rest (h : TouchedFrom b D t) : t.mappedSlots.card = D.card + (t.mappedSlots \ D).card := by
  rw [Finset.card_sdiff_of_subset h.subset_mapped]
  have := Finset.card_le_card h.subset_mapped
  omega

/-- Whatever the order of the claims, the same regions lose their row. -/
theorem unmapped_of_unmapped {t₁ t₂ : Step4PendingTable} (h₁ : TouchedFrom b D t₁) (h₂ : TouchedFrom b D t₂)
    (hn : t₁.rowOfSlot slot = none) : t₂.rowOfSlot slot = none := by
  cases hs : t₂.rowOfSlot slot with
  | none => rfl
  | some row =>
    exfalso
    have hmem : slot ∉ D := by
      intro hmem
      obtain ⟨r, hr, -⟩ := h₁.claimed slot hmem
      rw [hn] at hr
      cases hr
    have hb := (h₂.others slot hmem row hs).1
    obtain ⟨hfull, hold⟩ := h₁.lost slot hmem row hb hn
    -- `t₁` is full, so `t₂` cannot hold more of the other regions
    have hcard : (t₂.mappedSlots \ D).card ≤ (t₁.mappedSlots \ D).card := by
      have hc₁ := h₁.card_rest
      have hc₂ := h₂.card_rest
      rw [card_mapped_of_full h₁.wf hfull] at hc₁
      have := h₂.wf.card_mappedSlots
      have := h₁.capacity
      have := h₂.capacity
      omega
    have hin₂ : slot ∈ t₂.mappedSlots \ D :=
      Finset.mem_sdiff.mpr ⟨h₂.wf.mem_mappedSlots.mpr ⟨row, hs⟩, hmem⟩
    have hnot : ¬t₁.mappedSlots \ D ⊆ t₂.mappedSlots \ D := by
      intro hsub
      rw [← Finset.eq_of_subset_of_card_le hsub hcard] at hin₂
      exact h₁.wf.not_mem_mappedSlots.mpr hn (Finset.mem_sdiff.mp hin₂).1
    obtain ⟨s', hs₁, hs₂⟩ := Finset.not_subset.mp hnot
    obtain ⟨hmap, hmem'⟩ := Finset.mem_sdiff.mp hs₁
    obtain ⟨r', hr'⟩ := h₁.wf.mem_mappedSlots.mp hmap
    have hb' := (h₁.others s' hmem' r' hr').1
    have hn' : t₂.rowOfSlot s' = none := by
      apply h₂.wf.not_mem_mappedSlots.mp
      intro hc
      exact hs₂ (Finset.mem_sdiff.mpr ⟨hc, hmem'⟩)
    exact (hold s' hmem' r' hr').asymm ((h₂.lost s' hmem' r' hb' hn').2 slot hmem row hs)

/-- Two tables with the same claimed regions map the same slots, with the same stamps. -/
theorem agree {t₁ t₂ : Step4PendingTable} (h₁ : TouchedFrom b D t₁) (h₂ : TouchedFrom b D t₂)
    (hs : t₁.rowOfSlot slot = some row) :
    ∃ row', t₂.rowOfSlot slot = some row' ∧ t₂.touched row' = t₁.touched row ∧ (slot ∉ D → row' = row) := by
  by_cases hmem : slot ∈ D
  · obtain ⟨r₁, hr₁, hnow₁⟩ := h₁.claimed slot hmem
    obtain ⟨r₂, hr₂, hnow₂⟩ := h₂.claimed slot hmem
    rw [hs] at hr₁
    cases hr₁
    exact ⟨r₂, hr₂, hnow₂.trans hnow₁.symm, fun hc => absurd hmem hc⟩
  · obtain ⟨hb, htouched⟩ := h₁.others slot hmem row hs
    cases hs₂ : t₂.rowOfSlot slot with
    | none =>
      rw [h₂.unmapped_of_unmapped h₁ hs₂] at hs
      cases hs
    | some r₂ =>
      obtain ⟨hb₂, htouched₂⟩ := h₂.others slot hmem r₂ hs₂
      rw [hb] at hb₂
      cases hb₂
      exact ⟨row, rfl, htouched₂.trans htouched.symm, fun _ => rfl⟩

end TouchedFrom

/-- The regions in line for recycling before `row`, those of `D` left aside. -/
def olderSlots (t : Step4PendingTable) (D : Finset Nat) (row : Nat) : Finset Nat :=
  (t.mappedSlots \ D).filter fun s => t.Older (t.rowOf s) row

/-- A region keeps its row as long as there are enough rows to give away before it. -/
theorem TouchedFrom.survives {D : Finset Nat} (hwf : b.Wf) (h : TouchedFrom b D t) (hmem : slot ∉ D)
    (hb : b.rowOfSlot slot = some row)
    (hroom : (D \ b.mappedSlots).card ≤ b.freeRows.card + (b.olderSlots D row).card) :
    t.rowOfSlot slot = some row := by
  cases hs : t.rowOfSlot slot with
  | some r =>
    rw [(h.others slot hmem r hs).1] at hb
    exact hb
  | none =>
    exfalso
    obtain ⟨hfull, hold⟩ := h.lost slot hmem row hb hs
    -- what is left in the table avoids `slot` and everything older
    have hsub : t.mappedSlots \ D ⊆ (b.mappedSlots \ D) \ insert slot (b.olderSlots D row) := by
      intro s hin
      obtain ⟨hmap, hsD⟩ := Finset.mem_sdiff.mp hin
      obtain ⟨r, hr⟩ := h.wf.mem_mappedSlots.mp hmap
      have hbr := (h.others s hsD r hr).1
      refine Finset.mem_sdiff.mpr ⟨Finset.mem_sdiff.mpr ⟨hwf.mem_mappedSlots.mpr ⟨r, hbr⟩, hsD⟩, ?_⟩
      intro hc
      rcases Finset.mem_insert.mp hc with he | ho
      · rw [he, hs] at hr
        cases hr
      · have := (Finset.mem_filter.mp ho).2
        rw [rowOf_eq hbr] at this
        exact this.asymm (hold s hsD r hr)
    have hins : insert slot (b.olderSlots D row) ⊆ b.mappedSlots \ D := by
      intro s hin
      rcases Finset.mem_insert.mp hin with he | ho
      · rw [he]
        exact Finset.mem_sdiff.mpr ⟨hwf.mem_mappedSlots.mpr ⟨row, hb⟩, hmem⟩
      · exact (Finset.mem_filter.mp ho).1
    have hnot : slot ∉ b.olderSlots D row := by
      intro hc
      have := (Finset.mem_filter.mp hc).2
      rw [rowOf_eq hb] at this
      exact this.asymm this
    have hcard := Finset.card_le_card hsub
    have hle := Finset.card_le_card hins
    rw [Finset.card_sdiff_of_subset hins, Finset.card_insert_of_notMem hnot] at hcard
    rw [Finset.card_insert_of_notMem hnot] at hle
    have hrest := h.card_rest
    rw [TouchedFrom.card_mapped_of_full h.wf hfull, h.capacity] at hrest
    have hunion := Finset.card_sdiff_add_card D b.mappedSlots
    have hunion' := Finset.card_sdiff_add_card b.mappedSlots D
    rw [Finset.union_comm] at hunion'
    have := hwf.card_mappedSlots
    omega

/-! ## Lists of claims -/

def getAll : Step4PendingTable → List Nat → Except String Step4PendingTable
  | t, [] => .ok t
  | t, slot :: slots => do
    let (_, t) ← t.get slot
    getAll t slots

def acquireAll : Step4PendingTable → List Nat → Except String Step4PendingTable
  | t, [] => .ok t
  | t, slot :: slots => do
    let (_, t) ← t.acquire slot
    acquireAll t slots

theorem getAll_ok : ∀ {slots : List Nat} {t t' : Step4PendingTable}, t.getAll slots = .ok t' →
    t'.rowOfSlot = t.rowOfSlot ∧ ∀ s ∈ slots, ∃ row, t.rowOfSlot s = some row
  | [], t, t', h => by
    cases h
    exact ⟨rfl, by simp⟩
  | slot :: slots, t, t', h => by
    obtain ⟨⟨row, u⟩, hg, hrest⟩ := bind_eq_ok.mp h
    obtain ⟨hs, rfl⟩ := get_ok hg
    obtain ⟨hrow, hall⟩ := getAll_ok hrest
    refine ⟨hrow, ?_⟩
    intro s hmem
    rcases List.mem_cons.mp hmem with he | hmem
    · rw [he]
      exact ⟨row, hs⟩
    · exact hall s hmem

theorem getAll_isOk : ∀ {slots : List Nat} {t : Step4PendingTable}, (∀ s ∈ slots, ∃ row, t.rowOfSlot s = some row) →
    ∃ t', t.getAll slots = .ok t'
  | [], t, _ => ⟨t, rfl⟩
  | slot :: slots, t, h => by
    obtain ⟨row, hs⟩ := h slot (List.mem_cons_self ..)
    obtain ⟨t', ht'⟩ := getAll_isOk (t := t.touch row) fun s hmem => h s (List.mem_cons_of_mem _ hmem)
    refine ⟨t', ?_⟩
    simp only [getAll, get, hs]
    exact ht'

namespace TouchedFrom

variable {D : Finset Nat}

theorem getAll : ∀ {slots : List Nat} {D : Finset Nat} {t t' : Step4PendingTable}, TouchedFrom b D t →
    t.getAll slots = .ok t' → TouchedFrom b (D ∪ slots.toFinset) t'
  | [], _, _, _, h, hg => by
    cases hg
    simpa using h
  | slot :: slots, D, t, t', h, hg => by
    obtain ⟨⟨row, u⟩, hu, hrest⟩ := bind_eq_ok.mp hg
    have := (h.get hu).1.getAll hrest
    simpa [Finset.insert_union, Finset.union_insert] using this

theorem acquireAll : ∀ {slots : List Nat} {D : Finset Nat} {t t' : Step4PendingTable}, TouchedFrom b D t →
    t.acquireAll slots = .ok t' → TouchedFrom b (D ∪ slots.toFinset) t' ∧
      ∀ s ∈ D, ∀ row, t.rowOfSlot s = some row → t'.rowOfSlot s = some row
  | [], _, _, _, h, hg => by
    cases hg
    exact ⟨by simpa using h, fun _ _ _ hr => hr⟩
  | slot :: slots, D, t, t', h, hg => by
    obtain ⟨⟨row, u⟩, hu, hrest⟩ := bind_eq_ok.mp hg
    obtain ⟨hall, hkeep⟩ := (h.acquire hu).1.acquireAll hrest
    refine ⟨by simpa [Finset.insert_union, Finset.union_insert] using hall, ?_⟩
    intro s hmem r hr
    exact hkeep s (Finset.mem_insert_of_mem hmem) r (h.keeps hu hmem hr)

theorem acquireAll_isOk (hfresh : b.Fresh) : ∀ {slots : List Nat} {D : Finset Nat} {t : Step4PendingTable},
    TouchedFrom b D t → (D ∪ slots.toFinset).card ≤ b.capacity → ∃ t', t.acquireAll slots = .ok t'
  | [], _, t, _, _ => ⟨t, rfl⟩
  | slot :: slots, D, t, h, hcard => by
    rw [List.toFinset_cons, Finset.union_insert, ← Finset.insert_union] at hcard
    obtain ⟨⟨row, u⟩, hu⟩ := h.acquire_isOk hfresh
      ((Finset.card_le_card Finset.subset_union_left).trans hcard)
    obtain ⟨t', ht'⟩ := acquireAll_isOk hfresh (h.acquire hu).1 hcard
    exact ⟨t', bind_eq_ok.mpr ⟨(row, u), hu, ht'⟩⟩

theorem acquireAll_error : ∀ {slots : List Nat} {D : Finset Nat} {t : Step4PendingTable} {e : String},
    TouchedFrom b D t → t.acquireAll slots = .error e → e = allInUse b.capacity
  | [], _, _, _, _, he => by cases he
  | slot :: slots, D, t, e, h, he => by
    unfold Step4PendingTable.acquireAll at he
    cases hu : t.acquire slot with
    | error e' =>
      rw [hu] at he
      cases he
      rw [(acquire_error hu).1, h.capacity]
    | ok p =>
      rw [hu] at he
      exact acquireAll_error (h.acquire hu).1 he

end TouchedFrom

end Step4PendingTable

end VllmHcu.Step4
