import Mathlib.Data.Finset.Card
import Mathlib.Data.Finset.Image
import Mathlib.Logic.Function.Basic
import VllmHcu.Lib.Result

/-!
# The table of pending partial regions

A region gets its summary once it is complete. Until then its tokens wait in a
row of a small buffer, and the table says which row holds which region. Rows are
recycled least recently touched first; a retired row goes ahead of the live ones,
but only from the second step after its retirement on.
-/

namespace VllmHcu.Step4

/-- `slotOfRow` is `none` where the list of the source holds `-1`. -/
structure Step4PendingTable where
  capacity : Nat
  rowOfSlot : Nat → Option Nat := fun _ => none
  slotOfRow : Nat → Option Nat := fun _ => none
  touched : Nat → Int := fun _ => -1
  step : Nat := 0

/-- `1 << 40`. -/
def retireOffset : Int := 1099511627776

namespace Step4PendingTable

def noPendingTokens (slot : Nat) : String :=
  s!"Step-4 DSA: no pending tokens for region slot {slot}. A request " ++
  "resumed in the middle of a region whose leading tokens were " ++
  "never buffered -- the summary for that region would be wrong, " ++
  "so this fails loudly rather than silently attending to noise."

def allInUse (capacity : Nat) : String :=
  s!"Step-4 DSA: all {capacity} pending region buffers are in use " ++
  "this step. Capacity is sized from max_num_seqs, so this means " ++
  "more concurrent sequences reached the indexer than the scheduler " ++
  "declared."

def beginStep (t : Step4PendingTable) : Step4PendingTable := { t with step := t.step + 1 }

/-- `self._touched[row] = self.step`. -/
def touch (t : Step4PendingTable) (row : Nat) : Step4PendingTable :=
  { t with touched := Function.update t.touched row t.step }

def get (t : Step4PendingTable) (slot : Nat) : Except String (Nat × Step4PendingTable) :=
  match t.rowOfSlot slot with
  | none => .error (noPendingTokens slot)
  | some row => .ok (row, t.touch row)

/-- The age `_free_row` sorts a row by: a row retired by the previous step counts as touched then. -/
def age (t : Step4PendingTable) (row : Nat) : Int :=
  let freshRetired : Int := t.step - 1 - retireOffset
  let touched := t.touched row
  if freshRetired ≤ touched ∧ touched < 0 then touched + retireOffset else touched

/-- The loop of `_free_row` over `rows`, with its `oldest_row` and `oldest_step`. -/
def scanRows (t : Step4PendingTable) : List Nat → Option Nat → Int → Option Nat
  | [], oldestRow, _ => oldestRow
  | row :: rows, oldestRow, oldestStep =>
    match t.slotOfRow row with
    | none => some row
    | some _ =>
      if t.age row < oldestStep then t.scanRows rows (some row) (t.age row)
      else t.scanRows rows oldestRow oldestStep

def freeRow (t : Step4PendingTable) : Except String (Nat × Step4PendingTable) :=
  match t.scanRows (List.range t.capacity) none t.step with
  | none => .error (allInUse t.capacity)
  | some row =>
    match t.slotOfRow row with
    | none => .ok (row, t)
    | some old =>
      -- the recycled row's forward mapping goes too
      .ok (row, { t with
        rowOfSlot := Function.update t.rowOfSlot old none
        slotOfRow := Function.update t.slotOfRow row none })

def acquire (t : Step4PendingTable) (slot : Nat) : Except String (Nat × Step4PendingTable) :=
  match t.rowOfSlot slot with
  | some row => .ok (row, t.touch row)
  | none => do
    let (row, t) ← t.freeRow
    return (row, { t with
      rowOfSlot := Function.update t.rowOfSlot slot (some row)
      slotOfRow := Function.update t.slotOfRow row (some slot)
      touched := Function.update t.touched row t.step })

def release (t : Step4PendingTable) (slot : Nat) : Step4PendingTable :=
  match t.rowOfSlot slot with
  | none => t
  | some row => { t with
      rowOfSlot := Function.update t.rowOfSlot slot none
      slotOfRow := Function.update t.slotOfRow row none
      touched := Function.update t.touched row (-1) }

def retire (t : Step4PendingTable) (slot : Nat) : Step4PendingTable :=
  match t.rowOfSlot slot with
  | none => t
  | some row => { t with touched := Function.update t.touched row (t.step - retireOffset) }

/-! ## Well-formed tables -/

/-- The two maps are inverse to each other, and no row is stamped later than the current step. -/
structure Wf (t : Step4PendingTable) : Prop where
  inverse : ∀ slot row, t.rowOfSlot slot = some row ↔ row < t.capacity ∧ t.slotOfRow row = some slot
  stamped : ∀ slot row, t.rowOfSlot slot = some row →
    t.touched row ≤ t.step ∧ (t.touched row < 0 → t.touched row + retireOffset ≤ t.step)

/-- The recycling order of two rows. -/
def Older (t : Step4PendingTable) (row row' : Nat) : Prop :=
  t.age row < t.age row' ∨ t.age row = t.age row' ∧ row < row'

instance (t : Step4PendingTable) (row row' : Nat) : Decidable (t.Older row row') :=
  inferInstanceAs (Decidable (_ ∨ _))

/-- Every mapped row was last touched before the current step. -/
def Fresh (t : Step4PendingTable) : Prop :=
  ∀ slot row, t.rowOfSlot slot = some row → t.age row < t.step

def mappedSlots (t : Step4PendingTable) : Finset Nat :=
  ((Finset.range t.capacity).filter fun row => ¬t.slotOfRow row = none).image
    fun row => (t.slotOfRow row).getD 0

def freeRows (t : Step4PendingTable) : Finset Nat :=
  (Finset.range t.capacity).filter fun row => t.slotOfRow row = none

/-- The row of a slot; the trash row, one past the last, when it has none. -/
def rowOf (t : Step4PendingTable) (slot : Nat) : Nat := (t.rowOfSlot slot).getD t.capacity

variable {t t' : Step4PendingTable} {slot slot' row row' : Nat}

theorem Older.asymm (h : t.Older row row') : ¬t.Older row' row := by
  unfold Older at *
  omega

theorem age_eq (t : Step4PendingTable) (row : Nat) : t.age row =
    if (t.step : Int) - 1 - retireOffset ≤ t.touched row ∧ t.touched row < 0 then t.touched row + retireOffset
    else t.touched row := rfl

theorem rowOf_eq (h : t.rowOfSlot slot = some row) : t.rowOf slot = row := by
  simp [rowOf, h]

namespace Wf

theorem row_lt (h : t.Wf) (hs : t.rowOfSlot slot = some row) : row < t.capacity :=
  ((h.inverse slot row).mp hs).1

theorem slotOfRow_eq (h : t.Wf) (hs : t.rowOfSlot slot = some row) : t.slotOfRow row = some slot :=
  ((h.inverse slot row).mp hs).2

theorem slot_inj (h : t.Wf) (hs : t.rowOfSlot slot = some row) (hs' : t.rowOfSlot slot' = some row) :
    slot = slot' := by
  have h₁ := h.slotOfRow_eq hs
  rw [h.slotOfRow_eq hs'] at h₁
  exact (Option.some.inj h₁).symm

theorem mem_mappedSlots (h : t.Wf) : slot ∈ t.mappedSlots ↔ ∃ row, t.rowOfSlot slot = some row := by
  simp only [mappedSlots, Finset.mem_image, Finset.mem_filter, Finset.mem_range]
  constructor
  · intro ⟨row, ⟨hlt, hsome⟩, hslot⟩
    obtain ⟨s, hs⟩ := Option.ne_none_iff_exists'.mp hsome
    rw [hs] at hslot
    simp only [Option.getD_some] at hslot
    subst hslot
    exact ⟨row, (h.inverse s row).mpr ⟨hlt, hs⟩⟩
  · intro ⟨row, hrow⟩
    refine ⟨row, ⟨h.row_lt hrow, ?_⟩, ?_⟩
    · simp [h.slotOfRow_eq hrow]
    · simp [h.slotOfRow_eq hrow]

theorem not_mem_mappedSlots (h : t.Wf) : slot ∉ t.mappedSlots ↔ t.rowOfSlot slot = none := by
  rw [h.mem_mappedSlots, Option.eq_none_iff_forall_ne_some]
  simp

theorem card_mappedSlots (h : t.Wf) : t.mappedSlots.card + t.freeRows.card = t.capacity := by
  have hinj : Set.InjOn (fun row => (t.slotOfRow row).getD 0)
      ((Finset.range t.capacity).filter fun row => ¬t.slotOfRow row = none) := by
    intro r hr r' hr' he
    rw [Finset.mem_coe, Finset.mem_filter, Finset.mem_range] at hr hr'
    obtain ⟨s, hs⟩ := Option.ne_none_iff_exists'.mp hr.2
    obtain ⟨s', hs'⟩ := Option.ne_none_iff_exists'.mp hr'.2
    simp only [hs, hs', Option.getD_some] at he
    subst he
    have h₁ := (h.inverse s r).mpr ⟨hr.1, hs⟩
    rw [(h.inverse s r').mpr ⟨hr'.1, hs'⟩] at h₁
    exact (Option.some.inj h₁).symm
  have hcard := Finset.card_filter_add_card_filter_not (s := Finset.range t.capacity)
    fun row => t.slotOfRow row = none
  rw [Finset.card_range] at hcard
  unfold mappedSlots freeRows
  rw [Finset.card_image_of_injOn hinj]
  omega

end Wf

theorem wf_initial (capacity : Nat) : (Step4PendingTable.mk capacity (fun _ => none) (fun _ => none)
    (fun _ => -1) 0).Wf where
  inverse := by simp
  stamped := by simp

/-- A table in which one row holds the tokens of one slot. -/
def single (capacity slot row : Nat) : Step4PendingTable :=
  ⟨capacity, fun s => if s = slot then some row else none, fun r => if r = row then some slot else none, fun _ => 0, 1⟩

theorem single_wf {capacity slot row : Nat} (h : row < capacity) : (single capacity slot row).Wf where
  inverse s r := by
    simp only [single]
    split
    · rename_i hs
      rw [Option.some.injEq]
      constructor
      · rintro rfl
        exact ⟨h, by rw [if_pos rfl, hs]⟩
      · rintro ⟨-, hr⟩
        by_contra hne
        rw [if_neg (Ne.symm hne)] at hr
        cases hr
    · rename_i hs
      refine iff_of_false nofun fun ⟨_, hr⟩ => ?_
      split at hr
      · exact hs (Option.some.inj hr).symm
      · cases hr
  stamped _ _ _ := ⟨Int.zero_le_ofNat 1, fun h => absurd h (lt_irrefl 0)⟩

theorem beginStep_wf (h : t.Wf) : t.beginStep.Wf where
  inverse := h.inverse
  stamped slot row hs := by
    have := h.stamped slot row hs
    simp only [beginStep]
    refine ⟨by omega, fun hneg => ?_⟩
    have := this.2 hneg
    omega

theorem beginStep_fresh (h : t.Wf) : t.beginStep.Fresh := by
  intro slot row hs
  have hstamp := h.stamped slot row hs
  have hstep : (t.beginStep.step : Int) = t.step + 1 := rfl
  have htouched : t.beginStep.touched row = t.touched row := rfl
  rw [age_eq, htouched, hstep]
  split
  · rename_i hc
    have := hstamp.2 hc.2
    omega
  · omega

theorem retire_wf (h : t.Wf) : (t.retire slot).Wf := by
  unfold retire
  split
  · exact h
  · rename_i row hrow
    refine ⟨h.inverse, ?_⟩
    intro s r hs
    have := h.stamped s r hs
    simp only [Function.update_apply]
    split
    · simp only [retireOffset]
      omega
    · exact this

theorem release_wf (h : t.Wf) : (t.release slot).Wf := by
  unfold release
  split
  · exact h
  · rename_i row hrow
    have hkeep : ∀ s r, s ≠ slot → t.rowOfSlot s = some r → r ≠ row := by
      intro s r hne hs hr
      subst hr
      exact hne (h.slot_inj hs hrow)
    constructor
    · intro s r
      simp only [Function.update_apply]
      by_cases hs : s = slot
      · subst hs
        simp only [if_true]
        constructor
        · intro hc
          cases hc
        · intro ⟨hlt, hr⟩
          split at hr
          · cases hr
          · rename_i hne
            have := (h.inverse s r).mpr ⟨hlt, hr⟩
            rw [hrow] at this
            exact absurd (Option.some.inj this).symm hne
      · rw [if_neg hs, h.inverse]
        by_cases hr : r = row
        · subst hr
          simp only [if_true, h.slotOfRow_eq hrow]
          constructor
          · intro ⟨_, hc⟩
            exact absurd (Option.some.inj hc).symm hs
          · intro ⟨_, hc⟩
            cases hc
        · rw [if_neg hr]
    · intro s r hs
      simp only [Function.update_apply] at hs ⊢
      split at hs
      · cases hs
      · rename_i hne
        rw [if_neg (hkeep s r hne hs)]
        exact h.stamped s r hs

end Step4PendingTable

end VllmHcu.Step4
