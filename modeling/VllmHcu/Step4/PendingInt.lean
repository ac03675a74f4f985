import VllmHcu.Step4.PendingSound

/-!
# The pending table over integer slots

`Step4PendingTable` takes any integer as a slot and marks a free row by `-1` in
the list of slots. On slots that are not negative it does what the table with
optional slots does.
-/

namespace VllmHcu.Step4

/-- The fields of `Step4PendingTable` as the source has them. -/
structure IntPendingTable where
  capacity : Nat
  rowOfSlot : Int → Option Nat := fun _ => none
  slotOfRow : Nat → Int := fun _ => -1
  touched : Nat → Int := fun _ => -1
  step : Nat := 0

namespace IntPendingTable

def noPendingTokens (slot : Int) : String :=
  s!"Step-4 DSA: no pending tokens for region slot {slot}. A request " ++
  "resumed in the middle of a region whose leading tokens were " ++
  "never buffered -- the summary for that region would be wrong, " ++
  "so this fails loudly rather than silently attending to noise."

def beginStep (t : IntPendingTable) : IntPendingTable := { t with step := t.step + 1 }

def touch (t : IntPendingTable) (row : Nat) : IntPendingTable :=
  { t with touched := Function.update t.touched row t.step }

/-- A method's row or exception, and the table it leaves. -/
def get (t : IntPendingTable) (slot : Int) : Except String Nat × IntPendingTable :=
  match t.rowOfSlot slot with
  | none => (.error (noPendingTokens slot), t)
  | some row => (.ok row, t.touch row)

def age (t : IntPendingTable) (row : Nat) : Int :=
  let freshRetired : Int := t.step - 1 - retireOffset
  let touched := t.touched row
  if freshRetired ≤ touched ∧ touched < 0 then touched + retireOffset else touched

def scanRows (t : IntPendingTable) : List Nat → Option Nat → Int → Option Nat
  | [], oldestRow, _ => oldestRow
  | row :: rows, oldestRow, oldestStep =>
    if t.slotOfRow row < 0 then some row
    else if t.age row < oldestStep then t.scanRows rows (some row) (t.age row)
    else t.scanRows rows oldestRow oldestStep

/-- `_free_row`: the first row marked free, else the oldest, whose mapping is dropped. -/
def freeRow (t : IntPendingTable) : Except String Nat × IntPendingTable :=
  match t.scanRows (List.range t.capacity) none t.step with
  | none => (.error (Step4PendingTable.allInUse t.capacity), t)
  | some row =>
    if t.slotOfRow row < 0 then (.ok row, t)
    else (.ok row, { t with
      rowOfSlot := Function.update t.rowOfSlot (t.slotOfRow row) none
      slotOfRow := Function.update t.slotOfRow row (-1) })

def acquire (t : IntPendingTable) (slot : Int) : Except String Nat × IntPendingTable :=
  match t.rowOfSlot slot with
  | some row => (.ok row, t.touch row)
  | none =>
    match t.freeRow with
    | (.error e, t) => (.error e, t)
    | (.ok row, t) => (.ok row, { t with
        rowOfSlot := Function.update t.rowOfSlot slot (some row)
        slotOfRow := Function.update t.slotOfRow row slot
        touched := Function.update t.touched row t.step })

def release (t : IntPendingTable) (slot : Int) : IntPendingTable :=
  match t.rowOfSlot slot with
  | none => t
  | some row => { t with
      rowOfSlot := Function.update t.rowOfSlot slot none
      slotOfRow := Function.update t.slotOfRow row (-1)
      touched := Function.update t.touched row (-1) }

def retire (t : IntPendingTable) (slot : Int) : IntPendingTable :=
  match t.rowOfSlot slot with
  | none => t
  | some row => { t with touched := Function.update t.touched row (t.step - retireOffset) }

/-! ## The table with optional slots -/

/-- The region of a list entry. -/
def entry (slot : Int) : Option Nat := if slot < 0 then none else some slot.toNat

def toNat (t : IntPendingTable) : Step4PendingTable where
  capacity := t.capacity
  rowOfSlot slot := t.rowOfSlot slot
  slotOfRow row := entry (t.slotOfRow row)
  touched := t.touched
  step := t.step

/-- A result over integer slots is the one over optional slots, and an exception leaves the table as it was. -/
def Refines (t : IntPendingTable) (r : Except String Nat × IntPendingTable)
    (r' : Except String (Nat × Step4PendingTable)) : Prop :=
  match r with
  | (.ok row, t') => r' = .ok (row, t'.toNat)
  | (.error e, t') => r' = .error e ∧ t' = t

variable {t : IntPendingTable}

@[simp] theorem entry_natCast (slot : Nat) : entry slot = some slot := by simp [entry]

@[simp] theorem entry_neg_one : entry (-1) = none := rfl

theorem entry_eq_none {slot : Int} : entry slot = none ↔ slot < 0 := by
  unfold entry
  split <;> simp [*]

theorem entry_eq_some {slot : Int} {n : Nat} : entry slot = some n ↔ slot = n := by
  unfold entry
  split
  · simp only [reduceCtorEq, false_iff]
    omega
  · simp only [Option.some.injEq]
    omega

theorem update_natCast (f : Int → Option Nat) (slot : Nat) (v : Option Nat) :
    (fun s : Nat => Function.update f slot v s) = Function.update (fun s : Nat => f s) slot v := by
  funext s
  simp only [Function.update_apply, Int.natCast_inj]

theorem entry_update (f : Nat → Int) (row : Nat) (v : Int) :
    (fun r => entry (Function.update f row v r)) = Function.update (fun r => entry (f r)) row (entry v) := by
  funext r
  simp only [Function.update_apply]
  split <;> rfl

theorem toNat_touch (row : Nat) : (t.touch row).toNat = t.toNat.touch row := rfl

theorem get_refines (slot : Nat) : Refines t (t.get slot) (t.toNat.get slot) := by
  cases hs : t.rowOfSlot slot with
  | none =>
    have hs' : t.toNat.rowOfSlot slot = none := hs
    simp only [Refines, get, Step4PendingTable.get, hs, hs', and_true]
    rfl
  | some row =>
    have hs' : t.toNat.rowOfSlot slot = some row := hs
    simp [Refines, get, Step4PendingTable.get, hs, hs', toNat_touch]

theorem toNat_scanRows (rows : List Nat) (oldestRow : Option Nat) (oldestStep : Int) :
    t.toNat.scanRows rows oldestRow oldestStep = t.scanRows rows oldestRow oldestStep := by
  have hage : ∀ row, t.toNat.age row = t.age row := fun _ => rfl
  induction rows generalizing oldestRow oldestStep with
  | nil => rfl
  | cons row rows ih =>
    have hentry : t.toNat.slotOfRow row = entry (t.slotOfRow row) := rfl
    unfold Step4PendingTable.scanRows scanRows
    rw [hentry, hage, ih, ih]
    by_cases hneg : t.slotOfRow row < 0 <;> simp [entry, hneg]

theorem freeRow_refines : Refines t t.freeRow t.toNat.freeRow := by
  unfold freeRow Step4PendingTable.freeRow
  rw [toNat_scanRows]
  have hcap : t.toNat.capacity = t.capacity := rfl
  have hstep : t.toNat.step = t.step := rfl
  rw [hcap, hstep]
  cases t.scanRows (List.range t.capacity) none t.step with
  | none => exact ⟨rfl, rfl⟩
  | some row =>
    by_cases hneg : t.slotOfRow row < 0
    · have hentry : t.toNat.slotOfRow row = none := entry_eq_none.mpr hneg
      simp only [hneg, if_true, Refines, hentry]
    · obtain ⟨n, hn⟩ := Int.eq_ofNat_of_zero_le (Int.not_lt.mp hneg)
      have hentry : t.toNat.slotOfRow row = some n := entry_eq_some.mpr hn
      simp only [if_neg hneg, Refines, hentry]
      simp only [toNat, hn, update_natCast, entry_update, entry_neg_one]

theorem acquire_refines (slot : Nat) : Refines t (t.acquire slot) (t.toNat.acquire slot) := by
  unfold acquire Step4PendingTable.acquire
  cases hs : t.rowOfSlot slot with
  | some row =>
    have hs' : t.toNat.rowOfSlot slot = some row := hs
    simp [Refines, hs', toNat_touch]
  | none =>
    have hs' : t.toNat.rowOfSlot slot = none := hs
    have hfree := freeRow_refines (t := t)
    simp only [hs']
    generalize t.freeRow = r at hfree
    match r with
    | (.error e, t') =>
      obtain ⟨he, rfl⟩ := hfree
      rw [he]
      exact ⟨rfl, rfl⟩
    | (.ok row, t') =>
      have he : t.toNat.freeRow = .ok (row, t'.toNat) := hfree
      rw [he]
      simp only [Refines, toNat, update_natCast, entry_update, entry_natCast]
      rfl

/-- No call on other slots maps a negative one. -/
theorem freeRow_none {slot : Int} (hs : t.rowOfSlot slot = none) : t.freeRow.2.rowOfSlot slot = none := by
  unfold freeRow
  cases t.scanRows (List.range t.capacity) none t.step with
  | none => exact hs
  | some row =>
    simp only
    split
    · exact hs
    · simp only [Function.update_apply]
      split
      · rfl
      · exact hs

theorem acquire_none {slot slot' : Int} (hne : slot ≠ slot') (hs : t.rowOfSlot slot = none) :
    (t.acquire slot').2.rowOfSlot slot = none := by
  unfold acquire
  cases t.rowOfSlot slot' with
  | some row => exact hs
  | none =>
    have hfree := freeRow_none (t := t) hs
    generalize t.freeRow = r at hfree
    match r with
    | (.error e, t') => exact hfree
    | (.ok row, t') => simpa [Function.update_of_ne hne] using hfree

theorem get_none {slot slot' : Int} (hs : t.rowOfSlot slot = none) : (t.get slot').2.rowOfSlot slot = none := by
  unfold get
  split <;> exact hs

theorem release_none {slot slot' : Int} (hs : t.rowOfSlot slot = none) : (t.release slot').rowOfSlot slot = none := by
  unfold release
  split
  · exact hs
  · simp only [Function.update_apply]
    split
    · rfl
    · exact hs

theorem retire_none {slot slot' : Int} (hs : t.rowOfSlot slot = none) : (t.retire slot').rowOfSlot slot = none := by
  unfold retire
  split <;> exact hs

/-- Only `begin_step` counts a step. -/
theorem step_get (t : IntPendingTable) (slot : Int) : (t.get slot).2.step = t.step := by
  unfold get
  split <;> rfl

theorem step_freeRow (t : IntPendingTable) : t.freeRow.2.step = t.step := by
  unfold freeRow
  cases t.scanRows (List.range t.capacity) none t.step with
  | none => rfl
  | some row =>
    simp only
    split <;> rfl

theorem step_acquire (t : IntPendingTable) (slot : Int) : (t.acquire slot).2.step = t.step := by
  have hfree := t.step_freeRow
  unfold acquire
  cases t.rowOfSlot slot with
  | some row => rfl
  | none =>
    generalize t.freeRow = r at hfree
    match r with
    | (.error e, t') => exact hfree
    | (.ok row, t') => exact hfree

theorem step_release (t : IntPendingTable) (slot : Int) : (t.release slot).step = t.step := by
  unfold release
  split <;> rfl

theorem step_retire (t : IntPendingTable) (slot : Int) : (t.retire slot).step = t.step := by
  unfold retire
  split <;> rfl

theorem toNat_release (slot : Nat) : (t.release slot).toNat = t.toNat.release slot := by
  unfold release Step4PendingTable.release
  cases hs : t.rowOfSlot slot with
  | none =>
    have hs' : t.toNat.rowOfSlot slot = none := hs
    simp [hs']
  | some row =>
    have hs' : t.toNat.rowOfSlot slot = some row := hs
    simp only [hs']
    simp only [toNat, update_natCast, entry_update, entry_neg_one]

theorem toNat_retire (slot : Nat) : (t.retire slot).toNat = t.toNat.retire slot := by
  unfold retire Step4PendingTable.retire
  cases hs : t.rowOfSlot slot with
  | none =>
    have hs' : t.toNat.rowOfSlot slot = none := hs
    simp [hs']
  | some row =>
    have hs' : t.toNat.rowOfSlot slot = some row := hs
    simp only [hs']
    rfl

end IntPendingTable

end VllmHcu.Step4
