import Mathlib.Logic.Function.Iterate
import VllmHcu.Step4.PendingInt

/-!
# Runs of the pending table

Any sequence of calls on the table, a call that raises going on with the table it
left. The run keeps two things the table itself does not: which rows were touched
or retired in the current step, and which slot each row was last given to.
-/

namespace VllmHcu.Step4

inductive PendingCall
  | beginStep
  | get (slot : Int)
  | acquire (slot : Int)
  | release (slot : Int)
  | retire (slot : Int)
deriving DecidableEq

/-- The slot of a call is that of a region. -/
def PendingCall.OnRegion : PendingCall → Prop
  | .beginStep => True
  | .get slot | .acquire slot | .release slot | .retire slot => 0 ≤ slot

/-- A table, its rows touched or retired in the current step, and the slot each row was last given to. -/
structure PendingRun where
  table : IntPendingTable
  recent : Nat → Bool := fun _ => false
  given : Nat → Option Int := fun _ => none

open Step4PendingTable

namespace PendingRun

/-- `Step4PendingTable(capacity)`. -/
def initial (capacity : Nat) : PendingRun where table := { capacity := capacity }

def call (s : PendingRun) : PendingCall → PendingRun
  | .beginStep => { s with table := s.table.beginStep, recent := fun _ => false }
  | .get slot =>
    match s.table.get slot with
    | (.error _, t) => { s with table := t }
    | (.ok row, t) => { s with table := t, recent := Function.update s.recent row true }
  | .acquire slot =>
    match s.table.acquire slot with
    | (.error _, t) => { s with table := t }
    | (.ok row, t) =>
      { table := t, recent := Function.update s.recent row true, given := Function.update s.given row (some slot) }
  | .release slot => { s with table := s.table.release slot }
  | .retire slot =>
    { s with
      table := s.table.retire slot
      recent := match s.table.rowOfSlot slot with
        | none => s.recent
        | some row => Function.update s.recent row true }

def run (capacity : Nat) (calls : List PendingCall) : PendingRun := calls.foldl call (initial capacity)

/-- What is asked of the table after some calls. -/
structure Represents (s : PendingRun) : Prop where
  inverse : ∀ slot row, s.table.rowOfSlot slot = some row ↔
    0 ≤ slot ∧ row < s.table.capacity ∧ s.table.slotOfRow row = slot
  owner : ∀ slot row, (s.table.get slot).1 = .ok row → s.given row = some slot
  recycled : ∀ slot row old, 0 ≤ slot → (s.table.acquire slot).1 = .ok row → s.table.slotOfRow row = old → 0 ≤ old →
    old ≠ slot → s.recent row = false
  raises : ∀ slot e, 0 ≤ slot → (s.table.acquire slot).1 = .error e →
    (∀ row < s.table.capacity, 0 ≤ s.table.slotOfRow row ∧ s.recent row = true) ∧ (s.table.acquire slot).2 = s.table

end PendingRun

/-- A mapped row has the stamp of its last call: of this step if that was in this step, and of an earlier one otherwise. -/
structure Stamped (t : Step4PendingTable) (recent : Nat → Bool) (given : Nat → Option Int) : Prop where
  wf : t.Wf
  given : ∀ slot row, t.rowOfSlot slot = some row → given row = some (slot : Int)
  current : ∀ slot row, t.rowOfSlot slot = some row → recent row = true →
    t.touched row = t.step ∨ t.touched row = t.step - retireOffset
  past : ∀ slot row, t.rowOfSlot slot = some row → recent row = false →
    t.touched row < t.step ∧ (t.touched row < 0 → t.touched row + retireOffset < t.step)

variable {t t' : Step4PendingTable} {recent : Nat → Bool} {given : Nat → Option Int} {slot row : Nat}

/-! ## One call -/

theorem Stamped.beginStep (h : Stamped t recent given) : Stamped t.beginStep (fun _ => false) given where
  wf := beginStep_wf h.wf
  given := h.given
  current := by simp
  past slot row hs _ := by
    have := h.wf.stamped slot row hs
    simp only [Step4PendingTable.beginStep]
    omega

/-- A call that touches a mapped row and gives it to nobody else. -/
theorem Stamped.touch (h : Stamped t recent given) (hs : t.rowOfSlot slot = some row) {given' : Nat → Option Int}
    (hgiven : given' = given ∨ given' = Function.update given row (some (slot : Int))) :
    Stamped (t.touch row) (Function.update recent row true) given' where
  wf := (TouchedFrom.touch_mapped (.refl h.wf) hs).wf
  given slot' row' hs' := by
    have hold := h.given slot' row' hs'
    rcases hgiven with rfl | rfl
    · exact hold
    · simp only [Function.update_apply]
      split
      · rename_i he
        subst he
        rw [h.wf.slot_inj hs' hs]
      · exact hold
  current slot' row' hs' hrec := by
    simp only [Step4PendingTable.touch, Function.update_apply] at hrec ⊢
    split at hrec
    · exact .inl (if_pos ‹_›)
    · rw [if_neg ‹_›]
      exact h.current slot' row' hs' hrec
  past slot' row' hs' hrec := by
    simp only [Step4PendingTable.touch, Function.update_apply] at hrec ⊢
    split at hrec
    · cases hrec
    · rw [if_neg ‹_›]
      exact h.past slot' row' hs' hrec

/-- After a claim, the new region has the row with a stamp of this step; every other mapped row is as it was. -/
theorem mapped_of_claim (hwf : t.Wf) (hm : t.rowOfSlot slot = none) (hc : Claim t slot row t')
    {slot' row' : Nat} (hs : t'.rowOfSlot slot' = some row') :
    (slot' = slot ∧ row' = row ∧ t'.touched row' = t.step) ∨
    (row' ≠ row ∧ t.rowOfSlot slot' = some row' ∧ t'.touched row' = t.touched row') := by
  have hwf' := TouchedFrom.wf_claim hwf hm hc
  have hnew : t'.rowOfSlot slot = some row := by cases hc <;> simp
  by_cases he : slot' = slot
  · subst he
    rw [hnew] at hs
    cases hs
    exact .inl ⟨rfl, rfl, by cases hc <;> simp⟩
  · have hne : row' ≠ row := by
      intro heq
      subst heq
      exact he (hwf'.slot_inj hs hnew)
    refine .inr ⟨hne, ?_⟩
    cases hc with
    | free hlt hfree =>
      simp only [Function.update_of_ne he] at hs
      exact ⟨hs, by simp [Function.update_of_ne hne]⟩
    | @recycled old hlt hold hfull hage hoff =>
      simp only [Function.update_of_ne he, Function.update_apply] at hs
      split at hs
      · cases hs
      · exact ⟨hs, by simp [Function.update_of_ne hne]⟩

theorem Stamped.acquire (h : Stamped t recent given) (hacq : t.acquire slot = .ok (row, t')) :
    Stamped t' (Function.update recent row true) (Function.update given row (some (slot : Int))) := by
  cases hm : t.rowOfSlot slot with
  | some row' =>
    rw [acquire_mapped hm] at hacq
    cases hacq
    exact h.touch hm (.inr rfl)
  | none =>
    have hc := acquire_ok hm hacq
    have hstep : t'.step = t.step := by cases hc <;> rfl
    refine ⟨TouchedFrom.wf_claim h.wf hm hc, ?_, ?_, ?_⟩
    · intro slot' row' hs
      rcases mapped_of_claim h.wf hm hc hs with ⟨rfl, rfl, -⟩ | ⟨hne, hs, -⟩
      · simp
      · simpa [Function.update_of_ne hne] using h.given slot' row' hs
    · intro slot' row' hs hrec
      rw [hstep]
      rcases mapped_of_claim h.wf hm hc hs with ⟨-, -, hnow⟩ | ⟨hne, hs, hsame⟩
      · exact .inl hnow
      · rw [hsame]
        exact h.current slot' row' hs (by simpa [Function.update_of_ne hne] using hrec)
    · intro slot' row' hs hrec
      rw [hstep]
      rcases mapped_of_claim h.wf hm hc hs with ⟨-, rfl, -⟩ | ⟨hne, hs, hsame⟩
      · simp at hrec
      · rw [hsame]
        exact h.past slot' row' hs (by simpa [Function.update_of_ne hne] using hrec)

theorem rowOfSlot_of_release (hwf : t.Wf) {slot' row' : Nat} (hs : (t.release slot).rowOfSlot slot' = some row') :
    t.rowOfSlot slot' = some row' ∧ (t.release slot).touched row' = t.touched row' ∧ (t.release slot).step = t.step := by
  cases hm : t.rowOfSlot slot with
  | none =>
    simp only [Step4PendingTable.release, hm] at hs ⊢
    exact ⟨hs, trivial, trivial⟩
  | some row =>
    simp only [Step4PendingTable.release, hm, Function.update_apply] at hs ⊢
    split at hs
    · cases hs
    · refine ⟨hs, if_neg ?_, trivial⟩
      intro he
      subst he
      exact ‹¬slot' = slot› (hwf.slot_inj hs hm)

theorem Stamped.release (h : Stamped t recent given) : Stamped (t.release slot) recent given where
  wf := release_wf h.wf
  given slot' row' hs := h.given slot' row' (rowOfSlot_of_release h.wf hs).1
  current slot' row' hs hrec := by
    obtain ⟨hs, hsame, hstep⟩ := rowOfSlot_of_release h.wf hs
    rw [hsame, hstep]
    exact h.current slot' row' hs hrec
  past slot' row' hs hrec := by
    obtain ⟨hs, hsame, hstep⟩ := rowOfSlot_of_release h.wf hs
    rw [hsame, hstep]
    exact h.past slot' row' hs hrec

theorem Stamped.retire (h : Stamped t recent given) (hm : t.rowOfSlot slot = some row) :
    Stamped (t.retire slot) (Function.update recent row true) given := by
  have hwf : (t.retire slot).Wf := retire_wf h.wf
  simp only [Step4PendingTable.retire, hm] at hwf ⊢
  refine ⟨hwf, h.given, ?_, ?_⟩
  · intro slot' row' hs hrec
    simp only [Function.update_apply] at hrec ⊢
    split at hrec
    · exact .inr (if_pos ‹_›)
    · rw [if_neg ‹_›]
      exact h.current slot' row' hs hrec
  · intro slot' row' hs hrec
    simp only [Function.update_apply] at hrec ⊢
    split at hrec
    · cases hrec
    · rw [if_neg ‹_›]
      exact h.past slot' row' hs hrec

/-- While retirement marks are negative, a row is older than the current step exactly if no call of the step was on it. -/
theorem Stamped.age_lt (h : Stamped t recent given) (hstep : (t.step : Int) < retireOffset) (hs : t.rowOfSlot slot = some row) :
    t.age row < t.step ↔ recent row = false := by
  rw [age_eq]
  cases hrec : recent row with
  | true =>
    have := h.current slot row hs hrec
    simp only [reduceCtorEq, iff_false]
    split <;> omega
  | false =>
    have := h.past slot row hs hrec
    simp only [iff_true]
    split <;> omega

namespace PendingRun

/-- What every run keeps: its table's stamps, and no mapping for a slot that is no region's. -/
structure Kept (s : PendingRun) : Prop where
  stamped : Stamped s.table.toNat s.recent s.given
  negative : ∀ slot < 0, s.table.rowOfSlot slot = none

variable {s : PendingRun}

theorem kept_initial (capacity : Nat) : (initial capacity).Kept where
  stamped := {
    wf := wf_initial capacity
    given := by simp [initial, IntPendingTable.toNat]
    current := by simp [initial, IntPendingTable.toNat]
    past := by simp [initial, IntPendingTable.toNat] }
  negative _ _ := rfl

theorem Kept.get (h : s.Kept) (slot : Nat) : (s.call (.get slot)).Kept := by
  have hneg : ∀ slot' < 0, (s.table.get slot).2.rowOfSlot slot' = none :=
    fun slot' hs => s.table.get_none (h.negative slot' hs)
  have hr := s.table.get_refines slot
  unfold PendingRun.call
  simp only
  generalize s.table.get slot = r at hr hneg
  match r with
  | (.error e, t) =>
    obtain ⟨-, rfl⟩ := hr
    exact h
  | (.ok row, t) =>
    obtain ⟨hs, ht⟩ := get_ok (show s.table.toNat.get slot = .ok (row, t.toNat) from hr)
    refine ⟨?_, hneg⟩
    simp only [ht]
    exact h.stamped.touch hs (.inl rfl)

theorem Kept.acquire (h : s.Kept) (slot : Nat) : (s.call (.acquire slot)).Kept := by
  have hneg : ∀ slot' < 0, (s.table.acquire slot).2.rowOfSlot slot' = none :=
    fun slot' hs => s.table.acquire_none (show slot' ≠ (slot : Int) by omega) (h.negative slot' hs)
  have hr := s.table.acquire_refines slot
  unfold PendingRun.call
  simp only
  generalize s.table.acquire slot = r at hr hneg
  match r with
  | (.error e, t) =>
    obtain ⟨-, rfl⟩ := hr
    exact h
  | (.ok row, t) => exact ⟨h.stamped.acquire hr, hneg⟩

theorem Kept.release (h : s.Kept) (slot : Nat) : (s.call (.release slot)).Kept where
  stamped := by
    simp only [PendingRun.call, IntPendingTable.toNat_release]
    exact h.stamped.release
  negative slot' hs := s.table.release_none (h.negative slot' hs)

theorem Kept.retire (h : s.Kept) (slot : Nat) : (s.call (.retire slot)).Kept where
  stamped := by
    simp only [PendingRun.call, IntPendingTable.toNat_retire]
    cases hm : s.table.rowOfSlot slot with
    | none =>
      have hm' : s.table.toNat.rowOfSlot slot = none := hm
      simpa [Step4PendingTable.retire, hm'] using h.stamped
    | some row => exact h.stamped.retire hm
  negative slot' hs := s.table.retire_none (h.negative slot' hs)

theorem Kept.call (h : s.Kept) {c : PendingCall} (hc : c.OnRegion) : (s.call c).Kept := by
  cases c with
  | beginStep => exact ⟨h.stamped.beginStep, h.negative⟩
  | get slot =>
    obtain ⟨slot, rfl⟩ := Int.eq_ofNat_of_zero_le hc
    exact h.get slot
  | acquire slot =>
    obtain ⟨slot, rfl⟩ := Int.eq_ofNat_of_zero_le hc
    exact h.acquire slot
  | release slot =>
    obtain ⟨slot, rfl⟩ := Int.eq_ofNat_of_zero_le hc
    exact h.release slot
  | retire slot =>
    obtain ⟨slot, rfl⟩ := Int.eq_ofNat_of_zero_le hc
    exact h.retire slot

/-! ## Runs -/

theorem kept_run (capacity : Nat) {calls : List PendingCall} (hc : ∀ c ∈ calls, c.OnRegion) : (run capacity calls).Kept := by
  induction calls using List.reverseRecOn with
  | nil => exact kept_initial capacity
  | append_singleton calls c ih =>
    unfold run at ih ⊢
    rw [List.foldl_append]
    exact (ih fun d hd => hc d (List.mem_append_left _ hd)).call (hc c (by simp))

theorem step_call (s : PendingRun) (c : PendingCall) :
    (s.call c).table.step = s.table.step + if c = .beginStep then 1 else 0 := by
  cases c with
  | beginStep => rfl
  | get slot =>
    have := s.table.step_get slot
    simp only [PendingRun.call]
    split <;> simp_all
  | acquire slot =>
    have := s.table.step_acquire slot
    simp only [PendingRun.call]
    split <;> simp_all
  | release slot => exact s.table.step_release slot
  | retire slot => exact s.table.step_retire slot

theorem step_run (capacity : Nat) (calls : List PendingCall) : (run capacity calls).table.step = calls.count .beginStep := by
  induction calls using List.reverseRecOn with
  | nil => rfl
  | append_singleton calls c ih =>
    unfold run at ih ⊢
    rw [List.foldl_append, List.count_append, List.count_singleton, ← ih, List.foldl_cons, List.foldl_nil, step_call]
    simp only [beq_iff_eq]

theorem Kept.represents (h : s.Kept) (hstep : (s.table.step : Int) < retireOffset) : s.Represents := by
  have hwf := h.stamped.wf
  have hentry : ∀ row n, s.table.toNat.slotOfRow row = some n ↔ s.table.slotOfRow row = n :=
    fun row n => IntPendingTable.entry_eq_some
  constructor
  · intro slot row
    by_cases hneg : slot < 0
    · simp only [h.negative slot hneg, reduceCtorEq, false_iff]
      omega
    · obtain ⟨slot, rfl⟩ := Int.eq_ofNat_of_zero_le (Int.not_lt.mp hneg)
      have := hwf.inverse slot row
      rw [hentry] at this
      exact this.trans ⟨fun hr => ⟨Int.natCast_nonneg _, hr⟩, fun hr => hr.2⟩
  · intro slot row hget
    by_cases hneg : slot < 0
    · simp [IntPendingTable.get, h.negative slot hneg] at hget
    · obtain ⟨slot, rfl⟩ := Int.eq_ofNat_of_zero_le (Int.not_lt.mp hneg)
      have hr := s.table.get_refines slot
      generalize s.table.get slot = r at hr hget
      obtain ⟨_, t⟩ := r
      cases hget
      exact h.stamped.given slot row (get_ok hr).1
  · intro slot row old hslot hacq hold hpos hne
    obtain ⟨slot, rfl⟩ := Int.eq_ofNat_of_zero_le hslot
    obtain ⟨old, rfl⟩ := Int.eq_ofNat_of_zero_le hpos
    have hold := (hentry row old).mpr hold
    have hr := s.table.acquire_refines slot
    generalize s.table.acquire slot = r at hr hacq
    obtain ⟨_, t⟩ := r
    cases hacq
    have hr : s.table.toNat.acquire slot = .ok (row, t.toNat) := hr
    cases hm : s.table.toNat.rowOfSlot slot with
    | some row' =>
      rw [acquire_mapped hm] at hr
      obtain ⟨rfl, -⟩ := Prod.mk.inj (Except.ok.inj hr)
      rw [hwf.slotOfRow_eq hm] at hold
      exact absurd (congrArg Nat.cast (Option.some.inj hold).symm) hne
    | none =>
      have hc := acquire_ok hm hr
      generalize t.toNat = t' at hc
      cases hc with
      | free hlt hfree =>
        rw [hfree] at hold
        cases hold
      | @recycled old' hlt hold' hfull hage hoff =>
        exact (h.stamped.age_lt hstep ((hwf.inverse old' row).mpr ⟨hlt, hold'⟩)).mp hage
  · intro slot e hslot hacq
    obtain ⟨slot, rfl⟩ := Int.eq_ofNat_of_zero_le hslot
    have hr := s.table.acquire_refines slot
    generalize s.table.acquire slot = r at hr hacq
    obtain ⟨_, t⟩ := r
    cases hacq
    obtain ⟨hr, rfl⟩ := hr
    refine ⟨?_, rfl⟩
    intro row hlt
    obtain ⟨hmapped, hage⟩ := (acquire_error hr).2.2 row hlt
    obtain ⟨old, hold⟩ := Option.ne_none_iff_exists'.mp hmapped
    have hslot := (hentry row old).mp hold
    refine ⟨by omega, ?_⟩
    by_contra hrec
    have := (h.stamped.age_lt hstep ((hwf.inverse old row).mpr ⟨hlt, hold⟩)).mpr (by simpa using hrec)
    omega

/-- On region slots the table is sound after any calls, as long as the steps do not reach the retirement offset. -/
theorem pending_table_runs (capacity : Nat) (calls : List PendingCall) (hregion : ∀ c ∈ calls, c.OnRegion)
    (hsteps : calls.count .beginStep < 1099511627776) : (run capacity calls).Represents := by
  refine (kept_run capacity hregion).represents ?_
  rw [step_run]
  unfold retireOffset
  omega

/-- One row, retired in the second step: another slot can have it in the fourth. -/
theorem pending_table_runs_retired :
    (run 1 [.beginStep, .acquire 7, .beginStep, .retire 7, .beginStep, .beginStep, .acquire 8]).Represents :=
  pending_table_runs 1 _ (by simp [PendingCall.OnRegion]) (by decide)

theorem run_steps (t : IntPendingTable) (recent : Nat → Bool) (given : Nat → Option Int) (n : Nat) :
    (List.replicate (n + 1) PendingCall.beginStep).foldl call ⟨t, recent, given⟩ =
      ⟨{ t with step := t.step + (n + 1) }, fun _ => false, given⟩ := by
  induction n generalizing t recent with
  | zero => rfl
  | succ n ih =>
    rw [List.replicate_succ, List.foldl_cons]
    simp only [call, IntPendingTable.beginStep]
    rw [ih]
    simp only [Nat.add_assoc, Nat.add_comm 1]

/-- After `1 << 40` steps a row is recycled in the step that retired it, and a slot of `-1` marks its own row free. -/
theorem not_pending_table_runs :
    ¬(run 1 (List.replicate 1099511627776 .beginStep ++ [.acquire 0, .retire 0])).Represents ∧
    ¬(run 1 [.acquire (-1), .acquire 0]).Represents := by
  constructor
  · intro h
    unfold run at h
    rw [List.foldl_append, initial, run_steps _ _ _ 1099511627775] at h
    have := h.recycled 1 0 0 (by decide) (by decide) (by decide) (by decide) (by decide)
    revert this
    decide
  · intro h
    have := h.owner (-1) 0 (by decide)
    revert this
    decide

end PendingRun

end VllmHcu.Step4
