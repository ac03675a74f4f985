import Mathlib.Data.List.Range
import Mathlib.Tactic.Common

/-!
# Ranges, slices and ranks

Chains of ranges that follow each other, the slice of a sorted list between two
bounds that are found by counting, the place of a value in a filtered range, and what
a read inside a list inherits from its elements.
-/

namespace VllmHcu

/-! ## Chains of ranges -/

/-- Nonempty ranges that cover `[lo, hi)` in order. -/
def Chained : Nat → List (Nat × Nat) → Nat → Prop
  | lo, [], hi => lo = hi
  | lo, run :: runs, hi => run.1 = lo ∧ lo < run.2 ∧ Chained run.2 runs hi

theorem Chained.append {lo mid hi : Nat} {runs runs' : List (Nat × Nat)} (h : Chained lo runs mid)
    (h' : Chained mid runs' hi) : Chained lo (runs ++ runs') hi := by
  induction runs generalizing lo with
  | nil =>
    obtain rfl : lo = mid := h
    exact h'
  | cons run runs ih => exact ⟨h.1, h.2.1, ih h.2.2⟩

theorem Chained.ends {lo hi : Nat} {runs : List (Nat × Nat)} (h : Chained lo runs hi) (hne : runs ≠ []) :
    (runs.map Prod.fst).tail ++ [hi] = runs.map Prod.snd := by
  induction runs generalizing lo with
  | nil => exact absurd rfl hne
  | cons run runs ih =>
    cases runs with
    | nil =>
      obtain rfl : run.2 = hi := h.2.2
      rfl
    | cons next runs =>
      have hrest : runs.map Prod.fst ++ [hi] = next.2 :: runs.map Prod.snd := ih h.2.2 (List.cons_ne_nil _ _)
      have hnext : next.1 = run.2 := h.2.2.1
      change next.1 :: (runs.map Prod.fst ++ [hi]) = run.2 :: next.2 :: runs.map Prod.snd
      rw [hrest, hnext]

theorem Chained.flatMap {lo hi : Nat} {runs : List (Nat × Nat)} (h : Chained lo runs hi) :
    (runs.flatMap fun run => List.range' run.1 (run.2 - run.1)) = List.range' lo (hi - lo) ∧ lo ≤ hi := by
  induction runs generalizing lo with
  | nil =>
    obtain rfl : lo = hi := h
    simp
  | cons run runs ih =>
    obtain ⟨rfl, hlt, hrest⟩ := h
    obtain ⟨hflat, hle⟩ := ih hrest
    refine ⟨?_, by omega⟩
    have hsum : hi - run.1 = (run.2 - run.1) + (hi - run.2) := by omega
    have hstart : run.2 = run.1 + (run.2 - run.1) := by omega
    rw [List.flatMap_cons, hflat, hsum, ← List.range'_append_1, ← hstart]

/-! ## Slices of sorted lists -/

section
variable {α : Type} {key : α → Nat} {xs : List α}

theorem split_countP_lt (h : xs.Pairwise fun a b => key a ≤ key b) (c : Nat) :
    xs.take (xs.countP fun a => decide (key a < c)) = xs.filter (fun a => decide (key a < c)) ∧
      xs.drop (xs.countP fun a => decide (key a < c)) = xs.filter (fun a => !decide (key a < c)) := by
  induction h with
  | nil => simp
  | @cons x xs hx _ ih =>
    by_cases hc : key x < c
    · have hcount : (x :: xs).countP (fun a => decide (key a < c)) = xs.countP (fun a => decide (key a < c)) + 1 :=
        List.countP_cons_of_pos (decide_eq_true hc)
      rw [hcount, List.take_succ_cons, List.drop_succ_cons, ih.1, ih.2]
      simp [hc]
    · have hnone : ∀ a ∈ x :: xs, ¬ key a < c := by
        intro a ha
        rcases List.mem_cons.mp ha with rfl | ha
        · exact hc
        · have := hx a ha
          omega
      have hzero : (x :: xs).countP (fun a => decide (key a < c)) = 0 := by
        rw [List.countP_eq_zero]
        intro a ha
        simpa using hnone a ha
      rw [hzero, List.take_zero, List.drop_zero]
      constructor
      · symm
        rw [List.filter_eq_nil_iff]
        intro a ha
        simpa using hnone a ha
      · symm
        rw [List.filter_eq_self]
        intro a ha
        simpa using hnone a ha

/-- The slice between two bounds holds the entries between their keys. -/
theorem slice_filter (h : xs.Pairwise fun a b => key a ≤ key b) {c d : Nat} (hcd : c ≤ d) :
    (xs.drop (xs.countP fun a => decide (key a < c))).take
        ((xs.countP fun a => decide (key a < d)) - xs.countP fun a => decide (key a < c)) =
      (xs.filter fun a => !decide (key a < c)).filter fun a => decide (key a < d) := by
  have hcount : (xs.countP fun a => decide (key a < d)) - (xs.countP fun a => decide (key a < c)) =
      (xs.filter fun a => !decide (key a < c)).countP fun a => decide (key a < d) := by
    have hsum := List.countP_eq_countP_filter_add xs (fun a => decide (key a < d)) fun a => decide (key a < c)
    have hall : ((xs.filter fun a => decide (key a < c)).countP fun a => decide (key a < d)) =
        xs.countP fun a => decide (key a < c) := by
      rw [List.countP_eq_length_filter (l := xs), List.countP_eq_length]
      intro a ha
      have hlt : key a < c := of_decide_eq_true (List.mem_filter.mp ha).2
      exact decide_eq_true (hlt.trans_le hcd)
    omega
  rw [(split_countP_lt h c).2, hcount, (split_countP_lt (h.filter _) d).1]

end

/-! ## Ranks -/

/-- The number of selected values before a selected value is its place in the list of them. -/
theorem map_rank (sel : Nat → Bool) (n : Nat) :
    (((List.range n).filter sel).map fun r => (List.range r).countP sel) = List.range ((List.range n).countP sel) := by
  induction n with
  | zero => rfl
  | succ n ih =>
    rw [List.range_succ, List.filter_append, List.map_append, ih, List.countP_append]
    by_cases hs : sel n = true
    · simp [hs, List.range_succ]
    · simp [hs]

/-! ## Reads -/

theorem forall_getD {α : Type} {l : List α} {P : α → Prop} (h : ∀ x ∈ l, P x) {i : Nat} (hi : i < l.length) {d : α} :
    P (l.getD i d) := by
  rw [List.getD_eq_getElem?_getD, List.getElem?_eq_getElem hi]
  exact h _ (List.getElem_mem hi)

end VllmHcu
