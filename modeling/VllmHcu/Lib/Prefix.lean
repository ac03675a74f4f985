import Mathlib.Algebra.BigOperators.Group.List.Basic
import Mathlib.Algebra.Order.Group.Int
import Mathlib.Tactic.Common
import Mathlib.Algebra.Ring.Int.Defs
import Mathlib.Algebra.GroupWithZero.Nat

/-!
# Prefix sums and positions in a sorted array
-/

namespace VllmHcu

theorem lt_countP_range {p : Nat → Bool} (hp : ∀ i j, i ≤ j → p j = true → p i = true) (n r : Nat) :
    r < (List.range n).countP p ↔ r < n ∧ p r = true := by
  induction n with
  | zero => simp
  | succ n ih =>
    rw [List.range_succ, List.countP_append, List.countP_singleton]
    by_cases hn : p n = true
    · have hall : (List.range n).countP p = n := by
        rw [List.countP_eq_length.mpr, List.length_range]
        intro i hi
        exact hp i n (List.mem_range.mp hi).le hn
      rw [hall, if_pos hn]
      exact ⟨fun h => ⟨h, hp r n (by omega) hn⟩, fun h => h.1⟩
    · rw [if_neg hn, Nat.add_zero, ih]
      refine ⟨fun h => ⟨by omega, h.2⟩, fun h => ⟨?_, h.2⟩⟩
      have hne : r ≠ n := fun heq => hn (heq ▸ h.2)
      omega

section
variable {l : List Int}

theorem sum_take_succ (l : List Int) (r : Nat) : (l.take (r + 1)).sum = (l.take r).sum + l.getD r 0 := by
  rw [List.take_add_one, List.sum_append, List.getD_eq_getElem?_getD]
  cases l[r]? with
  | none => simp
  | some x => simp

theorem sum_take_mono (hl : ∀ x ∈ l, 0 ≤ x) {i j : Nat} (hij : i ≤ j) : (l.take i).sum ≤ (l.take j).sum := by
  induction j, hij using Nat.le_induction with
  | base => exact le_refl _
  | succ j _ ih =>
    rw [sum_take_succ]
    have : 0 ≤ l.getD j 0 := by
      rw [List.getD_eq_getElem?_getD]
      cases hj : l[j]? with
      | none => simp
      | some x => exact hl x (List.mem_of_getElem? hj)
    omega

theorem sum_take_nonneg (hl : ∀ x ∈ l, 0 ≤ x) (i : Nat) : 0 ≤ (l.take i).sum := by
  have := sum_take_mono hl (Nat.zero_le i)
  simpa using this

end

theorem sum_indicator {a c : Nat} (hac : a ≤ c) (n : Nat) :
    ((List.range n).map fun j => if a ≤ j ∧ j < c then (1 : Int) else 0).sum = (min c n : Nat) - (min a n : Nat) := by
  induction n with
  | zero => simp
  | succ n ih =>
    rw [List.range_succ, List.map_append, List.sum_append, ih, List.map_singleton, List.sum_singleton]
    split <;> omega

theorem le_of_steps {β : Type*} [Preorder β] {f : Nat → β} {n : Nat} (h : ∀ i < n, f i ≤ f (i + 1)) {a b : Nat} (hab : a ≤ b)
    (hb : b ≤ n) : f a ≤ f b := by
  induction hab with
  | refl => exact le_refl _
  | step hab ih => exact (ih (Nat.le_of_succ_le hb)).trans (h _ hb)

/-- A sequence that starts at or below a value and ends above it steps over the value. -/
theorem exists_crossing {β : Type*} [LinearOrder β] {f : Nat → β} {x : β} : ∀ {n : Nat}, f 0 ≤ x → x < f n → ∃ d < n, f d ≤ x ∧ x < f (d + 1)
  | 0, h0, hn => absurd hn (not_lt.mpr h0)
  | n + 1, h0, hn => by
    by_cases hlt : x < f n
    · obtain ⟨d, hd, hin⟩ := exists_crossing h0 hlt
      exact ⟨d, by omega, hin⟩
    · exact ⟨n, Nat.lt_succ_self n, not_lt.mp hlt, hn⟩

end VllmHcu
