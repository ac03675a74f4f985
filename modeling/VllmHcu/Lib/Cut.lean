import Mathlib.Data.List.Basic
import Mathlib.Data.List.Range
import Mathlib.Order.Lattice
import Mathlib.Order.Monotone.Basic
import Mathlib.Order.MinMax

/-!
# Cutting off the largest keys

`t` cuts the `budget` largest of some keys off when fewer than `budget` of them
are above it and at least `budget` are not below it. There is only one such key.
With the ties on the cut taken from the front, exactly `budget` entries are
taken, and which ones depends on the order of the keys alone.
-/

namespace VllmHcu

section
variable {α β : Type*} [LinearOrder α] [LinearOrder β] {keys : List α} {budget : Nat} {t : α}

structure Cuts (keys : List α) (budget : Nat) (t : α) : Prop where
  above : keys.countP (t < ·) < budget
  atLeast : budget ≤ keys.countP (t ≤ ·)

theorem Cuts.not_above {t' : α} (h : Cuts keys budget t) (h' : Cuts keys budget t') : ¬ t < t' := by
  intro hlt
  have hmono : keys.countP (t' ≤ ·) ≤ keys.countP (t < ·) := by
    apply List.countP_mono_left
    intro x _ hx
    rw [decide_eq_true_eq] at hx ⊢
    exact hlt.trans_le hx
  have := h.above
  have := h'.atLeast
  omega

theorem Cuts.unique {t' : α} (h : Cuts keys budget t) (h' : Cuts keys budget t') : t = t' :=
  le_antisymm (not_lt.mp (h'.not_above h)) (not_lt.mp (h.not_above h'))

theorem countP_le_split (keys : List α) (t : α) :
    keys.countP (t ≤ ·) = keys.countP (t < ·) + keys.countP (· = t) := by
  induction keys with
  | nil => rfl
  | cons x keys ih =>
    rw [List.countP_cons, List.countP_cons, List.countP_cons, ih]
    rcases lt_trichotomy t x with h | rfl | h
    · simp [h, h.le, h.ne']
      omega
    · simp
      omega
    · simp [h.not_gt, h.not_ge, h.ne]

end

section
variable {α : Type*} [LinearOrder α] (key : Nat → α) (t : α)

/-- Entry `r` is above `t`, or among the first `remaining` entries on it. -/
def taken (remaining r : Nat) : Bool :=
  decide (t < key r) || decide (key r = t) && decide ((List.range r).countP (key · = t) < remaining)

theorem countP_taken (remaining n : Nat) :
    (List.range n).countP (taken key t remaining) =
      (List.range n).countP (t < key ·) + min remaining ((List.range n).countP (key · = t)) := by
  induction n with
  | zero => simp
  | succ n ih =>
    rw [List.range_succ, List.countP_append, List.countP_append, List.countP_append, ih]
    simp only [List.countP_singleton, taken]
    rcases lt_trichotomy t (key n) with h | h | h
    · simp [h, h.ne']
      omega
    · subst h
      simp only [lt_irrefl, decide_false, Bool.false_or, decide_true, Bool.true_and, decide_eq_true_eq, if_true,
        Bool.false_eq_true, if_false]
      by_cases hr : (List.range n).countP (key · = key n) < remaining
      · rw [if_pos hr]
        omega
      · rw [if_neg hr]
        omega
    · simp [h.not_gt, h.ne]

theorem Cuts.countP_taken {n budget : Nat} (h : Cuts ((List.range n).map key) budget t) :
    (List.range n).countP (taken key t (budget - (List.range n).countP (t < key ·))) = budget := by
  obtain ⟨habove, hleast⟩ := h
  rw [countP_le_split] at hleast
  simp only [List.countP_map, Function.comp_def] at habove hleast
  rw [VllmHcu.countP_taken]
  omega

end

/-! ## Bounds of a folded minimum and maximum -/

section
variable {α : Type*} [LinearOrder α]

theorem foldr_min_le {a x : α} {l : List α} (h : x ∈ l) : l.foldr min a ≤ x := by
  induction l with
  | nil => cases h
  | cons y l ih =>
    rcases List.mem_cons.mp h with rfl | h
    · exact min_le_left _ _
    · exact (min_le_right _ _).trans (ih h)

theorem foldr_min_mem (a : α) (l : List α) : l.foldr min a = a ∨ l.foldr min a ∈ l := by
  induction l with
  | nil => exact .inl rfl
  | cons y l ih =>
    rw [List.foldr_cons]
    rcases min_choice y (l.foldr min a) with h | h
    · rw [h]
      exact .inr (List.mem_cons_self ..)
    · rw [h]
      exact ih.imp_right (List.mem_cons_of_mem y)

theorem le_foldr_max {a x : α} {l : List α} (h : x ∈ l) : x ≤ l.foldr max a := by
  induction l with
  | nil => cases h
  | cons y l ih =>
    rcases List.mem_cons.mp h with rfl | h
    · exact le_max_left _ _
    · exact (ih h).trans (le_max_right _ _)

theorem foldr_max_le {a b : α} {l : List α} (ha : a ≤ b) (h : ∀ x ∈ l, x ≤ b) : l.foldr max a ≤ b := by
  induction l with
  | nil => exact ha
  | cons y l ih =>
    exact max_le (h y (List.mem_cons_self ..)) (ih fun x hx => h x (List.mem_cons_of_mem y hx))

end

end VllmHcu
