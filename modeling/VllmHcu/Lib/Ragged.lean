import Mathlib.Algebra.Order.BigOperators.Group.List
import Mathlib.Algebra.Order.Group.Nat
import VllmHcu.Lib.Cut
import Mathlib.Algebra.GroupWithZero.Nat

/-!
# Rows laid out one after the other

The rows of a ragged array are stored flat, with the running sum of their
lengths beside them.
-/

namespace VllmHcu

/-- The running sum of the lengths, from 0. -/
def offsets (lens : List Nat) : List Nat := (List.range (lens.length + 1)).map fun i => (lens.take i).sum

@[simp] theorem offsets_length (lens : List Nat) : (offsets lens).length = lens.length + 1 := by simp [offsets]

theorem offsets_getElem? {lens : List Nat} {i : Nat} (hi : i ≤ lens.length) :
    (offsets lens)[i]? = some (lens.take i).sum := by
  simp [offsets, Nat.lt_succ_of_le hi]

section
variable {α : Type*}

theorem flatten_slice {parts : List (List α)} {i : Nat} {p : List α} (h : parts[i]? = some p) :
    (parts.flatten.take ((parts.map List.length).take (i + 1)).sum).drop ((parts.map List.length).take i).sum = p := by
  induction parts generalizing i with
  | nil => cases h
  | cons q parts ih =>
    cases i with
    | zero =>
      cases h
      simp
    | succ i =>
      have hrow := ih (by simpa using h)
      simp only [List.map_cons, List.take_succ_cons, List.sum_cons, List.flatten_cons]
      rw [List.take_length_add_append, List.drop_length_add_append, hrow]

theorem flatten_getElem? {parts : List (List α)} {i j : Nat} {p : List α} (h : parts[i]? = some p) (hj : j < p.length) :
    parts.flatten[((parts.map List.length).take i).sum + j]? = p[j]? := by
  induction parts generalizing i with
  | nil => cases h
  | cons q parts ih =>
    cases i with
    | zero =>
      cases h
      simp [List.getElem?_append_left hj]
    | succ i =>
      have hrow := ih (by simpa using h)
      simp only [List.map_cons, List.take_succ_cons, List.sum_cons, List.flatten_cons]
      rw [Nat.add_assoc, List.getElem?_append_right (Nat.le_add_right _ _), Nat.add_sub_cancel_left, hrow]

theorem flatten_getElem?_of_length {parts : List (List α)} {w : Nat} (hw : ∀ p ∈ parts, p.length = w) (i : Nat) {j : Nat}
    (hj : j < w) : parts.flatten[i * w + j]? = parts[i]?.bind (·[j]?) := by
  have hlens : parts.map List.length = List.replicate parts.length w :=
    List.eq_replicate_iff.mpr ⟨List.length_map .., fun n hn => by
      obtain ⟨p, hp, rfl⟩ := List.mem_map.mp hn
      exact hw p hp⟩
  cases hi : parts[i]? with
  | some p =>
    have hlt := (List.getElem?_eq_some_iff.mp hi).1
    have hrow := flatten_getElem? hi (hj.trans_eq (hw p (List.mem_of_getElem? hi)).symm)
    rw [hlens, List.take_replicate, Nat.min_eq_left hlt.le, List.sum_replicate_nat] at hrow
    exact hrow
  | none =>
    have hge := List.getElem?_eq_none_iff.mp hi
    rw [List.getElem?_eq_none]
    · rfl
    · rw [List.length_flatten, hlens, List.sum_replicate_nat]
      exact (Nat.mul_le_mul_right w hge).trans (Nat.le_add_right _ _)

theorem exists_row {lens : List Nat} {t : Nat} (ht : t < lens.sum) :
    ∃ i n j, lens[i]? = some n ∧ j < n ∧ t = (lens.take i).sum + j := by
  induction lens generalizing t with
  | nil => cases ht
  | cons n lens ih =>
    by_cases h : t < n
    · exact ⟨0, n, t, rfl, h, by simp⟩
    · rw [List.sum_cons] at ht
      obtain ⟨i, m, j, hi, hj, he⟩ := ih (t := t - n) (by omega)
      refine ⟨i + 1, m, j, hi, hj, ?_⟩
      rw [List.take_succ_cons, List.sum_cons]
      omega

theorem eq_of_sum_eq {l : List Nat} {m : Nat} (hle : ∀ x ∈ l, x ≤ m) (h : l.sum = l.length * m) : ∀ x ∈ l, x = m := by
  induction l with
  | nil => exact nofun
  | cons y l ih =>
    obtain ⟨hy, hl⟩ := List.forall_mem_cons.mp hle
    have hsum : l.sum ≤ l.length * m := by simpa using List.sum_le_card_nsmul l m hl
    rw [List.sum_cons, List.length_cons, Nat.succ_mul] at h
    refine List.forall_mem_cons.mpr ⟨by omega, ih hl (by omega)⟩

theorem foldr_max_mem {l : List Nat} (h : l ≠ []) : l.foldr max 0 ∈ l := by
  induction l with
  | nil => exact absurd rfl h
  | cons y l ih =>
    rw [List.foldr_cons]
    rcases Nat.le_total (l.foldr max 0) y with hle | hle
    · rw [Nat.max_eq_left hle]
      exact List.mem_cons_self
    · rw [Nat.max_eq_right hle]
      by_cases hl : l = []
      · subst hl
        obtain rfl : y = 0 := Nat.le_zero.mp hle
        exact List.mem_cons_self
      · exact List.mem_cons_of_mem _ (ih hl)

end

end VllmHcu
