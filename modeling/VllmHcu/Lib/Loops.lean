import Mathlib.Data.List.Flatten
import Mathlib.Data.List.Pairwise
import Mathlib.Data.List.Perm.Basic
import Mathlib.Data.List.Perm.Lattice
import Mathlib.Tactic.Common

/-!
# Loops that append

A loop that appends what it makes of each element is a `flatMap`; a test inside
it is a filter before it.
-/

namespace VllmHcu

section
variable {α β γ κ : Type*}

/-! ## Tests -/

theorem flatMap_ite_filter (l : List α) (p : α → Bool) (f : α → List β) :
    (l.flatMap fun a => if p a then f a else []) = (l.filter p).flatMap f := by
  induction l with
  | nil => rfl
  | cons a l ih => by_cases h : p a = true <;> simp [List.flatMap_cons, h, ih]

theorem map_flatMap_filter (l : List α) (p : α → Bool) (f : α → List β) (g : β → γ) :
    (l.flatMap fun a => if p a then (f a).map g else []) = ((l.filter p).flatMap f).map g := by
  rw [flatMap_ite_filter, List.map_flatMap]

theorem flatMap_ite_singleton (l : List α) (p : α → Prop) [DecidablePred p] (f : α → β) :
    (l.flatMap fun a => if p a then [f a] else []) = (l.filter fun a => p a).map f := by
  rw [List.map_eq_flatMap, ← flatMap_ite_filter]
  simp only [decide_eq_true_eq]

theorem flatMap_filter_of_nil {p : α → Bool} {f : α → List β} {l : List α} (h : ∀ a ∈ l, p a = false → f a = []) :
    (l.filter p).flatMap f = l.flatMap f := by
  rw [← flatMap_ite_filter]
  apply List.flatMap_congr
  intro a ha
  cases hp : p a with
  | true => rfl
  | false => exact (h a ha hp).symm

section
variable [DecidableEq κ] {key : α → κ} {l : List α}

theorem flatMap_ite_none (f : α → List β) {k : κ} (h : k ∉ l.map key) :
    (l.flatMap fun a => if key a = k then f a else []) = [] := by
  apply List.flatMap_eq_nil_iff.mpr
  intro a ha
  apply if_neg
  intro he
  exact h (he ▸ List.mem_map_of_mem ha)

theorem flatMap_ite_one (f : α → List β) (hn : (l.map key).Nodup) {a : α} (ha : a ∈ l) :
    (l.flatMap fun b => if key b = key a then f b else []) = f a := by
  induction l with
  | nil => cases ha
  | cons x l ih =>
    rw [List.map_cons, List.nodup_cons] at hn
    rw [List.flatMap_cons]
    obtain rfl | ha := List.mem_cons.mp ha
    · rw [if_pos rfl, flatMap_ite_none f hn.1, List.append_nil]
    · have hne : key x ≠ key a := fun he => hn.1 (he ▸ List.mem_map_of_mem ha)
      rw [if_neg hne, List.nil_append]
      exact ih hn.2 ha

end

/-! ## Orders -/

theorem flatMap_comm_perm (l : List α) (m : List β) (f : α → β → List γ) :
    (l.flatMap fun a => m.flatMap (f a)).Perm (m.flatMap fun b => l.flatMap fun a => f a b) := by
  induction l with
  | nil => simp
  | cons a l ih =>
    rw [List.flatMap_cons]
    refine (ih.append_left _).trans ?_
    exact List.flatMap_append_perm m (f a) fun b => l.flatMap fun a => f a b

theorem flatMap_classes_perm (f : α → Nat) (l : List α) (n : Nat) :
    ((List.range n).flatMap fun r => l.filter fun a => f a = r).Perm (l.filter fun a => f a < n) := by
  induction n with
  | zero => simp
  | succ n ih =>
    rw [List.range_succ, List.flatMap_append, List.flatMap_singleton]
    refine (ih.append_right _).trans ?_
    have hsplit := List.filter_append_perm (fun a => decide (f a < n)) (l.filter fun a => f a < n + 1)
    have hlow : (l.filter fun a => f a < n + 1).filter (fun a => decide (f a < n)) = l.filter fun a => f a < n := by
      rw [List.filter_filter]
      apply List.filter_congr
      intro a _
      rw [← Bool.decide_and]
      exact decide_eq_decide.mpr (by omega)
    have hhigh : (l.filter fun a => f a < n + 1).filter (fun a => !decide (f a < n)) = l.filter fun a => f a = n := by
      rw [List.filter_filter]
      apply List.filter_congr
      intro a _
      rw [← decide_not, ← Bool.decide_and]
      exact decide_eq_decide.mpr (by omega)
    rw [hlow, hhigh] at hsplit
    exact hsplit

/-! ## Elements of the result -/

section
variable {f : α → List β} {c : β} {p : α → Bool}

theorem countP_eq_zero_of_flatMap {l : List α} (hp : ∀ a ∈ l, p a = true ↔ c ∈ f a) (h : c ∉ l.flatMap f) :
    l.countP p = 0 := by
  rw [List.countP_eq_zero]
  intro a ha hpa
  exact h (List.mem_flatMap.mpr ⟨a, ha, (hp a ha).mp hpa⟩)

/-- An element of a flattened list without repetitions is in one of the lists. -/
theorem countP_eq_one_of_flatMap : ∀ {l : List α}, (∀ a ∈ l, p a = true ↔ c ∈ f a) → (l.flatMap f).Nodup →
    c ∈ l.flatMap f → l.countP p = 1
  | [], _, _, h => by cases h
  | a :: l, hp, hn, h => by
    rw [List.flatMap_cons] at hn h
    have hp' : ∀ b ∈ l, p b = true ↔ c ∈ f b := fun b hb => hp b (List.mem_cons_of_mem _ hb)
    by_cases ha : c ∈ f a
    · rw [List.countP_cons_of_pos ((hp a List.mem_cons_self).mpr ha),
        countP_eq_zero_of_flatMap hp' (List.disjoint_of_nodup_append hn ha)]
    · rw [List.countP_cons_of_neg (fun hpa => ha ((hp a List.mem_cons_self).mp hpa))]
      exact countP_eq_one_of_flatMap hp' hn.of_append_right ((List.mem_append.mp h).resolve_left ha)

theorem disjoint_of_nodup_flatMap {l : List α} (h : (l.flatMap f).Nodup) {a b : α} (ha : a ∈ l) (hb : b ∈ l) (hne : a ≠ b) :
    List.Disjoint (f a) (f b) := by
  have : Std.Symm (Function.onFun List.Disjoint f) := ⟨fun _ _ hd => hd.symm⟩
  exact (List.nodup_flatMap.mp h).2.forall ha hb hne

end

end

/-! ## A longer range -/

theorem flatMap_range_add {α : Type*} (f : Nat → List α) (n k : Nat) :
    (List.range (n + k)).flatMap f = (List.range n).flatMap f ++ (List.range k).flatMap fun i => f (n + i) := by
  rw [List.range_add, List.flatMap_append, List.flatMap_map]

theorem filter_range_add {p : Nat → Bool} {n k : Nat} (h : ∀ i < k, p (n + i) = false) :
    (List.range (n + k)).filter p = (List.range n).filter p := by
  have hnil : ((List.range k).map (n + ·)).filter p = [] := by
    apply List.filter_eq_nil_iff.mpr
    intro x hx
    obtain ⟨i, hi, rfl⟩ := List.mem_map.mp hx
    rw [h i (List.mem_range.mp hi)]
    exact Bool.false_ne_true
  rw [List.range_add, List.filter_append, hnil, List.append_nil]

end VllmHcu
