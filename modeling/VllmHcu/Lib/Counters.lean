import Mathlib.Data.List.Nodup
import Mathlib.Data.List.Pairwise
import Mathlib.Data.List.Perm.Basic
import Mathlib.Tactic.Common

/-!
# Slots handed out by counters

Each taker adds one to the counter of its key and has the slot that the counter
stood at. In whatever order they come, the takers of one key have different
slots, the first of them from where the counter stood at the start.
-/

namespace VllmHcu

section
variable {α κ : Type*} [DecidableEq κ] (key : α → κ)

def bump (counters : κ → Nat) (k : κ) : κ → Nat := fun k' => if k' = k then counters k' + 1 else counters k'

def handOut : (κ → Nat) → List α → List (α × Nat)
  | _, [] => []
  | counters, a :: as => (a, counters (key a)) :: handOut (bump counters (key a)) as

theorem handOut_fst : ∀ (counters : κ → Nat) (as : List α), (handOut key counters as).map Prod.fst = as
  | _, [] => rfl
  | counters, a :: as => congrArg (a :: ·) (handOut_fst (bump counters (key a)) as)

theorem handOut_range {p : α × Nat} : ∀ {counters : κ → Nat} {as : List α}, p ∈ handOut key counters as →
    counters (key p.1) ≤ p.2 ∧ p.2 < counters (key p.1) + as.countP (fun a => key a = key p.1)
  | _, [], h => by cases h
  | counters, a :: as, h => by
    rw [List.countP_cons]
    obtain rfl | h := List.mem_cons.mp h
    · simp
    · have ih := handOut_range h
      unfold bump at ih
      by_cases hk : key a = key p.1
      · rw [hk, if_pos rfl] at ih
        simp only [hk, decide_true, if_true]
        omega
      · rw [if_neg (Ne.symm hk)] at ih
        simp only [hk, decide_false]
        simpa using ih

/-- Every slot up to the number of takers has been handed out. -/
theorem exists_handOut {k : κ} {slot : Nat} : ∀ {counters : κ → Nat} {as : List α}, counters k ≤ slot →
    slot < counters k + as.countP (fun a => key a = k) → ∃ p ∈ handOut key counters as, key p.1 = k ∧ p.2 = slot
  | counters, [], hlo, hhi => by
    rw [List.countP_nil] at hhi
    omega
  | counters, a :: as, hlo, hhi => by
    rw [List.countP_cons] at hhi
    by_cases hk : key a = k
    · by_cases hslot : counters k = slot
      · exact ⟨(a, counters (key a)), List.mem_cons_self, hk, by rw [hk, hslot]⟩
      · simp only [hk, decide_true, if_true] at hhi
        have hbump : bump counters (key a) k = counters k + 1 := if_pos hk.symm
        obtain ⟨p, hp, hkey⟩ : ∃ p ∈ handOut key (bump counters (key a)) as, key p.1 = k ∧ p.2 = slot :=
          exists_handOut (by omega) (by omega)
        exact ⟨p, List.mem_cons_of_mem _ hp, hkey⟩
    · simp only [hk, decide_false, Bool.false_eq_true, if_false] at hhi
      have hbump : bump counters (key a) k = counters k := if_neg (Ne.symm hk)
      obtain ⟨p, hp, hkey⟩ : ∃ p ∈ handOut key (bump counters (key a)) as, key p.1 = k ∧ p.2 = slot :=
        exists_handOut (by omega) (by omega)
      exact ⟨p, List.mem_cons_of_mem _ hp, hkey⟩

/-- Of two takers of one key the later one has the larger slot. -/
theorem handOut_increasing : ∀ (counters : κ → Nat) (as : List α),
    (handOut key counters as).Pairwise fun p q => key p.1 = key q.1 → p.2 < q.2
  | _, [] => .nil
  | counters, a :: as => by
    refine List.pairwise_cons.mpr ⟨fun q hq hk => ?_, handOut_increasing (bump counters (key a)) as⟩
    have hlow := (handOut_range key hq).1
    unfold bump at hlow
    rw [if_pos hk.symm] at hlow
    change counters (key a) < q.2
    rw [hk]
    exact hlow

theorem handOut_distinct {counters : κ → Nat} {as : List α} {p q : α × Nat} (hp : p ∈ handOut key counters as)
    (hq : q ∈ handOut key counters as) (hk : key p.1 = key q.1) (hne : p.1 ≠ q.1) : p.2 ≠ q.2 := by
  have hsym : (handOut key counters as).Pairwise fun p q => key p.1 = key q.1 → p.2 ≠ q.2 :=
    (handOut_increasing key counters as).imp fun h hk => Nat.ne_of_lt (h hk)
  have : Std.Symm fun p q : α × Nat => key p.1 = key q.1 → p.2 ≠ q.2 := ⟨fun _ _ h hk => (h hk.symm).symm⟩
  exact hsym.forall hp hq (fun he => hne (congrArg Prod.fst he)) hk

end

end VllmHcu
