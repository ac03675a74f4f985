import Mathlib.Data.Nat.Init
import Mathlib.Logic.Relation
import Mathlib.Tactic.Common

/-!
# Histories of ordered events

A history performs each event once and after everything it waits for. A memory
location that is written by several events still has a definite value for a
reader, when every other writer comes before the one it reads from or after the
reader itself.
-/

namespace VllmHcu

section
variable {E : Type} (pre : E → E → Prop)

/-- Newest first. -/
inductive Causal : List E → Prop
  | nil : Causal []
  | cons {h : List E} {e : E} : Causal h → e ∉ h → (∀ e', pre e' e → e' ∈ h) → Causal (e :: h)

variable {pre}

theorem Causal.mem_of_pre {h : List E} (hc : Causal pre h) {a b : E} (hab : pre a b) (hb : b ∈ h) : a ∈ h := by
  induction hc with
  | nil => cases hb
  | @cons h e _ _ hpre ih =>
    rcases List.mem_cons.mp hb with rfl | hb
    · exact List.mem_cons_of_mem _ (hpre a hab)
    · exact List.mem_cons_of_mem _ (ih hb)

theorem Causal.mem_of_transGen {h : List E} (hc : Causal pre h) {a b : E} (hab : Relation.TransGen pre a b)
    (hb : b ∈ h) : a ∈ h := by
  induction hab with
  | single hab => exact hc.mem_of_pre hab hb
  | tail _ hbc ih => exact ih (hc.mem_of_pre hbc hb)

theorem Causal.nodup {h : List E} (hc : Causal pre h) : h.Nodup := by
  induction hc with
  | nil => exact List.nodup_nil
  | cons _ hnew _ ih => exact List.nodup_cons.mpr ⟨hnew, ih⟩

theorem Causal.mem_of_ready {h : List E} (hc : Causal pre h) {a e : E} (hready : ∀ e', pre e' e → e' ∈ h)
    (hae : Relation.TransGen pre a e) : a ∈ h := by
  cases hae with
  | single hae => exact hready a hae
  | tail hab hbe => exact hc.mem_of_transGen hab (hready _ hbe)

/-- A counter of the events `f 0`, `f 1`, ... that are performed in this order. -/
theorem counted_cons {f : Nat → E} (hf : Function.Injective f) {h : List E} {n k : Nat}
    (hcount : ∀ j, f j ∈ h ↔ j < n) (hnew : f k ∉ h) (hprev : ∀ j < k, f j ∈ h) :
    k = n ∧ ∀ j, f j ∈ f k :: h ↔ j < n + 1 := by
  have hle : n ≤ k := Nat.le_of_not_lt fun hlt => hnew ((hcount k).mpr hlt)
  have hge : k ≤ n := Nat.le_of_not_lt fun hlt => Nat.lt_irrefl n ((hcount n).mp (hprev n hlt))
  obtain rfl := Nat.le_antisymm hge hle
  refine ⟨rfl, fun j => ?_⟩
  rw [List.mem_cons, hcount j, hf.eq_iff]
  omega

/-- A stamp that events leave in one place, in the order of their stamps: an event has been performed when the stamp in
the place is not below its own. -/
theorem Causal.stamped_cons {ι : Type} {f : ι → E} {due : ι → Nat} {h : List E} (hc : Causal pre h)
    (hlt : ∀ i j, due i < due j → Relation.TransGen pre (f i) (f j)) (heq : ∀ i j, due i = due j → f i = f j) {j : ι}
    (hnew : f j ∉ h) (hready : ∀ e', pre e' (f j) → e' ∈ h) (i : ι) : f i ∈ f j :: h ↔ due i ≤ due j := by
  rcases Nat.lt_trichotomy (due i) (due j) with h' | h' | h'
  · exact ⟨fun _ => Nat.le_of_lt h', fun _ => List.mem_cons_of_mem _ (hc.mem_of_ready hready (hlt i j h'))⟩
  · rw [heq i j h']
    exact ⟨fun _ => Nat.le_of_eq h', fun _ => List.mem_cons_self⟩
  · constructor
    · intro hm
      rcases List.mem_cons.mp hm with hm | hm
      · have hcycle := hlt j i h'
        rw [hm] at hcycle
        exact absurd (hc.mem_of_ready hready hcycle) hnew
      · exact absurd (hc.mem_of_transGen (hlt j i h') hm) hnew
    · intro hle
      omega

/-- Below any event that is missing there is one that waits for nothing any more. -/
theorem exists_ready {h : List E} (μ : E → Nat) (hμ : ∀ a b, pre a b → μ a < μ b) {P : E → Prop}
    (hP : ∀ a b, pre a b → P b → P a) : ∀ {e : E}, P e → e ∉ h → ∃ e, P e ∧ e ∉ h ∧ ∀ e', pre e' e → e' ∈ h := by
  intro e
  induction hn : μ e using Nat.strong_induction_on generalizing e with
  | _ n ih =>
    intro hPe he
    by_cases hall : ∀ e', pre e' e → e' ∈ h
    · exact ⟨e, hPe, he, hall⟩
    · obtain ⟨e', hpre, hout⟩ : ∃ e', pre e' e ∧ e' ∉ h := by
        by_contra hno
        exact hall fun e' hpre => by_contra fun hout => hno ⟨e', hpre, hout⟩
      exact ih (μ e') (hn ▸ hμ e' e hpre) rfl (hP e' e hpre hPe) hout

variable {Loc V : Type} (writes : E → Loc → Option V) (init : Loc → V)

/-- The memory after a history. -/
def memory : List E → Loc → V
  | [], loc => init loc
  | e :: h, loc => (writes e loc).getD (memory h loc)

variable {writes init}

theorem Causal.memory_eq {h : List E} (hc : Causal pre h) {w : E} {loc : Loc} {v : V} (hw : w ∈ h)
    (hv : writes w loc = some v)
    (hall : ∀ w' ∈ h, writes w' loc ≠ none → w' = w ∨ Relation.TransGen pre w' w) :
    memory writes init h loc = v := by
  induction hc with
  | nil => cases hw
  | @cons h e hc hnew hpre ih =>
    by_cases he : e = w
    · simp [memory, he, hv]
    · have hw : w ∈ h := by
        rcases List.mem_cons.mp hw with rfl | hw
        · exact absurd rfl he
        · exact hw
      have hnone : writes e loc = none := by
        by_contra hsome
        rcases hall e List.mem_cons_self hsome with h' | h'
        · exact he h'
        · exact hnew (hc.mem_of_transGen h' hw)
      rw [memory, hnone]
      exact ih hw fun w' hw' => hall w' (List.mem_cons_of_mem _ hw')

theorem Causal.read_eq {h : List E} (hc : Causal pre h) {e w : E} {loc : Loc} {v : V} (he : e ∉ h) (hw : w ∈ h)
    (hv : writes w loc = some v)
    (hall : ∀ w' ∈ h, writes w' loc ≠ none → w' = w ∨ Relation.TransGen pre w' w ∨ Relation.TransGen pre e w') :
    memory writes init h loc = v := by
  refine hc.memory_eq hw hv fun w' hw' hsome => ?_
  rcases hall w' hw' hsome with h' | h' | h'
  · exact .inl h'
  · exact .inr h'
  · exact absurd (hc.mem_of_transGen h' hw') he

end

end VllmHcu
