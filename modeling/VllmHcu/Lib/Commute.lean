import Mathlib.Data.List.Basic
import Mathlib.Data.List.Nodup
import VllmHcu.Lib.Loops
import Mathlib.Tactic.Common

/-!
# Interleavings of commuting programs

Programs are lists of operations on one state. When operations of different
programs commute, every interleaving has the effect of running the programs one
after another, in any order.
-/

namespace VllmHcu

section
variable {κ ω S : Type*} (exec : κ → ω → S → S)

/-- The operations of a trace one after another, each tagged with its program. -/
def runTrace (s : S) (tr : List (κ × ω)) : S := tr.foldl (fun s x => exec x.1 x.2 s) s

/-- One program on its own. -/
def runAlone (p : κ) (ops : List ω) (s : S) : S := ops.foldl (fun s o => exec p o s) s

/-- Operations of different programs commute. -/
def Commuting (tr : List (κ × ω)) : Prop :=
  ∀ x ∈ tr, ∀ y ∈ tr, x.1 ≠ y.1 → ∀ s, exec y.1 y.2 (exec x.1 x.2 s) = exec x.1 x.2 (exec y.1 y.2 s)

@[simp] theorem runTrace_nil (s : S) : runTrace exec s [] = s := rfl

@[simp] theorem runTrace_cons (s : S) (x : κ × ω) (tr : List (κ × ω)) :
    runTrace exec s (x :: tr) = runTrace exec (exec x.1 x.2 s) tr := rfl

theorem runTrace_append (s : S) (tr tr' : List (κ × ω)) :
    runTrace exec s (tr ++ tr') = runTrace exec (runTrace exec s tr) tr' := List.foldl_append

theorem runTrace_program (s : S) (p : κ) (ops : List ω) :
    runTrace exec s (ops.map fun o => (p, o)) = runAlone exec p ops s := by
  unfold runTrace runAlone
  rw [List.foldl_map]

variable {exec}

theorem Commuting.mono {tr tr' : List (κ × ω)} (h : Commuting exec tr) (hsub : ∀ x ∈ tr', x ∈ tr) : Commuting exec tr' :=
  fun x hx y hy => h x (hsub x hx) y (hsub y hy)

/-- An operation moves past operations of other programs. -/
theorem exec_runTrace {x : κ × ω} {tr : List (κ × ω)}
    (h : ∀ y ∈ tr, ∀ s, exec y.1 y.2 (exec x.1 x.2 s) = exec x.1 x.2 (exec y.1 y.2 s)) (s : S) :
    runTrace exec (exec x.1 x.2 s) tr = exec x.1 x.2 (runTrace exec s tr) := by
  induction tr generalizing s with
  | nil => rfl
  | cons y tr ih =>
    rw [runTrace_cons, runTrace_cons, h y (List.mem_cons_self ..) s]
    exact ih (fun y hy => h y (List.mem_cons_of_mem _ hy)) _

variable [DecidableEq κ]

/-- The trace runs the operations of each program in their order. -/
def Interleaves (progs : κ → List ω) (tr : List (κ × ω)) : Prop :=
  ∀ p, (tr.filter fun x => decide (x.1 = p)) = (progs p).map fun o => (p, o)

/-- The operations of one program can be moved to the front. -/
theorem runTrace_front {tr : List (κ × ω)} (h : Commuting exec tr) (p : κ) (s : S) :
    runTrace exec s tr = runTrace exec (runTrace exec s (tr.filter fun x => decide (x.1 = p)))
      (tr.filter fun x => !decide (x.1 = p)) := by
  induction tr generalizing s with
  | nil => rfl
  | cons x tr ih =>
    have htail : Commuting exec tr := h.mono fun y hy => List.mem_cons_of_mem _ hy
    rw [runTrace_cons, ih htail]
    by_cases hx : x.1 = p
    · simp only [List.filter_cons, hx, decide_true, Bool.not_true, if_true, Bool.false_eq_true, if_false, runTrace_cons]
    · simp only [List.filter_cons, hx, decide_false, Bool.not_false, if_true, Bool.false_eq_true, if_false, runTrace_cons]
      rw [exec_runTrace]
      intro y hy
      obtain ⟨hy, he⟩ := List.mem_filter.mp hy
      have he : y.1 = p := of_decide_eq_true he
      apply h x (List.mem_cons_self ..) y (List.mem_cons_of_mem _ hy)
      rw [he]
      exact hx

theorem runTrace_order {order : List κ} : ∀ {tr : List (κ × ω)}, Commuting exec tr → order.Nodup → (∀ x ∈ tr, x.1 ∈ order) →
    ∀ s, runTrace exec s tr = runTrace exec s (order.flatMap fun p => tr.filter fun x => decide (x.1 = p)) := by
  induction order with
  | nil =>
    intro tr _ _ hcover s
    have : tr = [] := List.eq_nil_iff_forall_not_mem.mpr fun x hx => List.not_mem_nil (hcover x hx)
    rw [this]
    rfl
  | cons p order ih =>
    intro tr h hnd hcover s
    rw [List.nodup_cons] at hnd
    rw [List.flatMap_cons, runTrace_append, runTrace_front h p, ih (h.mono fun x hx => (List.mem_filter.mp hx).1) hnd.2]
    · congr 1
      apply List.flatMap_congr
      intro q hq
      rw [List.filter_filter]
      apply List.filter_congr
      intro x _
      have hne : q ≠ p := fun he => hnd.1 (he ▸ hq)
      by_cases hx : x.1 = q
      · simp [hx, hne]
      · simp [hx]
    · intro x hx
      obtain ⟨hx, hp⟩ := List.mem_filter.mp hx
      rcases List.mem_cons.mp (hcover x hx) with he | hm
      · simp [he] at hp
      · exact hm

/-- Every interleaving of commuting programs runs them one after another, in any order. -/
theorem Interleaves.sequential {progs : κ → List ω} {tr : List (κ × ω)} (hi : Interleaves progs tr)
    (h : Commuting exec tr) {order : List κ} (hnd : order.Nodup) (hcover : ∀ p, progs p ≠ [] → p ∈ order) (s : S) :
    runTrace exec s tr = order.foldl (fun s p => runAlone exec p (progs p) s) s := by
  rw [runTrace_order h hnd]
  · clear h hnd hcover
    induction order generalizing s with
    | nil => rfl
    | cons p order ih =>
      rw [List.flatMap_cons, runTrace_append, List.foldl_cons, hi p, runTrace_program]
      exact ih _
  · intro x hx
    apply hcover
    intro hnil
    have hfilter := hi x.1
    rw [hnil, List.map_nil, List.filter_eq_nil_iff] at hfilter
    exact hfilter x hx (decide_eq_true rfl)

/-- Programs run one after another are one interleaving of them. -/
theorem sequential_interleaves {progs : κ → List ω} {order : List κ} (hnd : order.Nodup)
    (hcover : ∀ p, progs p ≠ [] → p ∈ order) : Interleaves progs (order.flatMap fun p => (progs p).map fun o => (p, o)) := by
  intro q
  have hone : ∀ p, ((progs p).map fun o => (p, o)).filter (fun x => decide (x.1 = q)) =
      if p = q then (progs p).map fun o => (p, o) else [] := by
    intro p
    by_cases hp : p = q
    · rw [if_pos hp]
      apply List.filter_eq_self.mpr
      intro x hx
      obtain ⟨o, _, rfl⟩ := List.mem_map.mp hx
      exact decide_eq_true hp
    · rw [if_neg hp]
      apply List.filter_eq_nil_iff.mpr
      intro x hx
      obtain ⟨o, _, rfl⟩ := List.mem_map.mp hx
      simpa using hp
  rw [List.filter_flatMap]
  simp only [hone]
  by_cases hq : q ∈ order
  · exact @flatMap_ite_one _ _ _ _ id order (fun p => (progs p).map fun o => (p, o)) (by simpa using hnd) _ hq
  · have hnil : progs q = [] := by
      by_contra hne
      exact hq (hcover q hne)
    rw [hnil, List.map_nil]
    apply List.flatMap_eq_nil_iff.mpr
    intro p hp
    apply if_neg
    rintro rfl
    exact hq hp

end

end VllmHcu
