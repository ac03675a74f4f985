import Mathlib.Logic.Basic

/-!
# Runs of a partial step function

A run takes its events one after another and stops at one that is not enabled.
A state predicate kept by every step that meets a condition holds at the end of
every run whose steps meet it.
-/

namespace VllmHcu

section
variable {σ ε : Type} (step : σ → ε → Option σ)

def runFrom : σ → List ε → Option σ
  | s, [] => some s
  | s, e :: es => (step s e).bind fun s' => runFrom s' es

/-- Every step of the run meets `P`. -/
def Along (P : σ → ε → Prop) : σ → List ε → Prop
  | _, [] => True
  | s, e :: es => P s e ∧ ∀ s', step s e = some s' → Along P s' es

instance Along.decidable (P : σ → ε → Prop) [∀ s e, Decidable (P s e)] :
    (s : σ) → (es : List ε) → Decidable (Along step P s es)
  | _, [] => inferInstanceAs (Decidable True)
  | s, e :: es =>
    match h : step s e with
    | none => decidable_of_iff (P s e) ⟨fun hp => ⟨hp, fun s' hs => by rw [h] at hs; cases hs⟩, And.left⟩
    | some s₁ =>
      have := Along.decidable P s₁ es
      decidable_of_iff (P s e ∧ Along step P s₁ es)
        ⟨fun hp => ⟨hp.1, fun s' hs => by rw [h] at hs; cases hs; exact hp.2⟩, fun hp => ⟨hp.1, hp.2 s₁ h⟩⟩

variable {step}

theorem runFrom_cons {s s' : σ} {e : ε} {es : List ε} (h : runFrom step s (e :: es) = some s') :
    ∃ s₁, step s e = some s₁ ∧ runFrom step s₁ es = some s' :=
  Option.bind_eq_some_iff.mp h

theorem runFrom_append {s s' s'' : σ} {es es' : List ε} (h : runFrom step s es = some s')
    (h' : runFrom step s' es' = some s'') : runFrom step s (es ++ es') = some s'' := by
  induction es generalizing s with
  | nil =>
    cases h
    exact h'
  | cons e es ih =>
    obtain ⟨s₁, he, h⟩ := runFrom_cons h
    rw [List.cons_append, runFrom, he]
    exact ih h

theorem Along.and {P Q : σ → ε → Prop} : ∀ {es : List ε} {s : σ}, Along step P s es → Along step Q s es →
    Along step (fun s e => P s e ∧ Q s e) s es
  | [], _, _, _ => trivial
  | _ :: _, _, hP, hQ => ⟨⟨hP.1, hQ.1⟩, fun s' h => (hP.2 s' h).and (hQ.2 s' h)⟩

theorem Along.of_forall {P : σ → ε → Prop} : ∀ {es : List ε} {s : σ}, (∀ e ∈ es, ∀ s, P s e) → Along step P s es
  | [], _, _ => trivial
  | e :: _, s, h => ⟨h e List.mem_cons_self s, fun _ _ => .of_forall fun e' he' => h e' (List.mem_cons_of_mem e he')⟩

theorem run_invariant {I : σ → Prop} {P : σ → ε → Prop}
    (hstep : ∀ s e s', I s → P s e → step s e = some s' → I s') :
    ∀ {es : List ε} {s s' : σ}, I s → Along step P s es → runFrom step s es = some s' → I s'
  | [], s, s', hI, _, hr => by
    cases hr
    exact hI
  | e :: es, s, s', hI, hP, hr => by
    obtain ⟨s₁, he, hr⟩ := runFrom_cons hr
    exact run_invariant hstep (hstep s e s₁ hI hP.1 he) (hP.2 s₁ he) hr

theorem run_kept {I : σ → Prop} (hstep : ∀ s e s', I s → step s e = some s' → I s') :
    ∀ {es : List ε} {s s' : σ}, I s → runFrom step s es = some s' → I s'
  | [], s, s', hI, hr => by
    cases hr
    exact hI
  | e :: es, s, s', hI, hr => by
    obtain ⟨s₁, he, hr⟩ := runFrom_cons hr
    exact run_kept hstep (hstep s e s₁ hI he) hr

/-- Two conditions that agree wherever the run comes are met by the same runs. -/
theorem along_iff {I : σ → Prop} {P Q : σ → ε → Prop} (hiff : ∀ s e, I s → (P s e ↔ Q s e))
    (hkeep : ∀ s e s', I s → P s e → step s e = some s' → I s') :
    ∀ {es : List ε} {s : σ}, I s → (Along step P s es ↔ Along step Q s es)
  | [], _, _ => Iff.rfl
  | e :: es, s, hI => by
    constructor
    · intro ⟨hP, hrest⟩
      exact ⟨(hiff s e hI).mp hP, fun s' hs => (along_iff hiff hkeep (hkeep s e s' hI hP hs)).mp (hrest s' hs)⟩
    · intro ⟨hQ, hrest⟩
      have hP := (hiff s e hI).mpr hQ
      exact ⟨hP, fun s' hs => (along_iff hiff hkeep (hkeep s e s' hI hP hs)).mpr (hrest s' hs)⟩

/-- Events that can all be performed, in some order, one after another. -/
theorem exists_run_all [DecidableEq ε] (hist : σ → List ε) {I : σ → Prop} {P : σ → ε → Prop} {todo : List ε}
    (hnext : ∀ s, I s → ∀ e ∈ todo, e ∉ hist s →
      ∃ e' ∈ todo, ∃ s', e' ∉ hist s ∧ P s e' ∧ step s e' = some s' ∧ hist s' = e' :: hist s ∧ I s') :
    ∀ s, I s → ∃ es s', Along step P s es ∧ runFrom step s es = some s' ∧ I s' ∧ ∀ e ∈ todo, e ∈ hist s' := by
  intro s
  induction hn : (todo.filter fun e => e ∉ hist s).length using Nat.strongRecOn generalizing s with
  | _ n ih =>
    intro hI
    by_cases hall : ∀ e ∈ todo, e ∈ hist s
    · exact ⟨[], s, trivial, rfl, hI, hall⟩
    · obtain ⟨e, he, hout⟩ : ∃ e ∈ todo, e ∉ hist s := by
        simpa using hall
      obtain ⟨e', he', s₁, hnew, hP, hstep, hhist, hI₁⟩ := hnext s hI e he hout
      -- one event fewer is missing
      have hless : (todo.filter fun e => e ∉ hist s₁).length < n := by
        have hfilter : (todo.filter fun e => e ∉ hist s₁) = (todo.filter fun e => e ∉ hist s).filter fun e => e ≠ e' := by
          rw [List.filter_filter]
          refine List.filter_congr fun x _ => ?_
          simp [hhist, not_or, Bool.decide_and]
        rw [hfilter, ← hn]
        refine List.length_filter_lt_length_iff_exists.mpr ⟨e', List.mem_filter.mpr ⟨he', by simpa using hnew⟩, by simp⟩
      obtain ⟨es, s', halong, hrun, hI', hdone⟩ := ih _ hless s₁ rfl hI₁
      refine ⟨e' :: es, s', ⟨hP, fun s₂ h₂ => ?_⟩, ?_, hI', hdone⟩
      · obtain rfl : s₁ = s₂ := Option.some.inj (hstep.symm.trans h₂)
        exact halong
      · rw [runFrom, hstep]
        exact hrun

end

end VllmHcu
