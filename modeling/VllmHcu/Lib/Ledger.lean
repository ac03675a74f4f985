import Mathlib.Data.List.Nodup

/-!
# Resources and their holders

Every resource has one owner. What an owner holds is what it has acquired and not
released, and nothing is released twice.
-/

namespace VllmHcu

/-- `holds` lists for each owner below `n` its resources. -/
structure Ledger {κ : Type} (n : Nat) (owner : κ → Nat) (acquired released : List κ) (holds : Nat → List κ) : Prop where
  holds_nodup : ∀ r < n, (holds r).Nodup
  mem_holds : ∀ r < n, ∀ x, x ∈ holds r ↔ x ∈ acquired ∧ owner x = r ∧ x ∉ released
  released_nodup : released.Nodup
  released_acquired : ∀ x ∈ released, x ∈ acquired
  owner_lt : ∀ x ∈ acquired, owner x < n

namespace Ledger

variable {κ : Type} {n : Nat} {owner : κ → Nat} {acquired released : List κ} {holds holds' : Nat → List κ} {x : κ}

theorem initial : Ledger n owner [] [] fun _ => [] :=
  ⟨fun _ _ => List.nodup_nil, fun _ _ _ => by simp, List.nodup_nil, nofun, nofun⟩

theorem perm (h : Ledger n owner acquired released holds) (hp : ∀ r, (holds' r).Perm (holds r)) :
    Ledger n owner acquired released holds' :=
  ⟨fun r hr => (hp r).nodup_iff.mpr (h.holds_nodup r hr), fun r hr x => (hp r).mem_iff.trans (h.mem_holds r hr x),
    h.released_nodup, h.released_acquired, h.owner_lt⟩

theorem acquire (h : Ledger n owner acquired released holds) (hnew : x ∉ acquired) (hx : owner x < n)
    (hself : (holds' (owner x)).Perm (holds (owner x) ++ [x])) (hother : ∀ r, r ≠ owner x → holds' r = holds r) :
    Ledger n owner (acquired ++ [x]) released holds' := by
  have hnot : x ∉ released := fun hm => hnew (h.released_acquired x hm)
  refine ⟨fun r hr => ?_, fun r hr y => ?_, h.released_nodup, fun y hy => ?_, fun y hy => ?_⟩
  · by_cases hrx : r = owner x
    · subst hrx
      rw [hself.nodup_iff]
      refine List.nodup_append.mpr ⟨h.holds_nodup _ hr, List.nodup_singleton _, fun a ha b hb hab => ?_⟩
      rw [List.mem_singleton.mp hb] at hab
      exact hnew (hab ▸ ((h.mem_holds _ hr a).mp ha).1)
    · rw [hother r hrx]
      exact h.holds_nodup r hr
  · rw [List.mem_append, List.mem_singleton]
    by_cases hrx : r = owner x
    · subst hrx
      rw [hself.mem_iff, List.mem_append, List.mem_singleton, h.mem_holds _ hr y]
      constructor
      · rintro (⟨h₁, h₂⟩ | rfl)
        · exact ⟨.inl h₁, h₂⟩
        · exact ⟨.inr rfl, rfl, hnot⟩
      · rintro ⟨h₁ | h₁, h₂⟩
        · exact .inl ⟨h₁, h₂⟩
        · exact .inr h₁
    · rw [hother r hrx, h.mem_holds r hr y]
      constructor
      · rintro ⟨h₁, h₂⟩
        exact ⟨.inl h₁, h₂⟩
      · rintro ⟨h₁ | rfl, h₂, h₃⟩
        · exact ⟨h₁, h₂, h₃⟩
        · exact absurd h₂.symm hrx
  · exact List.mem_append_left _ (h.released_acquired y hy)
  · rcases List.mem_append.mp hy with hy | hy
    · exact h.owner_lt y hy
    · rw [List.mem_singleton.mp hy]
      exact hx

theorem release {r : Nat} (h : Ledger n owner acquired released holds) (hr : r < n)
    (hself : (holds r).Perm (x :: holds' r)) (hother : ∀ r', r' ≠ r → holds' r' = holds r') :
    Ledger n owner acquired (released ++ [x]) holds' := by
  obtain ⟨hacq, hown, hnot⟩ := (h.mem_holds r hr x).mp (hself.mem_iff.mpr List.mem_cons_self)
  have hnd := List.nodup_cons.mp (hself.nodup_iff.mp (h.holds_nodup r hr))
  refine ⟨fun r' hr' => ?_, fun r' hr' y => ?_, ?_, fun y hy => ?_, h.owner_lt⟩
  · by_cases hrr : r' = r
    · rw [hrr]
      exact hnd.2
    · rw [hother r' hrr]
      exact h.holds_nodup r' hr'
  · rw [List.mem_append, List.mem_singleton, not_or]
    by_cases hrr : r' = r
    · subst hrr
      have hmem := h.mem_holds r' hr' y
      rw [hself.mem_iff, List.mem_cons] at hmem
      constructor
      · intro hy
        obtain ⟨h₁, h₂, h₃⟩ := hmem.mp (.inr hy)
        exact ⟨h₁, h₂, h₃, fun he => hnd.1 (he ▸ hy)⟩
      · rintro ⟨h₁, h₂, h₃, h₄⟩
        exact (hmem.mpr ⟨h₁, h₂, h₃⟩).resolve_left h₄
    · rw [hother r' hrr, h.mem_holds r' hr' y]
      constructor
      · rintro ⟨h₁, h₂, h₃⟩
        exact ⟨h₁, h₂, h₃, fun he => hrr (by rw [← h₂, he, hown])⟩
      · rintro ⟨h₁, h₂, h₃, -⟩
        exact ⟨h₁, h₂, h₃⟩
  · refine List.nodup_append.mpr ⟨h.released_nodup, List.nodup_singleton _, fun a ha b hb hab => ?_⟩
    rw [List.mem_singleton.mp hb] at hab
    exact hnot (hab ▸ ha)
  · rcases List.mem_append.mp hy with hy | hy
    · exact h.released_acquired y hy
    · rw [List.mem_singleton.mp hy]
      exact hacq

end Ledger

end VllmHcu
