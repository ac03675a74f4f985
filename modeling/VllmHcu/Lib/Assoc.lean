import Mathlib.Data.List.Nodup
import Mathlib.Tactic.Common

/-!
# Association lists with distinct keys
-/

namespace VllmHcu

section
variable {κ ν : Type*} [DecidableEq κ]

theorem mem_of_lookup {k : κ} {v : ν} : ∀ {l : List (κ × ν)}, l.lookup k = some v → (k, v) ∈ l
  | (k', w) :: l, h => by
    rw [List.lookup_cons] at h
    by_cases he : k = k'
    · subst he
      rw [beq_self_eq_true] at h
      cases h
      exact List.mem_cons_self ..
    · rw [beq_eq_false_iff_ne.mpr he] at h
      exact List.mem_cons_of_mem _ (mem_of_lookup h)

theorem lookup_eq_some {k : κ} {v : ν} : ∀ {l : List (κ × ν)}, (l.map Prod.fst).Nodup →
    (l.lookup k = some v ↔ (k, v) ∈ l)
  | [], _ => by simp
  | (k', w) :: l, h => by
    rw [List.map_cons, List.nodup_cons] at h
    rw [List.lookup_cons]
    by_cases he : k = k'
    · subst he
      rw [beq_self_eq_true]
      constructor
      · intro hs
        cases hs
        exact List.mem_cons_self ..
      · intro hm
        rcases List.mem_cons.mp hm with hm | hm
        · cases hm
          rfl
        · exact absurd (List.mem_map.mpr ⟨_, hm, rfl⟩) h.1
    · rw [beq_eq_false_iff_ne.mpr he]
      dsimp only
      rw [lookup_eq_some h.2, List.mem_cons]
      exact ⟨.inr, fun hm => hm.resolve_left fun hm => he (congrArg Prod.fst hm)⟩

/-- Sets the value of a key: in its place, or behind the others. -/
def insertKey (k : κ) (v : ν) : List (κ × ν) → List (κ × ν)
  | [] => [(k, v)]
  | p :: l => if p.1 = k then (k, v) :: l else p :: insertKey k v l

theorem lookup_insertKey_self (k : κ) (v : ν) : ∀ l : List (κ × ν), (insertKey k v l).lookup k = some v
  | [] => by simp [insertKey]
  | p :: l => by
    unfold insertKey
    split
    · simp
    · rename_i hne
      obtain ⟨k', w⟩ := p
      rw [List.lookup_cons, beq_eq_false_iff_ne.mpr (Ne.symm hne)]
      exact lookup_insertKey_self k v l

theorem lookup_insertKey_of_ne {k k' : κ} (h : k' ≠ k) (v : ν) : ∀ l : List (κ × ν),
    (insertKey k v l).lookup k' = l.lookup k'
  | [] => by simp [insertKey, h]
  | p :: l => by
    obtain ⟨k₀, w⟩ := p
    unfold insertKey
    split
    · rename_i heq
      obtain rfl : k₀ = k := heq
      rw [List.lookup_cons, List.lookup_cons, beq_eq_false_iff_ne.mpr h]
    · rw [List.lookup_cons, List.lookup_cons, lookup_insertKey_of_ne h v l]

theorem mem_insertKey {k : κ} {v : ν} {p : κ × ν} : ∀ {l : List (κ × ν)}, p ∈ insertKey k v l → p = (k, v) ∨ p ∈ l
  | [], h => .inl (List.mem_singleton.mp h)
  | q :: l, h => by
    unfold insertKey at h
    split at h
    · rcases List.mem_cons.mp h with h | h
      · exact .inl h
      · exact .inr (List.mem_cons_of_mem q h)
    · rcases List.mem_cons.mp h with h | h
      · exact .inr (h ▸ List.mem_cons_self)
      · exact (mem_insertKey h).imp_right (List.mem_cons_of_mem q)

theorem keys_insertKey {k : κ} {v : ν} {k' : κ} : ∀ {l : List (κ × ν)},
    k' ∈ (insertKey k v l).map Prod.fst ↔ k' = k ∨ k' ∈ l.map Prod.fst
  | [] => by simp [insertKey]
  | p :: l => by
    unfold insertKey
    split
    · rename_i heq
      rw [List.map_cons, List.map_cons, List.mem_cons, List.mem_cons, heq]
      exact ⟨.imp_right .inr, fun h => h.elim .inl id⟩
    · rw [List.map_cons, List.map_cons, List.mem_cons, List.mem_cons, keys_insertKey]
      exact or_left_comm

theorem nodup_insertKey (k : κ) (v : ν) : ∀ {l : List (κ × ν)}, (l.map Prod.fst).Nodup →
    ((insertKey k v l).map Prod.fst).Nodup
  | [], _ => by simp [insertKey]
  | p :: l, h => by
    rw [List.map_cons, List.nodup_cons] at h
    unfold insertKey
    split
    · rename_i heq
      rw [List.map_cons, List.nodup_cons]
      exact heq ▸ h
    · rename_i hne
      rw [List.map_cons, List.nodup_cons, keys_insertKey, not_or]
      exact ⟨⟨hne, h.1⟩, nodup_insertKey k v h.2⟩

/-- Removes a key. -/
def eraseKey (k : κ) : List (κ × ν) → List (κ × ν)
  | [] => []
  | p :: l => if p.1 = k then l else p :: eraseKey k l

theorem keys_eraseKey {k k' : κ} : ∀ {l : List (κ × ν)}, (l.map Prod.fst).Nodup →
    (k' ∈ (eraseKey k l).map Prod.fst ↔ k' ≠ k ∧ k' ∈ l.map Prod.fst)
  | [], _ => by simp [eraseKey]
  | p :: l, h => by
    rw [List.map_cons, List.nodup_cons] at h
    unfold eraseKey
    rw [List.map_cons, List.mem_cons]
    split
    · rename_i heq
      subst heq
      exact ⟨fun hm => ⟨fun he => h.1 (he ▸ hm), .inr hm⟩, fun ⟨hne, hm⟩ => hm.resolve_left hne⟩
    · rename_i hne
      rw [List.map_cons, List.mem_cons, keys_eraseKey h.2]
      constructor
      · rintro (rfl | ⟨hn, hm⟩)
        · exact ⟨hne, .inl rfl⟩
        · exact ⟨hn, .inr hm⟩
      · rintro ⟨hn, rfl | hm⟩
        · exact .inl rfl
        · exact .inr ⟨hn, hm⟩

theorem mem_of_mem_eraseKey {k : κ} {p : κ × ν} : ∀ {l : List (κ × ν)}, p ∈ eraseKey k l → p ∈ l
  | q :: l, h => by
    unfold eraseKey at h
    split at h
    · exact List.mem_cons_of_mem q h
    · rcases List.mem_cons.mp h with rfl | h
      · exact List.mem_cons_self
      · exact List.mem_cons_of_mem q (mem_of_mem_eraseKey h)

theorem eraseKey_insertKey (k : κ) (v : ν) : ∀ l : List (κ × ν), eraseKey k (insertKey k v l) = eraseKey k l
  | [] => by simp [insertKey, eraseKey]
  | p :: l => by
    by_cases he : p.1 = k
    · simp [insertKey, eraseKey, he]
    · simp [insertKey, eraseKey, he, eraseKey_insertKey k v l]

theorem nodup_eraseKey (k : κ) : ∀ {l : List (κ × ν)}, (l.map Prod.fst).Nodup → ((eraseKey k l).map Prod.fst).Nodup
  | [], _ => by simp [eraseKey]
  | p :: l, h => by
    rw [List.map_cons, List.nodup_cons] at h
    unfold eraseKey
    split
    · exact h.2
    · rw [List.map_cons, List.nodup_cons, keys_eraseKey h.2]
      exact ⟨fun hm => h.1 hm.2, nodup_eraseKey k h.2⟩

theorem lookup_isSome {k : κ} : ∀ {l : List (κ × ν)}, (l.lookup k).isSome = true ↔ k ∈ l.map Prod.fst
  | [] => by simp
  | (k', w) :: l => by
    rw [List.lookup_cons, List.map_cons, List.mem_cons]
    by_cases he : k = k'
    · simp [he]
    · rw [beq_eq_false_iff_ne.mpr he]
      simp [he, lookup_isSome]

/-! ## Values that are lists -/

/-- The values with their keys. -/
def flatValues (l : List (κ × List ν)) : List (κ × ν) := l.flatMap fun p => p.2.map fun v => (p.1, v)

theorem flatValues_insertKey (k : κ) (v : ν) : ∀ l : List (κ × List ν),
    (flatValues (insertKey k ((l.lookup k).getD [] ++ [v]) l)).Perm ((k, v) :: flatValues l)
  | [] => by simp [insertKey, flatValues]
  | (k', vs) :: l => by
    unfold insertKey
    by_cases he : k' = k
    · subst he
      simp only [List.lookup_cons, beq_self_eq_true, if_true, Option.getD_some]
      simp only [flatValues, List.flatMap_cons, List.map_append, List.map_cons, List.map_nil, List.append_assoc]
      exact List.perm_middle
    · rw [if_neg he, List.lookup_cons, beq_eq_false_iff_ne.mpr (Ne.symm he)]
      simp only [flatValues, List.flatMap_cons]
      exact ((flatValues_insertKey k v l).append_left _).trans List.perm_middle

theorem flatValues_eraseKey {k : κ} {vs : List ν} : ∀ {l : List (κ × List ν)}, l.lookup k = some vs →
    (flatValues l).Perm (vs.map (fun v => (k, v)) ++ flatValues (eraseKey k l))
  | (k', ws) :: l, h => by
    unfold eraseKey
    by_cases he : k' = k
    · subst he
      rw [List.lookup_cons, beq_self_eq_true] at h
      cases h
      rw [if_pos rfl]
      exact .refl _
    · rw [if_neg he]
      rw [List.lookup_cons, beq_eq_false_iff_ne.mpr (Ne.symm he)] at h
      simp only [flatValues, List.flatMap_cons]
      refine ((flatValues_eraseKey h).append_left _).trans ?_
      simp only [flatValues, ← List.append_assoc]
      exact List.perm_append_comm.append_right _

end

end VllmHcu
