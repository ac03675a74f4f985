import Mathlib.Data.List.Nodup
import Mathlib.Data.List.Perm.Basic
import Mathlib.Data.List.Range
import Mathlib.Tactic.Common

/-!
# Scattered writes

A tensor is a function of its index. `scatter` performs a list of single
writes in order and `writeSlice` a slice assignment. When no index is written
twice the order of the writes does not matter, and every index reads back the
one value written to it.
-/

namespace VllmHcu

section
variable {κ α : Type*} [DecidableEq κ]

def scatter (f : κ → α) (ws : List (κ × α)) : κ → α :=
  ws.foldl (fun f w => Function.update f w.1 w.2) f

@[simp] theorem scatter_nil (f : κ → α) : scatter f [] = f := rfl

@[simp] theorem scatter_cons (f : κ → α) (w : κ × α) (ws : List (κ × α)) :
    scatter f (w :: ws) = scatter (Function.update f w.1 w.2) ws := rfl

theorem scatter_append (f : κ → α) (ws vs : List (κ × α)) :
    scatter f (ws ++ vs) = scatter (scatter f ws) vs := by
  simp [scatter, List.foldl_append]

theorem scatter_of_not_mem {k : κ} : ∀ {ws : List (κ × α)} (f : κ → α), k ∉ ws.map Prod.fst →
    scatter f ws k = f k
  | [], _, _ => rfl
  | w :: ws, f, h => by
    simp only [List.map_cons, List.mem_cons, not_or] at h
    rw [scatter_cons, scatter_of_not_mem _ h.2, Function.update_of_ne h.1]

theorem scatter_of_mem {k : κ} {v : α} : ∀ {ws : List (κ × α)} (f : κ → α),
    (ws.map Prod.fst).Nodup → (k, v) ∈ ws → scatter f ws k = v
  | w :: ws, f, hn, hm => by
    rw [List.map_cons, List.nodup_cons] at hn
    rw [scatter_cons]
    rcases List.mem_cons.mp hm with rfl | hm
    · rw [scatter_of_not_mem _ hn.1, Function.update_self]
    · exact scatter_of_mem _ hn.2 hm

/-- What is written to an index does not depend on the initial contents. -/
theorem scatter_congr_of_mem {k : κ} : ∀ {ws : List (κ × α)} (f g : κ → α), k ∈ ws.map Prod.fst →
    scatter f ws k = scatter g ws k
  | w :: ws, f, g, h => by
    rw [scatter_cons, scatter_cons]
    by_cases hk : k ∈ ws.map Prod.fst
    · exact scatter_congr_of_mem _ _ hk
    · have hw : k = w.1 := by simpa [hk] using h
      rw [scatter_of_not_mem _ hk, scatter_of_not_mem _ hk, hw, Function.update_self, Function.update_self]

theorem scatter_apply_congr {f g : κ → α} {ws : List (κ × α)} {k : κ} (h : f k = g k) : scatter f ws k = scatter g ws k := by
  by_cases hk : k ∈ ws.map Prod.fst
  · exact scatter_congr_of_mem _ _ hk
  · rw [scatter_of_not_mem _ hk, scatter_of_not_mem _ hk, h]

/-- A read that differs from the initial contents was put there by a write. -/
theorem mem_of_scatter_ne {k : κ} {v : α} : ∀ {ws : List (κ × α)} {f : κ → α},
    scatter f ws k = v → f k ≠ v → (k, v) ∈ ws
  | [], _, h, hne => absurd h hne
  | w :: ws, f, h, hne => by
    by_cases hw : Function.update f w.1 w.2 k = v
    · by_cases hk : k = w.1
      · subst hk
        rw [Function.update_self] at hw
        subst hw
        exact List.mem_cons_self ..
      · rw [Function.update_of_ne hk] at hw
        exact absurd hw hne
    · exact List.mem_cons_of_mem _ (mem_of_scatter_ne h hw)

/-- Writes that agree on an index leave their value there, in whatever order they are made. -/
theorem scatter_eq_of_agree {k : κ} {v : α} : ∀ {ws : List (κ × α)} {f : κ → α},
    (∀ w ∈ ws, w.1 = k → w.2 = v) → (f k = v ∨ ∃ w ∈ ws, w.1 = k) → scatter f ws k = v
  | [], _, _, h => by
    rcases h with h | ⟨w, hw, -⟩
    · exact h
    · cases hw
  | w :: ws, f, hall, h => by
    rw [scatter_cons]
    have hrest : ∀ w' ∈ ws, w'.1 = k → w'.2 = v := fun w' hw => hall w' (List.mem_cons_of_mem _ hw)
    by_cases hk : w.1 = k
    · refine scatter_eq_of_agree hrest (.inl ?_)
      rw [hk, Function.update_self, hall w (List.mem_cons_self ..) hk]
    · apply scatter_eq_of_agree hrest
      rw [Function.update_of_ne (Ne.symm hk)]
      rcases h with h | ⟨w', hw, hk'⟩
      · exact .inl h
      · rcases List.mem_cons.mp hw with he | hw
        · exact absurd (he ▸ hk') hk
        · exact .inr ⟨w', hw, hk'⟩

/-- What holds of the initial contents and of every write holds after the writes. -/
theorem scatter_forall {P : α → Prop} {f : κ → α} {ws : List (κ × α)} {k : κ} (hf : P (f k)) (h : ∀ w ∈ ws, P w.2) :
    P (scatter f ws k) := by
  by_contra hn
  have hne : f k ≠ scatter f ws k := fun he => hn (he ▸ hf)
  exact hn (h _ (mem_of_scatter_ne rfl hne))

/-- Writes to different indices can be made in either order. -/
theorem scatter_comm {ws vs : List (κ × α)} (f : κ → α) (h : ∀ w ∈ ws, ∀ v ∈ vs, w.1 ≠ v.1) :
    scatter (scatter f ws) vs = scatter (scatter f vs) ws := by
  funext k
  by_cases hk : k ∈ ws.map Prod.fst
  · have hv : k ∉ vs.map Prod.fst := by
      intro hv
      obtain ⟨w, hw, rfl⟩ := List.mem_map.mp hk
      obtain ⟨v, hv, he⟩ := List.mem_map.mp hv
      exact h w hw v hv he.symm
    rw [scatter_of_not_mem _ hv]
    exact scatter_congr_of_mem _ _ hk
  · rw [scatter_of_not_mem (scatter f vs) hk]
    by_cases hv : k ∈ vs.map Prod.fst
    · exact scatter_congr_of_mem _ _ hv
    · rw [scatter_of_not_mem _ hv, scatter_of_not_mem _ hv, scatter_of_not_mem _ hk]

/-- A part of each value is scattered like the values. -/
theorem comp_scatter {β : Type*} (g : α → β) : ∀ (ws : List (κ × α)) (f : κ → α),
    (fun k => g (scatter f ws k)) = scatter (fun k => g (f k)) (ws.map fun w => (w.1, g w.2))
  | [], _ => rfl
  | w :: ws, f => by
    rw [scatter_cons, List.map_cons, scatter_cons, comp_scatter g ws]
    congr 1
    funext k
    by_cases hk : k = w.1
    · subst hk
      rw [Function.update_self, Function.update_self]
    · rw [Function.update_of_ne hk, Function.update_of_ne hk]

/-- Two lists of the same writes leave the same contents when no index gets two values. -/
theorem scatter_eq_of_mem_iff {ws vs : List (κ × α)} (f : κ → α) (h : ∀ w, w ∈ ws ↔ w ∈ vs)
    (hf : ∀ w ∈ ws, ∀ v ∈ ws, w.1 = v.1 → w.2 = v.2) : scatter f ws = scatter f vs := by
  funext k
  by_cases hk : ∃ w ∈ ws, w.1 = k
  · obtain ⟨w, hw, rfl⟩ := hk
    rw [scatter_eq_of_agree (fun v hv he => hf v hv w hw he) (.inr ⟨w, hw, rfl⟩)]
    symm
    apply scatter_eq_of_agree
    · intro v hv he
      exact hf v ((h v).mpr hv) w hw he
    · exact .inr ⟨w, (h w).mp hw, rfl⟩
  · have hnot : ∀ {l : List (κ × α)}, (∀ w ∈ l, w ∈ ws) → k ∉ l.map Prod.fst := by
      intro l hl hm
      obtain ⟨w, hw, he⟩ := List.mem_map.mp hm
      exact hk ⟨w, hl w hw, he⟩
    rw [scatter_of_not_mem f (hnot fun w hw => hw), scatter_of_not_mem f (hnot fun w hw => (h w).mpr hw)]

end

/-- Compaction: every selected entry is stored at the number of selected entries before it. -/
theorem scatter_compact {α : Type*} (f : Nat → α) (sel : Nat → Bool) (v : Nat → α) (n k : Nat) :
    scatter f (((List.range n).filter sel).map fun r => ((List.range r).countP sel, v r)) k =
      ((((List.range n).filter sel)[k]?).map v).getD (f k) := by
  induction n with
  | zero => simp
  | succ n ih =>
    rw [List.range_succ, List.filter_append, List.map_append, scatter_append]
    by_cases hs : sel n = true
    · simp only [List.filter_singleton, hs, cond_true, List.map_cons, List.map_nil, scatter_cons, scatter_nil]
      have hlen : (List.range n).countP sel = ((List.range n).filter sel).length := List.countP_eq_length_filter
      by_cases hk : k = ((List.range n).filter sel).length
      · subst hk
        rw [hlen, Function.update_self, List.getElem?_concat_length]
        rfl
      · rw [hlen, Function.update_of_ne hk, ih]
        congr 2
        by_cases hlt : k < ((List.range n).filter sel).length
        · rw [List.getElem?_append_left hlt]
        · rw [List.getElem?_eq_none (by omega), List.getElem?_eq_none (by simp; omega)]
    · simp only [List.filter_singleton, hs, cond_false, List.append_nil, List.map_nil, scatter_nil]
      exact ih

/-- `arr[start : start + len(vals)] = vals`. -/
def writeSlice {α : Type*} (f : Nat → α) (start : Nat) (vals : List α) : Nat → α :=
  scatter f ((List.range' start vals.length).zip vals)

theorem writeSlice_map {α : Type*} (f : Nat → α) (start n : Nat) (h : Nat → α) :
    writeSlice f start ((List.range n).map h) = scatter f ((List.range n).map fun i => (start + i, h i)) := by
  unfold writeSlice
  congr 1
  apply List.ext_getElem
  · simp
  · intro i _ _
    simp

theorem writeSlice_of_lt {α : Type*} (f : Nat → α) {vals : List α} {i : Nat} (hi : i < vals.length) :
    writeSlice f 0 vals i = vals[i] := by
  have hkeys : ((List.range' 0 vals.length).zip vals).map Prod.fst = List.range' 0 vals.length :=
    List.map_fst_zip (by simp)
  unfold writeSlice
  apply scatter_of_mem
  · rw [hkeys]
    exact List.nodup_range'
  · exact List.mem_iff_getElem.mpr ⟨i, by simpa using hi, by simp⟩

theorem writeSlice_of_ge {α : Type*} (f : Nat → α) {vals : List α} {i : Nat} (hi : vals.length ≤ i) :
    writeSlice f 0 vals i = f i := by
  unfold writeSlice
  apply scatter_of_not_mem
  rw [List.map_fst_zip (by simp)]
  simp only [List.mem_range'_1]
  omega

/-- A loop whose body writes the cells `g b` into the tensor `π` writes all of them. -/
theorem foldl_scatter {σ β κ α : Type*} [DecidableEq κ] (π : σ → κ → α) (f : σ → β → σ)
    (g : β → List (κ × α)) (h : ∀ t b, π (f t b) = scatter (π t) (g b)) :
    ∀ (l : List β) (t : σ), π (l.foldl f t) = scatter (π t) (l.flatMap g)
  | [], _ => rfl
  | b :: l, t => by
    rw [List.foldl_cons, foldl_scatter π f g h l, h, List.flatMap_cons, scatter_append]

end VllmHcu
