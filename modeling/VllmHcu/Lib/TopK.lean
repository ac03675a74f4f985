import Mathlib.Data.Finset.Card
import Mathlib.Data.Finset.Union
import Mathlib.Algebra.BigOperators.Group.Finset.Basic
import Mathlib.Algebra.Order.BigOperators.Group.Finset
import Mathlib.Data.List.Sort
import Mathlib.Order.Basic
import Mathlib.Order.WithBot

/-!
# The best k

A selection of a finite set is `Best k` when it has `k` elements, or all of
them, and leaves nothing out that scores higher. All best selections have the
same scores, and a best selection among best selections of the parts is a best
selection of the whole.
-/

namespace VllmHcu

section
variable {ι α : Type*} [DecidableEq ι] [LinearOrder α] {f : ι → α} {k : Nat}

/-- The `k` highest of `scores`, in descending order. -/
def kBest (k : Nat) (scores : List α) : List α := (scores.mergeSort fun a b => b ≤ a).take k

structure Best (f : ι → α) (k : Nat) (U S : Finset ι) : Prop where
  subset : S ⊆ U
  card : S.card = min k U.card
  largest : ∀ x ∈ S, ∀ y ∈ U, y ∉ S → f y ≤ f x

omit [DecidableEq ι] in
theorem Best.card_of_left_out {U S : Finset ι} (h : Best f k U S) {y : ι} (hy : y ∈ U) (hyS : y ∉ S) :
    S.card = k := by
  have hlt : S.card < U.card := Finset.card_lt_card ⟨h.subset, fun hle => hyS (hle hy)⟩
  have := h.card
  omega

section
variable {ρ : Type*} [DecidableEq ρ] {R : Finset ρ} {U S : ρ → Finset ι} {T : Finset ι}

theorem min_sum_min (g : ρ → Nat) (R : Finset ρ) : min k (∑ r ∈ R, min k (g r)) = min k (∑ r ∈ R, g r) := by
  induction R using Finset.induction_on with
  | empty => rfl
  | insert r R hr ih =>
    rw [Finset.sum_insert hr, Finset.sum_insert hr]
    omega

theorem Best.of_parts (hdisj : ∀ r ∈ R, ∀ r' ∈ R, r ≠ r' → Disjoint (U r) (U r'))
    (hparts : ∀ r ∈ R, Best f k (U r) (S r)) (h : Best f k (R.biUnion S) T) : Best f k (R.biUnion U) T := by
  refine ⟨fun x hx => ?_, ?_, fun x hx y hy hyT => ?_⟩
  · obtain ⟨r, hr, hxr⟩ := Finset.mem_biUnion.mp (h.subset hx)
    exact Finset.mem_biUnion.mpr ⟨r, hr, (hparts r hr).subset hxr⟩
  · rw [h.card, Finset.card_biUnion fun r hr r' hr' hne => (hdisj r hr r' hr' hne).mono (hparts r hr).subset
        (hparts r' hr').subset, Finset.card_biUnion hdisj, Finset.sum_congr rfl fun r hr => (hparts r hr).card,
      min_sum_min]
  · obtain ⟨r, hr, hyr⟩ := Finset.mem_biUnion.mp hy
    by_cases hyS : y ∈ S r
    · exact h.largest x hx y (Finset.mem_biUnion.mpr ⟨r, hr, hyS⟩) hyT
    · have hcard := (hparts r hr).card_of_left_out hyr hyS
      by_cases hall : S r ⊆ T
      · -- the part fills the selection, so `x` was selected in the same part
        have hT : S r = T := Finset.eq_of_subset_of_card_le hall (by
          have := h.card
          omega)
        exact (hparts r hr).largest x (hT ▸ hx) y hyr hyS
      · obtain ⟨z, hz, hzT⟩ := Finset.not_subset.mp hall
        exact ((hparts r hr).largest z hz y hyr hyS).trans
          (h.largest x hx z (Finset.mem_biUnion.mpr ⟨r, hr, hz⟩) hzT)

end

/-! ## Masked elements -/

theorem Best.unmasked {β : Type*} [LinearOrder β] [OrderBot β] {g : ι → β} {U S : Finset ι} (h : Best g k U S) :
    Best g k (U.filter (g · ≠ ⊥)) (S.filter (g · ≠ ⊥)) := by
  refine ⟨Finset.filter_subset_filter _ h.subset, ?_, fun x hx y hy hyS => ?_⟩
  · have hsub : S.filter (g · ≠ ⊥) ⊆ U.filter (g · ≠ ⊥) := Finset.filter_subset_filter _ h.subset
    have hle := Finset.card_le_card hsub
    have hS := Finset.card_filter_le S (g · ≠ ⊥)
    have hU := Finset.card_filter_le U (g · ≠ ⊥)
    have hcard := h.card
    by_cases hall : ∀ x ∈ S, g x ≠ ⊥
    · rw [Finset.filter_true_of_mem hall] at hle hS ⊢
      omega
    · push Not at hall
      obtain ⟨x, hx, hbot⟩ := hall
      have hback : U.filter (g · ≠ ⊥) ⊆ S.filter (g · ≠ ⊥) := by
        intro y hy
        rw [Finset.mem_filter] at hy ⊢
        refine ⟨?_, hy.2⟩
        by_contra hyS
        have hxy := h.largest x hx y hy.1 hyS
        rw [hbot] at hxy
        exact hy.2 (le_bot_iff.mp hxy)
      have := Finset.card_le_card hback
      omega
  · rw [Finset.mem_filter] at hx hy
    refine h.largest x hx.1 y hy.1 fun hy' => hyS ?_
    rw [Finset.mem_filter]
    exact ⟨hy', hy.2⟩

omit [DecidableEq ι] in
theorem Best.image {κ β : Type*} [DecidableEq κ] [LinearOrder β] {φ : ι → κ} {f : κ → α} {g : ι → β} {U S : Finset ι}
    (h : Best g k U S) (hinj : Set.InjOn φ U) (hg : ∀ i ∈ U, ∀ j ∈ U, g j ≤ g i → f (φ j) ≤ f (φ i)) :
    Best f k (U.image φ) (S.image φ) := by
  refine ⟨Finset.image_subset_image h.subset, ?_, fun x hx y hy hyS => ?_⟩
  · rw [Finset.card_image_of_injOn hinj, Finset.card_image_of_injOn (hinj.mono (Finset.coe_subset.mpr h.subset)),
      h.card]
  · obtain ⟨i, hi, rfl⟩ := Finset.mem_image.mp hx
    obtain ⟨j, hj, rfl⟩ := Finset.mem_image.mp hy
    exact hg i (h.subset hi) j hj (h.largest i hi j hj fun hjS => hyS (Finset.mem_image_of_mem φ hjS))

/-- With distinct scores there is one best selection. -/
theorem Best.unique {U S T : Finset ι} (h : Best f k U S) (hf : Set.InjOn f U) (h' : Best f k U T) : S = T := by
  have hcard : S.card = T.card := h.card.trans h'.card.symm
  refine Finset.eq_of_subset_of_card_le (fun x hx => ?_) hcard.ge
  by_contra hxT
  have hsub : ¬ T ⊆ S := fun hsub => hxT (Finset.eq_of_subset_of_card_le hsub hcard.le ▸ hx)
  obtain ⟨y, hyT, hyS⟩ := Finset.not_subset.mp hsub
  have hyx := h.largest x hx y (h'.subset hyT) hyS
  have hxy := h'.largest y hyT x (h.subset hx) hxT
  exact hyS (hf (h.subset hx) (h'.subset hyT) (le_antisymm hxy hyx) ▸ hx)

theorem best_take {l : List ι} (hn : l.Nodup) (hsorted : l.Pairwise fun x y => f y ≤ f x) :
    Best f k l.toFinset (l.take k).toFinset := by
  refine ⟨fun x hx => ?_, ?_, fun x hx y hy hyS => ?_⟩
  · exact List.mem_toFinset.mpr (List.mem_of_mem_take (List.mem_toFinset.mp hx))
  · rw [List.toFinset_card_of_nodup (hn.sublist (List.take_sublist k l)), List.toFinset_card_of_nodup hn,
      List.length_take]
  · rw [← List.take_append_drop k l] at hsorted hy
    rw [List.mem_toFinset] at hx hy hyS
    have hdrop : y ∈ l.drop k := (List.mem_append.mp hy).resolve_left hyS
    exact (List.pairwise_append.mp hsorted).2.2 x hx y hdrop

/-! ## The scores of a best selection -/

omit [DecidableEq ι] in
theorem mergeSort_descending (l : List ι) : (l.mergeSort fun a b => f b ≤ f a).Pairwise fun a b => f b ≤ f a := by
  have htrans : ∀ a b c : ι, decide (f b ≤ f a) = true → decide (f c ≤ f b) = true → decide (f c ≤ f a) = true := by
    intro a b c hab hbc
    rw [decide_eq_true_eq] at *
    exact hbc.trans hab
  have htotal : ∀ a b : ι, (decide (f b ≤ f a) || decide (f a ≤ f b)) = true := by
    intro a b
    rw [Bool.or_eq_true, decide_eq_true_eq, decide_eq_true_eq]
    exact le_total (f b) (f a)
  simpa using List.pairwise_mergeSort htrans htotal l

theorem kBest_append {A B : List α} (hA : k = A.length ∨ A.length ≤ k ∧ B = []) (h : ∀ a ∈ A, ∀ b ∈ B, b ≤ a)
    {l : List α} (hl : (A ++ B).Perm l) : (kBest k l).Perm A := by
  have hsorted : l.mergeSort (fun a b => b ≤ a) =
      A.mergeSort (fun a b => b ≤ a) ++ B.mergeSort fun a b => b ≤ a := by
    refine List.Perm.eq_of_pairwise (fun a b _ _ hab hba => le_antisymm hba hab)
      (mergeSort_descending (f := id) l) ?_ ?_
    · refine List.pairwise_append.mpr ⟨mergeSort_descending (f := id) A, mergeSort_descending (f := id) B, ?_⟩
      intro a ha b hb
      exact h a (List.mem_mergeSort.mp ha) b (List.mem_mergeSort.mp hb)
    · exact (List.mergeSort_perm l _).trans
        (hl.symm.trans ((List.mergeSort_perm A _).append (List.mergeSort_perm B _)).symm)
  unfold kBest
  rw [hsorted]
  rcases hA with rfl | ⟨hle, rfl⟩
  · rw [List.take_left' (List.length_mergeSort A)]
    exact List.mergeSort_perm A _
  · rw [List.mergeSort_nil, List.append_nil, List.take_of_length_le (by simpa using hle)]
    exact List.mergeSort_perm A _

theorem Best.scores {U S : Finset ι} (h : Best f k U S) {l : List ι} (hn : l.Nodup) (hl : l.toFinset = U)
    {s : List ι} (hsn : s.Nodup) (hs : s.toFinset = S) : (s.map f).Perm (kBest k (l.map f)) := by
  subst hl hs
  have hsplit : (s ++ l.filter fun x => x ∉ s).Perm l := by
    rw [List.perm_ext_iff_of_nodup _ hn]
    · intro x
      have hsub : x ∈ s → x ∈ l := by simpa using @h.subset x
      simp only [List.mem_append, List.mem_filter, decide_eq_true_eq]
      tauto
    · refine List.nodup_append.mpr ⟨hsn, hn.filter _, ?_⟩
      intro x hx y hy he
      simp only [List.mem_filter, decide_eq_true_eq] at hy
      exact hy.2 (he ▸ hx)
  have hcard := h.card
  rw [List.toFinset_card_of_nodup hsn, List.toFinset_card_of_nodup hn] at hcard
  have hlen := hsplit.length_eq
  rw [List.length_append] at hlen
  refine (kBest_append ?_ ?_ (by simpa using hsplit.map f)).symm
  · simp only [List.length_map]
    by_cases hk : k = s.length
    · exact .inl hk
    · refine .inr ⟨by omega, ?_⟩
      rw [List.map_eq_nil_iff]
      apply List.eq_nil_of_length_eq_zero
      simp only [decide_not] at hlen ⊢
      omega
  · intro a ha b hb
    obtain ⟨x, hx, rfl⟩ := List.mem_map.mp ha
    obtain ⟨y, hy, rfl⟩ := List.mem_map.mp hb
    simp only [List.mem_filter] at hy
    exact h.largest x (List.mem_toFinset.mpr hx) y (List.mem_toFinset.mpr hy.1) (by simpa using hy.2)

end

end VllmHcu
