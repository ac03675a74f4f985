import Mathlib.Data.List.SplitBy
import Mathlib.Data.Set.Basic
import Mathlib.Tactic.Ring

/-!
# Copy descriptors

A descriptor `(src, dst, len)` copies `len` bytes. The meaning of a list of
descriptors is the relation between source and destination bytes, so one long
descriptor and the short ones that it replaces are compared as relations.
-/

namespace VllmHcu

/-- The bytes that a list of descriptors relates. -/
def copies (ds : List (Int × Int × Nat)) : Set (Int × Int) :=
  {c | ∃ d ∈ ds, ∃ k < d.2.2, c = (d.1 + (k : Int), d.2.1 + (k : Int))}

@[simp] theorem copies_nil : copies [] = ∅ := by
  ext c
  simp [copies]

theorem mem_copies_flatMap {α : Type*} {l : List α} {f : α → List (Int × Int × Nat)} {c : Int × Int} :
    c ∈ copies (l.flatMap f) ↔ ∃ a ∈ l, c ∈ copies (f a) := by
  simp only [copies, Set.mem_ofPred_eq, List.mem_flatMap]
  constructor
  · rintro ⟨d, ⟨a, ha, hd⟩, hk⟩
    exact ⟨a, ha, d, hd, hk⟩
  · rintro ⟨a, ha, d, hd, hk⟩
    exact ⟨d, ⟨a, ha, hd⟩, hk⟩

theorem copies_flatMap_congr {α : Type*} {l : List α} {f g : α → List (Int × Int × Nat)}
    (h : ∀ a ∈ l, copies (f a) = copies (g a)) : copies (l.flatMap f) = copies (l.flatMap g) := by
  ext c
  rw [mem_copies_flatMap, mem_copies_flatMap]
  constructor
  · rintro ⟨a, ha, hc⟩
    exact ⟨a, ha, h a ha ▸ hc⟩
  · rintro ⟨a, ha, hc⟩
    exact ⟨a, ha, h a ha ▸ hc⟩

theorem copies_run (src dst : Int) (len n : Nat) :
    copies [(src, dst, len * n)] =
      copies ((List.range n).map fun i : Nat => (src + (i : Int) * len, dst + (i : Int) * len, len)) := by
  ext c
  simp only [copies, Set.mem_ofPred_eq, List.mem_singleton, exists_eq_left, List.mem_map, List.mem_range]
  constructor
  · rintro ⟨k, hk, rfl⟩
    have hlen : 0 < len := Nat.pos_of_mul_pos_right ((Nat.zero_le k).trans_lt hk)
    have hdiv : ((k / len : Nat) : Int) * len + (k % len : Nat) = k := by
      rw [Int.mul_comm]
      exact_mod_cast Nat.div_add_mod k len
    refine ⟨_, ⟨k / len, Nat.div_lt_of_lt_mul hk, rfl⟩, k % len, Nat.mod_lt k hlen, ?_⟩
    rw [Int.add_assoc, Int.add_assoc, hdiv]
  · rintro ⟨_, ⟨i, hi, rfl⟩, j, hj, rfl⟩
    dsimp only at hj
    refine ⟨i * len + j, ?_, ?_⟩
    · calc i * len + j
        _ < (i + 1) * len := by rw [Nat.add_one_mul]; omega
        _ ≤ len * n := by rw [Nat.mul_comm]; exact Nat.mul_le_mul_left len hi
    · push_cast
      rw [Int.add_assoc, Int.add_assoc]

theorem chain_eq_run {l : List (Int × Int)} {a b : Int}
    (h : ((a, b) :: l).IsChain fun x y => y.1 - x.1 == 1 && y.2 - x.2 == 1) :
    (a, b) :: l = (List.range (l.length + 1)).map fun i : Nat => (a + (i : Int), b + (i : Int)) := by
  induction l generalizing a b with
  | nil => simp
  | cons x l ih =>
    obtain ⟨c, d⟩ := x
    rw [List.isChain_cons_cons] at h
    obtain ⟨hstep, hrest⟩ := h
    simp only [Bool.and_eq_true, beq_iff_eq] at hstep
    have hc : c = a + 1 := by omega
    have hd : d = b + 1 := by omega
    rw [List.length_cons, List.range_succ_eq_map, List.map_cons, List.map_map, ih hrest]
    subst hc hd
    congr 1
    · simp
    · apply List.map_congr_left
      intro i _
      simp only [Function.comp_apply, Nat.cast_succ]
      congr 1
      · ring
      · ring

end VllmHcu
