import Mathlib.Data.List.Nodup
import Mathlib.Tactic.Common
import Mathlib.Data.BitVec

/-!
# Words as rows of nibbles

Nibble `i` of a word is its bits `4 * i` up to `4 * i + 3`. A word is known by
its nibbles, and nibbles that are put at different places can be added or
united: the result is the same word.
-/

namespace VllmHcu.Nibbles

section
variable {w : Nat}

def nibble (i : Nat) (x : BitVec w) : BitVec 4 := x.extractLsb' (4 * i) 4

/-- The word that has `v` at place `i` and zeros elsewhere. -/
def lane (w i : Nat) (v : BitVec 4) : BitVec w := v.setWidth w <<< (4 * i)

theorem getLsbD_nibble (i : Nat) (x : BitVec w) (b : Nat) :
    (nibble i x).getLsbD b = (decide (b < 4) && x.getLsbD (4 * i + b)) := by
  unfold nibble
  rw [BitVec.getLsbD_extractLsb']

theorem getLsbD_lane (i : Nat) (v : BitVec 4) (b : Nat) :
    (lane w i v).getLsbD b = (decide (b < w) && !decide (b < 4 * i) && v.getLsbD (b - 4 * i)) := by
  unfold lane
  rw [BitVec.getLsbD_shiftLeft, BitVec.getLsbD_setWidth]
  by_cases hb : b < w
  · have : b - 4 * i < w := by omega
    simp [hb, this]
  · simp [hb]

theorem eq_of_nibbles {n : Nat} {x y : BitVec w} (hw : w ≤ 4 * n) (h : ∀ i < n, nibble i x = nibble i y) : x = y := by
  apply BitVec.eq_of_getLsbD_eq
  intro b hb
  have hn : b / 4 < n := by omega
  have hbit : (nibble (b / 4) x).getLsbD (b % 4) = (nibble (b / 4) y).getLsbD (b % 4) := by rw [h _ hn]
  have hpos : 4 * (b / 4) + b % 4 = b := Nat.div_add_mod b 4
  have hmod : b % 4 < 4 := Nat.mod_lt b (by omega)
  rwa [getLsbD_nibble, getLsbD_nibble, hpos, decide_eq_true hmod, Bool.true_and, Bool.true_and] at hbit

theorem nibble_or (i : Nat) (x y : BitVec w) : nibble i (x ||| y) = nibble i x ||| nibble i y := by
  apply BitVec.eq_of_getLsbD_eq
  intro b hb
  rw [getLsbD_nibble, BitVec.getLsbD_or, BitVec.getLsbD_or, getLsbD_nibble, getLsbD_nibble, decide_eq_true hb]
  rfl

theorem nibble_and (i : Nat) (x y : BitVec w) : nibble i (x &&& y) = nibble i x &&& nibble i y := by
  apply BitVec.eq_of_getLsbD_eq
  intro b hb
  rw [getLsbD_nibble, BitVec.getLsbD_and, BitVec.getLsbD_and, getLsbD_nibble, getLsbD_nibble, decide_eq_true hb]
  rfl

theorem nibble_xor (i : Nat) (x y : BitVec w) : nibble i (x ^^^ y) = nibble i x ^^^ nibble i y := by
  apply BitVec.eq_of_getLsbD_eq
  intro b hb
  rw [getLsbD_nibble, BitVec.getLsbD_xor, BitVec.getLsbD_xor, getLsbD_nibble, getLsbD_nibble, decide_eq_true hb]
  rfl

theorem nibble_zero (i : Nat) : nibble i (0#w) = 0#4 := by
  apply BitVec.eq_of_getLsbD_eq
  intro b _
  rw [getLsbD_nibble, BitVec.getLsbD_zero, BitVec.getLsbD_zero, Bool.and_false]

theorem nibble_lane_self {i : Nat} (hi : 4 * i + 4 ≤ w) (v : BitVec 4) : nibble i (lane w i v) = v := by
  apply BitVec.eq_of_getLsbD_eq
  intro b hb
  have hlt : 4 * i + b < w := by omega
  have hge : ¬ 4 * i + b < 4 * i := by omega
  rw [getLsbD_nibble, getLsbD_lane, Nat.add_sub_cancel_left]
  simp only [hb, hlt, hge, decide_true, decide_false, Bool.not_false, Bool.true_and]

theorem nibble_lane_of_ne {i j : Nat} (h : i ≠ j) (v : BitVec 4) : nibble j (lane w i v) = 0#4 := by
  apply BitVec.eq_of_getLsbD_eq
  intro b hb
  rw [getLsbD_nibble, getLsbD_lane, BitVec.getLsbD_zero]
  rcases Nat.lt_or_gt_of_ne h with hlt | hlt
  · have : v.getLsbD (4 * j + b - 4 * i) = false := BitVec.getLsbD_of_ge v _ (by omega)
    simp [this]
  · have : 4 * j + b < 4 * i := by omega
    simp [this]

/-! ## Sums of lanes -/

variable {ι : Type*}

/-- The union of the lanes of a list. -/
def union (w : Nat) (pos : ι → Nat) (v : ι → BitVec 4) (l : List ι) : BitVec w :=
  l.foldr (fun a x => lane w (pos a) (v a) ||| x) 0#w

theorem union_cons (pos : ι → Nat) (v : ι → BitVec 4) (a : ι) (l : List ι) :
    union w pos v (a :: l) = lane w (pos a) (v a) ||| union w pos v l := rfl

theorem nibble_union_of_not_mem {pos : ι → Nat} {v : ι → BitVec 4} {j : Nat} : ∀ {l : List ι}, j ∉ l.map pos →
    nibble j (union w pos v l) = 0#4
  | [], _ => nibble_zero j
  | a :: l, h => by
    rw [List.map_cons, List.mem_cons, not_or] at h
    rw [union_cons, nibble_or, nibble_lane_of_ne (Ne.symm h.1), nibble_union_of_not_mem h.2]
    rfl

/-- Lanes at different places read back. -/
theorem nibble_union {pos : ι → Nat} {v : ι → BitVec 4} {a : ι} (hw : 4 * pos a + 4 ≤ w) : ∀ {l : List ι},
    (l.map pos).Nodup → a ∈ l → nibble (pos a) (union w pos v l) = v a
  | c :: l, hn, ha => by
    rw [List.map_cons, List.nodup_cons] at hn
    rw [union_cons, nibble_or]
    rcases List.mem_cons.mp ha with rfl | ha
    · rw [nibble_lane_self hw, nibble_union_of_not_mem hn.1, BitVec.or_zero]
    · have hne : pos c ≠ pos a := fun he => hn.1 (he ▸ List.mem_map_of_mem ha)
      rw [nibble_lane_of_ne hne, nibble_union hw hn.2 ha, BitVec.zero_or]

/-- The wrapping sum of lanes at different places has no carry. -/
theorem sum_lanes {n : Nat} (hw : w ≤ 4 * n) {pos : ι → Nat} (v : ι → BitVec 4) : ∀ {l : List ι}, (l.map pos).Nodup →
    (l.map fun a => lane w (pos a) (v a)).sum = union w pos v l
  | [], _ => rfl
  | a :: l, hn => by
    rw [List.map_cons, List.nodup_cons] at hn
    rw [List.map_cons, List.sum_cons, sum_lanes hw v hn.2, union_cons]
    apply BitVec.add_eq_or_of_and_eq_zero
    apply eq_of_nibbles hw
    intro i _
    rw [nibble_and, nibble_zero]
    by_cases hi : pos a = i
    · rw [← hi, nibble_union_of_not_mem hn.1, BitVec.and_zero]
    · rw [nibble_lane_of_ne hi, BitVec.zero_and]

end

/-! ## Shifts and masks on 32-bit words -/

theorem and_fifteen (x : BitVec 32) : x &&& 15#32 = (nibble 0 x).setWidth 32 := by
  have hmask : ∀ b < 32, (15#32).getLsbD b = decide (b < 4) := by decide
  apply BitVec.eq_of_getLsbD_eq
  intro b hb
  rw [BitVec.getLsbD_and, hmask b hb, BitVec.getLsbD_setWidth, getLsbD_nibble, Nat.mul_zero, Nat.zero_add]
  simp [hb, Bool.and_comm]

/-- An arithmetic shift brings no copy of the sign into the low nibble. -/
theorem nibble_zero_sshiftRight {i : Nat} (hi : i < 8) (x : BitVec 32) : nibble 0 (x.sshiftRight (4 * i)) = nibble i x := by
  apply BitVec.eq_of_getLsbD_eq
  intro b hb
  have hlt : 4 * i + b < 32 := by omega
  rw [getLsbD_nibble, getLsbD_nibble, BitVec.getLsbD_sshiftRight]
  simp [hlt, hb]
  omega

theorem sshiftRight_and_fifteen {i : Nat} (hi : i < 8) (x : BitVec 32) :
    x.sshiftRight (4 * i) &&& 15#32 = (nibble i x).setWidth 32 := by
  rw [and_fifteen, nibble_zero_sshiftRight hi]

theorem nibble_zero_setWidth (v : BitVec 4) : nibble 0 (v.setWidth 32) = v := by
  have h := nibble_lane_self (w := 32) (i := 0) (by omega) v
  rwa [lane, Nat.mul_zero, BitVec.shiftLeft_zero] at h

end VllmHcu.Nibbles
