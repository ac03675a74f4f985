import Mathlib.Order.Interval.Set.Disjoint
import Mathlib.Data.List.Nodup
import Mathlib.Order.CompletePartialOrder
import Mathlib.Algebra.GroupWithZero.Nat

/-!
# Families of equal slots, laid out one after the other

Family `k` takes `count k` slots of `width k` bytes. Slots of one layout never
overlap, and all of them lie below the total.
-/

namespace VllmHcu.Packing

section
variable {κ : Type*} [DecidableEq κ] (width count : κ → Nat)

/-- The bytes of a list of families. -/
def total (ks : List κ) : Nat := (ks.map fun k => count k * width k).sum

/-- Where family `k` starts. -/
def base (ks : List κ) (k : κ) : Nat := total width count (ks.takeWhile (· ≠ k))

def slotStart (ks : List κ) (k : κ) (i : Nat) : Nat := base width count ks k + i * width k

def slotRange (ks : List κ) (k : κ) (i : Nat) : Set Nat :=
  Set.Ico (slotStart width count ks k i) (slotStart width count ks k i + width k)

omit [DecidableEq κ] in
theorem total_cons (k : κ) (ks : List κ) :
    total width count (k :: ks) = count k * width k + total width count ks := by
  rw [total, List.map_cons, List.sum_cons, total]

theorem base_cons_self (k : κ) (ks : List κ) : base width count (k :: ks) k = 0 := by
  rw [base, List.takeWhile_cons_of_neg (by simp)]
  rfl

theorem base_cons_of_ne {k k' : κ} (h : k' ≠ k) (ks : List κ) :
    base width count (k' :: ks) k = count k' * width k' + base width count ks k := by
  rw [base, List.takeWhile_cons_of_pos (by simpa using h), total_cons, base]

variable {width count} in
theorem slot_end_le {k : κ} {i : Nat} (hi : i < count k) : ∀ {ks : List κ}, k ∈ ks →
    slotStart width count ks k i + width k ≤ total width count ks
  | k' :: ks, hk => by
    have hslot : i * width k + width k ≤ count k * width k := by
      rw [← Nat.succ_mul]
      exact Nat.mul_le_mul_right _ hi
    rw [total_cons]
    by_cases h : k' = k
    · subst h
      rw [slotStart, base_cons_self]
      omega
    · have hmem : k ∈ ks := (List.mem_cons.mp hk).resolve_left fun he => h he.symm
      have := slot_end_le hi hmem
      rw [slotStart] at this
      rw [slotStart, base_cons_of_ne _ _ h]
      omega

theorem slot_families_disjoint {k k' : κ} {i j : Nat} (hne : k ≠ k') (hi : i < count k) (hj : j < count k') :
    ∀ {ks : List κ}, k ∈ ks → k' ∈ ks →
      slotStart width count ks k i + width k ≤ slotStart width count ks k' j ∨
        slotStart width count ks k' j + width k' ≤ slotStart width count ks k i
  | q :: ks, hk, hk' => by
    have hfirst : ∀ {a c : κ} {n r : Nat}, a ≠ c → n < count a →
        slotStart width count (a :: ks) a n + width a ≤ slotStart width count (a :: ks) c r := by
      intro a c n r hac hn
      have : n * width a + width a ≤ count a * width a := by
        rw [← Nat.succ_mul]
        exact Nat.mul_le_mul_right _ hn
      rw [slotStart, slotStart, base_cons_self, base_cons_of_ne _ _ hac]
      omega
    by_cases h : q = k
    · subst h
      exact .inl (hfirst hne hi)
    · by_cases h' : q = k'
      · subst h'
        exact .inr (hfirst (Ne.symm hne) hj)
      · have hm : k ∈ ks := (List.mem_cons.mp hk).resolve_left fun he => h he.symm
        have hm' : k' ∈ ks := (List.mem_cons.mp hk').resolve_left fun he => h' he.symm
        have := slot_families_disjoint hne hi hj hm hm'
        rw [slotStart, slotStart] at this
        rw [slotStart, slotStart, base_cons_of_ne _ _ h, base_cons_of_ne _ _ h']
        omega

variable {width count} {ks : List κ} {k k' : κ} {i j : Nat}

theorem slotRange_disjoint (hk : k ∈ ks) (hk' : k' ∈ ks) (hi : i < count k) (hj : j < count k')
    (hne : (k, i) ≠ (k', j)) :
    Disjoint (slotRange width count ks k i) (slotRange width count ks k' j) := by
  have hle : slotStart width count ks k i + width k ≤ slotStart width count ks k' j ∨
      slotStart width count ks k' j + width k' ≤ slotStart width count ks k i := by
    by_cases h : k = k'
    · subst h
      have hij : i ≠ j := fun he => hne (by rw [he])
      rcases Nat.lt_or_gt_of_ne hij with hlt | hlt
      · left
        have := Nat.mul_le_mul_right (width k) (Nat.succ_le_of_lt hlt)
        rw [Nat.succ_mul] at this
        rw [slotStart, slotStart]
        omega
      · right
        have := Nat.mul_le_mul_right (width k) (Nat.succ_le_of_lt hlt)
        rw [Nat.succ_mul] at this
        rw [slotStart, slotStart]
        omega
    · exact slot_families_disjoint width count h hi hj hk hk'
  rw [slotRange, slotRange, Set.disjoint_left]
  intro x hx hx'
  simp only [Set.mem_Ico] at hx hx'
  omega

theorem slotStart_inj (hk : k ∈ ks) (hk' : k' ∈ ks) (hi : i < count k) (hj : j < count k')
    (hw : 0 < width k) (hw' : 0 < width k')
    (h : slotStart width count ks k i = slotStart width count ks k' j) : k = k' ∧ i = j := by
  by_contra hne
  have hdisj : Disjoint (slotRange width count ks k i) (slotRange width count ks k' j) :=
    slotRange_disjoint hk hk' hi hj fun he => hne ⟨congrArg Prod.fst he, congrArg Prod.snd he⟩
  have hx : slotStart width count ks k i ∈ slotRange width count ks k i := ⟨le_refl _, by omega⟩
  exact Set.disjoint_left.mp hdisj hx ⟨h.ge, by omega⟩

end

end VllmHcu.Packing
