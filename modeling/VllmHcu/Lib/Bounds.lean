import Mathlib.Data.List.Basic
import Mathlib.Data.List.Flatten
import Mathlib.Data.List.Range
import Mathlib.Tactic.Common

/-!
# Cutting a list at given bounds

Ascending bounds cut a list into consecutive slices, which put together give the
list back. No bound lies inside a slice, so what holds at every position that
is not a bound holds inside every slice.
-/

namespace VllmHcu

section
variable {α β : Type*}

/-- `xs[start : start + length]`. -/
def sliceAt (xs : List α) (start length : Nat) : List α := (xs.drop start).take length

@[simp] theorem sliceAt_zero (xs : List α) (start : Nat) : sliceAt xs start 0 = [] := List.take_zero ..

theorem sliceAt_map (f : α → β) (xs : List α) (start length : Nat) :
    sliceAt (xs.map f) start length = (sliceAt xs start length).map f := by
  unfold sliceAt
  rw [List.map_take, List.map_drop]

theorem sliceAt_zip (xs : List α) (ys : List β) (start length : Nat) :
    sliceAt (xs.zip ys) start length = (sliceAt xs start length).zip (sliceAt ys start length) := by
  unfold sliceAt
  simp only [List.zip, List.drop_zipWith, List.take_zipWith]

theorem sliceAt_append (xs : List α) (start n m : Nat) :
    sliceAt xs start n ++ sliceAt xs (start + n) m = sliceAt xs start (n + m) := by
  unfold sliceAt
  rw [List.take_add, List.drop_drop]

theorem sliceAt_all (xs : List α) : sliceAt xs 0 xs.length = xs := by simp [sliceAt]

/-- The pairs of consecutive bounds, `b` first. -/
def intervals : Nat → List Nat → List (Nat × Nat)
  | _, [] => []
  | b, c :: cs => (b, c) :: intervals c cs

theorem zip_tail_eq_intervals : ∀ (b : Nat) (bs : List Nat),
    (b :: bs).dropLast.zip (b :: bs).tail = intervals b bs
  | _, [] => rfl
  | b, c :: cs => by
    have ih := zip_tail_eq_intervals c cs
    rw [List.tail_cons] at ih ⊢
    rw [List.dropLast_cons_cons, List.zip_cons_cons, intervals]
    rw [← ih]

theorem intervals_le {b x y : Nat} {bs : List Nat} (h : (b :: bs).Pairwise (· ≤ ·)) (hm : (x, y) ∈ intervals b bs) :
    b ≤ x ∧ x ≤ y := by
  induction bs generalizing b with
  | nil => cases hm
  | cons c cs ih =>
    rw [List.pairwise_cons] at h
    rcases List.mem_cons.mp hm with he | hm
    · cases he
      exact ⟨Nat.le_refl _, h.1 _ (List.mem_cons_self ..)⟩
    · have := ih h.2 hm
      exact ⟨(h.1 c (List.mem_cons_self ..)).trans this.1, this.2⟩

/-- No bound lies strictly between two consecutive ones. -/
theorem intervals_gap {b x y z : Nat} {bs : List Nat} (h : (b :: bs).Pairwise (· ≤ ·)) (hm : (x, y) ∈ intervals b bs)
    (hz : z ∈ bs) : z ≤ x ∨ y ≤ z := by
  induction bs generalizing b with
  | nil => cases hz
  | cons c cs ih =>
    rw [List.pairwise_cons] at h
    rcases List.mem_cons.mp hm with he | hm
    · cases he
      rcases List.mem_cons.mp hz with rfl | hz
      · exact .inr (Nat.le_refl _)
      · exact .inr ((List.pairwise_cons.mp h.2).1 z hz)
    · rcases List.mem_cons.mp hz with rfl | hz
      · exact .inl (intervals_le h.2 hm).1
      · exact ih h.2 hm hz

theorem intervals_le_last {b x y z : Nat} {bs : List Nat} (h : (b :: bs).Pairwise (· ≤ ·)) (hm : (x, y) ∈ intervals b bs)
    (hz : bs.getLast? = some z) : y ≤ z := by
  induction bs generalizing b with
  | nil => cases hm
  | cons c cs ih =>
    rw [List.pairwise_cons] at h
    rcases List.mem_cons.mp hm with he | hm
    · cases he
      rcases List.mem_cons.mp (List.mem_of_getLast? hz) with he | hz
      · exact he.ge
      · exact (List.pairwise_cons.mp h.2).1 z hz
    · apply ih h.2 hm
      cases cs with
      | nil => cases hm
      | cons d ds => rwa [List.getLast?_cons_cons] at hz

theorem getLastD_ge {b : Nat} {bs : List Nat} (h : (b :: bs).Pairwise (· ≤ ·)) : b ≤ bs.getLastD b := by
  induction bs generalizing b with
  | nil => exact Nat.le_refl _
  | cons c cs ih =>
    rw [List.getLastD_cons]
    exact ((List.pairwise_cons.mp h).1 c (List.mem_cons_self ..)).trans (ih (List.pairwise_cons.mp h).2)

theorem flatMap_intervals (xs : List α) {b : Nat} {bs : List Nat} (h : (b :: bs).Pairwise (· ≤ ·)) :
    ((intervals b bs).flatMap fun p => sliceAt xs p.1 (p.2 - p.1)) = sliceAt xs b (bs.getLastD b - b) := by
  induction bs generalizing b with
  | nil => simp [intervals]
  | cons c cs ih =>
    have hbc : b ≤ c := (List.pairwise_cons.mp h).1 c (List.mem_cons_self ..)
    have hcl : c ≤ cs.getLastD c := getLastD_ge (List.pairwise_cons.mp h).2
    rw [intervals, List.flatMap_cons, ih (List.pairwise_cons.mp h).2, List.getLastD_cons]
    have hstart : b + (c - b) = c := by omega
    have happend := sliceAt_append xs b (c - b) (cs.getLastD c - c)
    rw [hstart] at happend
    rw [happend]
    congr 1
    omega

end

theorem sliceAt_range {start length n : Nat} (h : start + length ≤ n) :
    sliceAt (List.range n) start length = List.range' start length := by
  unfold sliceAt
  apply List.ext_getElem
  · simp
    omega
  · intro i _ _
    simp

/-- A slice in which every step is by one is a range. -/
theorem sliceAt_consecutive {xs : List Nat} {start : Nat} : ∀ (length : Nat) {x : Nat}, xs[start]? = some x →
    start + length ≤ xs.length → (∀ i, start ≤ i → i + 1 < start + length → xs.getD (i + 1) 0 = xs.getD i 0 + 1) →
    sliceAt xs start length = List.range' x length
  | 0, _, _, _, _ => by simp
  | 1, x, hx, _, _ => by
    obtain ⟨hlt, he⟩ := List.getElem?_eq_some_iff.mp hx
    unfold sliceAt
    rw [List.drop_eq_getElem_cons hlt, he]
    rfl
  | n + 2, x, hx, hlen, hstep => by
    have hlt : start + (n + 1) < xs.length := by omega
    have hnext := hstep start (Nat.le_refl _) (by omega)
    obtain ⟨hlt₀, he⟩ := List.getElem?_eq_some_iff.mp hx
    have hx' : xs[start + 1]? = some (x + 1) := by
      rw [List.getD_eq_getElem?_getD, List.getD_eq_getElem?_getD, hx] at hnext
      rw [List.getElem?_eq_getElem (by omega)] at hnext ⊢
      simpa using hnext
    have ih := sliceAt_consecutive (n + 1) hx' (by omega) (fun i hi hi' => hstep i (by omega) (by omega))
    unfold sliceAt at ih ⊢
    rw [List.drop_eq_getElem_cons hlt₀, List.take_succ_cons, he, ih]
    rfl

end VllmHcu
