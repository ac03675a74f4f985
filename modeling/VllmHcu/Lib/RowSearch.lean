import Mathlib.Data.Nat.Size
import Mathlib.Logic.Function.Iterate
import Mathlib.Tactic.Common
import Mathlib.Algebra.Group.Nat.Defs

/-!
# Binary search in row boundaries

Rows start one after another from zero; row `r` has the elements from
`start r` up to `start (r + 1)` and may be empty. The row of an element is found
by halving a range of rows a fixed number of times.

Bisection halves a range towards the first position where a predicate holds. A
round on a range that is already empty leaves it where it is, so more rounds than
needed do no harm.
-/

namespace VllmHcu

namespace RowSearch

/-- Rows start one after another from zero. -/
structure Rows (start : Nat → Nat) (rows : Nat) : Prop where
  zero : start 0 = 0
  mono : ∀ r < rows, start r ≤ start (r + 1)

/-- One round of the search for the first row that starts after `t`. -/
def searchRound (start : Nat → Nat) (rows t : Nat) (range : Nat × Nat) : Nat × Nat :=
  let mid := (range.1 + range.2) / 2
  let qmid := if mid ≤ rows then start mid else 0
  if qmid ≤ t then (mid + 1, range.2) else (range.1, mid)

def findRow (start : Nat → Nat) (rows iters t : Nat) : Nat :=
  min (((searchRound start rows t)^[iters] (1, rows + 1)).1 - 1) (rows - 1)

variable {start : Nat → Nat} {rows t : Nat}

theorem Rows.le (h : Rows start rows) (r n : Nat) (hn : r + n ≤ rows) : start r ≤ start (r + n) := by
  induction n with
  | zero => exact Nat.le_refl _
  | succ n ih => exact Nat.le_trans (ih (by omega)) (h.mono (r + n) (by omega))

theorem Rows.le_of_le (h : Rows start rows) (r r₁ : Nat) (hr : r ≤ r₁) (hr₁ : r₁ ≤ rows) : start r ≤ start r₁ := by
  obtain ⟨n, rfl⟩ := Nat.exists_eq_add_of_le hr
  exact h.le r n hr₁

/-- What the search knows: the rows before `lo` start by `t`, and those from `hi` on after it. -/
structure Searched (start : Nat → Nat) (rows t : Nat) (range : Nat × Nat) : Prop where
  pos : 1 ≤ range.1
  le : range.1 ≤ range.2
  bound : range.2 ≤ rows + 1
  before : start (range.1 - 1) ≤ t
  after : range.2 ≤ rows → t < start range.2

theorem searchRound_spec (hrows : Rows start rows) (ht : t < start rows) {range : Nat × Nat} (h : Searched start rows t range) :
    Searched start rows t (searchRound start rows t range) ∧
    2 * ((searchRound start rows t range).2 - (searchRound start rows t range).1) ≤ range.2 - range.1 := by
  obtain ⟨lo, hi⟩ := range
  obtain ⟨hpos, hle, hbound, hbefore, hafter⟩ := h
  simp only at hpos hle hbound hbefore hafter
  -- the middle row exists, unless the search is over
  have hmid : (lo + hi) / 2 ≤ rows := by
    by_contra hgt
    have hlo : lo = rows + 1 := by omega
    have := hrows.le_of_le rows (lo - 1) (by omega) (by omega)
    omega
  simp only [searchRound, hmid, if_true]
  split
  case isTrue hq =>
    -- a search that is over has `t` before the row
    have hlt : (lo + hi) / 2 < hi := by
      by_contra hge
      have heq : (lo + hi) / 2 = hi := by omega
      rw [heq] at hq hmid
      exact absurd (hafter hmid) (by omega)
    refine ⟨⟨by simp, hlt, hbound, by simpa using hq, hafter⟩, ?_⟩
    simp only
    omega
  case isFalse hq =>
    refine ⟨⟨hpos, by simp only; omega, by simp only; omega, hbefore, fun _ => by simp only; omega⟩, ?_⟩
    simp only
    omega

theorem search_spec (hrows : Rows start rows) (ht : t < start rows) (n : Nat) :
    Searched start rows t ((searchRound start rows t)^[n] (1, rows + 1)) ∧
    2 ^ n * (((searchRound start rows t)^[n] (1, rows + 1)).2 - ((searchRound start rows t)^[n] (1, rows + 1)).1) ≤ rows := by
  induction n with
  | zero =>
    refine ⟨⟨Nat.le_refl 1, by simp, Nat.le_refl _, ?_, fun h => absurd h (by simp)⟩, by simp⟩
    simp [hrows.zero]
  | succ n ih =>
    obtain ⟨hs, hle⟩ := ih
    obtain ⟨hs', hhalf⟩ := searchRound_spec hrows ht hs
    rw [Function.iterate_succ_apply']
    refine ⟨hs', Nat.le_trans ?_ hle⟩
    rw [Nat.pow_succ, Nat.mul_assoc]
    exact Nat.mul_le_mul_left _ hhalf

theorem findRow_spec (hrows : Rows start rows) (ht : t < start rows) {iters : Nat} (hiters : rows < 2 ^ iters) :
    findRow start rows iters t < rows ∧ start (findRow start rows iters t) ≤ t ∧ t < start (findRow start rows iters t + 1) := by
  obtain ⟨hs, hle⟩ := search_spec hrows ht iters
  have hreqs : 0 < rows := by
    by_contra h
    rw [Nat.eq_zero_of_not_pos h, hrows.zero] at ht
    cases ht
  unfold findRow
  generalize (searchRound start rows t)^[iters] (1, rows + 1) = range at hs hle
  obtain ⟨hpos, hord, hbound, hbefore, hafter⟩ := hs
  -- the range is empty
  have hdone : range.2 - range.1 = 0 := by
    by_contra hne
    have : 2 ^ iters * 1 ≤ 2 ^ iters * (range.2 - range.1) :=
      Nat.mul_le_mul_left _ (by omega)
    omega
  have hin : range.1 ≤ rows := by
    by_contra hgt
    have heq : range.1 - 1 = rows := by omega
    rw [heq] at hbefore
    omega
  have hmin : min (range.1 - 1) (rows - 1) = range.1 - 1 := by omega
  have hsucc : range.1 - 1 + 1 = range.2 := by omega
  rw [hmin, hsucc]
  exact ⟨by omega, hbefore, hafter (by omega)⟩

theorem Rows.row_unique (h : Rows start rows) {r r' : Nat} (hr : r < rows) (hr' : r' < rows)
    (hl : start r ≤ t) (hu : t < start (r + 1)) (hl' : start r' ≤ t) (hu' : t < start (r' + 1)) : r = r' := by
  rcases Nat.lt_trichotomy r r' with hlt | heq | hgt
  · have := h.le_of_le (r + 1) r' (by omega) (by omega)
    omega
  · exact heq
  · have := h.le_of_le (r' + 1) r (by omega) (by omega)
    omega

end RowSearch

/-! ## Bisection for a fixed number of rounds -/

/-- One round of bisection: keep the half that has the first position with `p`. -/
def bisectRound (p : Nat → Bool) (range : Nat × Nat) : Nat × Nat :=
  let middle := (range.1 + range.2) / 2
  if p middle then (range.1, middle) else (middle + 1, range.2)

/-- What bisection knows of a range: `p` fails from `first` up to it, and holds at its end. -/
structure Bisected (p : Nat → Bool) (first : Nat) (range : Nat × Nat) : Prop where
  le : first ≤ range.1
  ordered : range.1 ≤ range.2
  before : ∀ i, first ≤ i → i < range.1 → p i = false
  after : p range.2 = true

variable {p : Nat → Bool} {first : Nat} {range : Nat × Nat}

theorem Bisected.round (hmono : ∀ i j, first ≤ i → i ≤ j → p i = true → p j = true) (h : Bisected p first range) :
    Bisected p first (bisectRound p range) ∧
    2 * ((bisectRound p range).2 - (bisectRound p range).1) ≤ range.2 - range.1 := by
  obtain ⟨lo, hi⟩ := range
  obtain ⟨hle, hord, hbefore, hafter⟩ := h
  simp only at hle hord hbefore hafter
  simp only [bisectRound]
  split
  case isTrue hp => exact ⟨⟨hle, by simp only; omega, hbefore, hp⟩, by simp only; omega⟩
  case isFalse hp =>
    -- the end of the range satisfies `p`, so the middle is before it
    have hlt : (lo + hi) / 2 < hi := by
      by_contra hge
      have : (lo + hi) / 2 = hi := by omega
      rw [this] at hp
      exact hp hafter
    refine ⟨⟨by simp only; omega, by simp only; omega, ?_, hafter⟩, by simp only; omega⟩
    intro i hi₁ hi₂
    by_contra hpi
    exact hp (hmono i _ hi₁ (by simp only at hi₂; omega) (by simpa using hpi))

theorem Bisected.iterate (hmono : ∀ i j, first ≤ i → i ≤ j → p i = true → p j = true) (h : Bisected p first range) (n : Nat) :
    Bisected p first ((bisectRound p)^[n] range) ∧
    2 ^ n * (((bisectRound p)^[n] range).2 - ((bisectRound p)^[n] range).1) ≤ range.2 - range.1 := by
  induction n with
  | zero => exact ⟨h, by simp⟩
  | succ n ih =>
    obtain ⟨hn, hle⟩ := ih
    obtain ⟨hs, hhalf⟩ := hn.round hmono
    rw [Function.iterate_succ_apply']
    refine ⟨hs, Nat.le_trans ?_ hle⟩
    rw [Nat.pow_succ, Nat.mul_assoc]
    exact Nat.mul_le_mul_left _ hhalf

/-- As many rounds as the length of the range has bits find the first position. -/
theorem Bisected.found (hmono : ∀ i j, first ≤ i → i ≤ j → p i = true → p j = true) (h : Bisected p first range) :
    let found := ((bisectRound p)^[(range.2 - range.1).size] range).1
    p found = true ∧ ∀ i, first ≤ i → i < found → p i = false := by
  obtain ⟨hn, hle⟩ := h.iterate hmono (range.2 - range.1).size
  have hsize := Nat.lt_size_self (range.2 - range.1)
  have hord := hn.ordered
  have heq : ((bisectRound p)^[(range.2 - range.1).size] range).1 =
      ((bisectRound p)^[(range.2 - range.1).size] range).2 := by
    by_contra hne
    have := Nat.mul_le_mul_left (2 ^ (range.2 - range.1).size)
      (show 1 ≤ ((bisectRound p)^[(range.2 - range.1).size] range).2 -
        ((bisectRound p)^[(range.2 - range.1).size] range).1 by omega)
    omega
  refine ⟨?_, hn.before⟩
  rw [heq]
  exact hn.after

end VllmHcu
