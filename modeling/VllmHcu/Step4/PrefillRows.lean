import VllmHcu.Lib.RowSearch
import VllmHcu.Lib.Launch

/-!
# The request of each prefill row

`_prefill_request_indices` finds the request of every prefill token by bisection
in the request starts, one lane a row. The starts are integers in 32 bits, so
none exceeds the value `2147483647` that a masked load gives.
-/

namespace VllmHcu.Step4

/-- The arguments of `_prefill_request_indices`. -/
structure RowLookup where
  starts : List Int
  numTokens : Nat
  firstRequest : Nat
  numRequests : Nat
  decodeTokens : Int

namespace RowLookup

variable (a : RowLookup)

/-- `tl.load(starts_ptr + middle + 1, mask=middle < first_request + num_requests, other=2147483647)`. -/
def loadEnd (middle : Nat) : Int :=
  if middle < a.firstRequest + a.numRequests then a.starts.getD (middle + 1) 0 else 2147483647

/-- The address that load touches. -/
def loadAddress (middle : Nat) : Option Nat :=
  if middle < a.firstRequest + a.numRequests then some (middle + 1) else none

/-- The loop body of a lane: `low`, `high` and the addresses loaded so far. -/
def laneStep (tokens : Int) (s : (Nat × Nat) × List Nat) : (Nat × Nat) × List Nat :=
  let middle := (s.1.1 + s.1.2) / 2
  let after := a.loadEnd middle ≤ tokens
  ((if after then middle + 1 else s.1.1, if after then s.1.2 else middle), s.2 ++ (a.loadAddress middle).toList)

/-- A lane after `STEPS = num_requests.bit_length()` steps. -/
def lane (row : Nat) : (Nat × Nat) × List Nat :=
  (a.laneStep (row + a.decodeTokens))^[a.numRequests.size] ((a.firstRequest, a.firstRequest + a.numRequests), [])

/-- The output from the uninitialised `output`; the assertion is that of `_prefill_request_indices`. -/
def prefillRequestIndices (output : Nat → Nat) : Except String (Nat → Nat) :=
  if a.numTokens = 0 then .ok output
  else if a.numRequests = 0 then .error "AssertionError"
  else .ok (launch a.numTokens 256 (fun row => (a.lane row).1.1) output)

/-- The starts of the requests from `first_request` on do not decrease, and fit in 32 bits. -/
structure Ordered : Prop where
  inside : a.firstRequest + a.numRequests < a.starts.length
  mono : a.starts.Pairwise (· ≤ ·)
  int32 : ∀ s ∈ a.starts, s ≤ 2147483647
  decode : a.decodeTokens = a.starts.getD a.firstRequest 0

/-- The request of a prefill row. -/
def Owns (row r : Nat) : Prop :=
  a.firstRequest ≤ r ∧ r < a.firstRequest + a.numRequests ∧
    a.starts.getD r 0 ≤ row + a.decodeTokens ∧ row + a.decodeTokens < a.starts.getD (r + 1) 0

/-- What the bisection looks for: a request whose end is after the token. -/
def endsAfter (tokens : Int) (middle : Nat) : Bool := !decide (a.loadEnd middle ≤ tokens)

variable {a} {tokens : Int} {row : Nat}

theorem endsAfter_eq_true {middle : Nat} : a.endsAfter tokens middle = true ↔ tokens < a.loadEnd middle := by
  simp [endsAfter]

theorem endsAfter_eq_false {middle : Nat} : a.endsAfter tokens middle = false ↔ a.loadEnd middle ≤ tokens := by
  simp [endsAfter]

theorem laneStep_range (s : (Nat × Nat) × List Nat) : (a.laneStep tokens s).1 = bisectRound (a.endsAfter tokens) s.1 := by
  unfold laneStep bisectRound endsAfter
  by_cases h : a.loadEnd ((s.1.1 + s.1.2) / 2) ≤ tokens <;> simp [h]

theorem iterate_range (n : Nat) (s : (Nat × Nat) × List Nat) :
    ((a.laneStep tokens)^[n] s).1 = (bisectRound (a.endsAfter tokens))^[n] s.1 := by
  induction n with
  | zero => rfl
  | succ n ih => rw [Function.iterate_succ_apply', Function.iterate_succ_apply', laneStep_range, ih]

theorem iterate_loads (hlen : a.firstRequest + a.numRequests < a.starts.length) (n : Nat) {s : (Nat × Nat) × List Nat}
    (h : ∀ i ∈ s.2, i < a.starts.length) : ∀ i ∈ ((a.laneStep tokens)^[n] s).2, i < a.starts.length := by
  induction n with
  | zero => exact h
  | succ n ih =>
    rw [Function.iterate_succ_apply']
    intro i hi
    rcases List.mem_append.mp hi with hi | hi
    · exact ih i hi
    · unfold loadAddress at hi
      split at hi
      · simp only [Option.toList_some, List.mem_singleton] at hi
        omega
      · simp at hi

theorem Ordered.le (h : a.Ordered) {i j : Nat} (hij : i ≤ j) (hj : j < a.starts.length) :
    a.starts.getD i 0 ≤ a.starts.getD j 0 := by
  have hi : i < a.starts.length := by omega
  rw [← List.getElem_eq_getD (h := hi), ← List.getElem_eq_getD (h := hj)]
  rcases Nat.lt_or_eq_of_le hij with hlt | rfl
  · exact List.pairwise_iff_getElem.mp h.mono i j hi hj hlt
  · exact Int.le_refl _

theorem Ordered.le_int32 (h : a.Ordered) {i : Nat} (hi : i < a.starts.length) : a.starts.getD i 0 ≤ 2147483647 := by
  rw [← List.getElem_eq_getD (h := hi)]
  exact h.int32 _ (List.getElem_mem hi)

theorem Ordered.endsAfter_mono (h : a.Ordered) (ht : tokens < a.starts.getD (a.firstRequest + a.numRequests) 0) :
    ∀ i j, a.firstRequest ≤ i → i ≤ j → a.endsAfter tokens i = true → a.endsAfter tokens j = true := by
  intro i j _ hij hi
  have hin := h.inside
  have hmax := h.le_int32 hin
  rw [endsAfter_eq_true, loadEnd] at hi ⊢
  by_cases hj : j < a.firstRequest + a.numRequests
  · have := h.le (show i + 1 ≤ j + 1 by omega) (by omega)
    rw [if_pos hj]
    rw [if_pos (by omega)] at hi
    omega
  · rw [if_neg hj]
    omega

theorem Ordered.initial (h : a.Ordered) (ht : tokens < a.starts.getD (a.firstRequest + a.numRequests) 0) :
    Bisected (a.endsAfter tokens) a.firstRequest (a.firstRequest, a.firstRequest + a.numRequests) where
  le := Nat.le_refl _
  ordered := Nat.le_add_right ..
  before i hi hlt := absurd hlt (by simpa using hi)
  after := by
    have := h.le_int32 h.inside
    rw [endsAfter_eq_true, loadEnd, if_neg (Nat.lt_irrefl _)]
    omega

theorem Ordered.owns_unique (h : a.Ordered) {r r' : Nat} (hr : a.Owns row r) (hr' : a.Owns row r') : r = r' := by
  obtain ⟨-, hlt, hlo, hhi⟩ := hr
  obtain ⟨-, hlt', hlo', hhi'⟩ := hr'
  have hin := h.inside
  rcases Nat.lt_trichotomy r r' with hc | hc | hc
  · have := h.le (show r + 1 ≤ r' by omega) (by omega)
    omega
  · exact hc
  · have := h.le (show r' + 1 ≤ r by omega) (by omega)
    omega

/-- The fixed number of steps ends at the owner. -/
theorem Ordered.lane_owns (h : a.Ordered)
    (hrow : row + a.decodeTokens < a.starts.getD (a.firstRequest + a.numRequests) 0) : a.Owns row (a.lane row).1.1 := by
  have hfound := (h.initial hrow).found (h.endsAfter_mono hrow)
  have hbis := ((h.initial hrow).iterate (h.endsAfter_mono hrow) a.numRequests.size).1
  simp only [Nat.add_sub_cancel_left] at hfound
  have hlane : (a.lane row).1 = (bisectRound (a.endsAfter (row + a.decodeTokens)))^[a.numRequests.size]
      (a.firstRequest, a.firstRequest + a.numRequests) := iterate_range ..
  rw [← hlane] at hfound hbis
  obtain ⟨hends, hbefore⟩ := hfound
  have hle := hbis.le
  -- the last request ends after the token, so the search stops by then
  have hlt : (a.lane row).1.1 < a.firstRequest + a.numRequests := by
    by_contra hge
    by_cases hzero : a.numRequests = 0
    · rw [hzero, Nat.add_zero, ← h.decode] at hrow
      omega
    · have hlast := hbefore (a.firstRequest + a.numRequests - 1) (by omega) (by omega)
      rw [endsAfter_eq_false, loadEnd, if_pos (by omega), show a.firstRequest + a.numRequests - 1 + 1 = a.firstRequest + a.numRequests by omega] at hlast
      omega
  refine ⟨hle, hlt, ?_, ?_⟩
  · rcases Nat.lt_or_eq_of_le hle with hgt | heq
    · have hprev := hbefore ((a.lane row).1.1 - 1) (by omega) (by omega)
      rwa [endsAfter_eq_false, loadEnd, if_pos (by omega), show (a.lane row).1.1 - 1 + 1 = (a.lane row).1.1 by omega] at hprev
    · rw [← heq, ← h.decode]
      omega
  · rwa [endsAfter_eq_true, loadEnd, if_pos hlt] at hends

/-- Every prefill row of a batch gets its one request, and no lane of the launch, stored or not, loads outside the starts. -/
theorem prefill_request_lookup (a : RowLookup) (h : a.Ordered) (output : Nat → Nat) :
    (∀ row, ∀ i ∈ (a.lane row).2, i < a.starts.length) ∧
    (∀ row < a.numTokens, row + a.decodeTokens < a.starts.getD (a.firstRequest + a.numRequests) 0 →
      ∃ indices, a.prefillRequestIndices output = .ok indices ∧
        a.Owns row (indices row) ∧ ∀ r, a.Owns row r → r = indices row) := by
  refine ⟨fun row => iterate_loads h.inside _ (by simp), ?_⟩
  intro row hrow hlt
  have howns := h.lane_owns hlt
  have hpos : a.numRequests ≠ 0 := by
    have := howns.2.1
    have := howns.1
    omega
  refine ⟨_, by rw [prefillRequestIndices, if_neg (by omega), if_neg hpos], ?_⟩
  rw [launch_apply (by decide) _ _ hrow]
  exact ⟨howns, fun r hr => h.owns_unique hr howns⟩

/-- One decode request, then requests of two, no and one tokens: the third prefill row is the last request's. -/
theorem prefill_request_lookup_three :
    ∃ indices, prefillRequestIndices ⟨[0, 1, 3, 3, 4], 3, 1, 3, 1⟩ (fun _ => 0) = .ok indices ∧ indices 2 = 3 := by
  obtain ⟨indices, hok, -, huniq⟩ := (prefill_request_lookup ⟨[0, 1, 3, 3, 4], 3, 1, 3, 1⟩
    ⟨by decide, by decide, by decide, by decide⟩ (fun _ => 0)).2 2 (by decide) (by decide)
  exact ⟨indices, hok, (huniq 3 (by unfold Owns; decide)).symm⟩

end RowLookup

end VllmHcu.Step4
