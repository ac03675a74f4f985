import Mathlib.Data.List.GetD
import VllmHcu.Ple.ShortConv
import VllmHcu.Lib.RowSearch

/-!
# Requests over the short convolution

Requests own slots, and their chunks come in calls of any mode. The inputs that a
request has fed, up to the last draft that was accepted, say what the taps of its
next tokens are to be. The kernel finds the request of a token by a binary search
in the starts of the rows, with a number of rounds that is fixed by the number of
requests.
-/

namespace VllmHcu.Ple

variable {α : Type}

namespace ConvCall

/-! ## The row of a token -/

section
variable {c : ConvCall α} {t : Nat}

/-- Rows start one after another from zero. -/
structure Rows (c : ConvCall α) : Prop where
  zero : c.qsl 0 = 0
  mono : ∀ r < c.numReqs, c.qsl r ≤ c.qsl (r + 1)

theorem Rows.search (h : c.Rows) : RowSearch.Rows c.qsl c.numReqs := ⟨h.zero, h.mono⟩

theorem Rows.le (h : c.Rows) (r n : Nat) (hn : r + n ≤ c.numReqs) : c.qsl r ≤ c.qsl (r + n) := h.search.le r n hn

theorem Rows.le_of_le (h : c.Rows) (r r₁ : Nat) (hr : r ≤ r₁) (hr₁ : r₁ ≤ c.numReqs) : c.qsl r ≤ c.qsl r₁ :=
  h.search.le_of_le r r₁ hr hr₁

theorem findRow_eq (t : Nat) : c.findRow t = RowSearch.findRow c.qsl c.numReqs c.binarySearchIters t := rfl

theorem findRow_spec (hrows : c.Rows) (ht : t < c.qsl c.numReqs) :
    c.findRow t < c.numReqs ∧ c.qsl (c.findRow t) ≤ t ∧ t < c.qsl (c.findRow t + 1) := by
  have hsize : c.numReqs < 2 ^ c.binarySearchIters :=
    Nat.lt_of_le_of_lt (Nat.le_max_left _ 1) (Nat.lt_size_self _)
  rw [findRow_eq]
  exact RowSearch.findRow_spec hrows.search ht hsize

theorem Rows.row_unique (h : c.Rows) {r r' : Nat} (hr : r < c.numReqs) (hr' : r' < c.numReqs)
    (hl : c.qsl r ≤ t) (hu : t < c.qsl (r + 1)) (hl' : c.qsl r' ≤ t) (hu' : t < c.qsl (r' + 1)) : r = r' :=
  h.search.row_unique hr hr' hl hu hl' hu'

end

/-! ## Calls and requests -/

variable [Zero α]

def start (c : ConvCall α) (r : Nat) : Nat := if c.mode = .decode then r else c.qsl r

def len (c : ConvCall α) (r : Nat) : Nat := if c.mode = .decode then 1 else c.qlen r

/-- The tokens of a row, through the token map. -/
def tokens (c : ConvCall α) (r : Nat) : List α := (List.range (c.len r)).map fun j => c.input (c.start r + j)

/-- The rows are laid out one after another, and no two of them have the same slot. -/
def WellFormed (shape : ConvShape) (c : ConvCall α) : Prop :=
  (c.mode ≠ .decode → c.qsl 0 = 0 ∧ (∀ r < c.numReqs, c.qsl r ≤ c.qsl (r + 1)) ∧ c.qsl c.numReqs ≤ c.numTokens) ∧
  ∀ r < c.numReqs, ∀ r' < c.numReqs, c.slot r ≠ shape.nullBlockId → c.slot r = c.slot r' → r = r'

instance (shape : ConvShape) (c : ConvCall α) : Decidable (c.WellFormed shape) := by
  unfold WellFormed
  infer_instance

end ConvCall

variable [Zero α]

/-- The input `n` before the end, zero where there is none. -/
def lookback (inputs : List α) (n : Nat) : α := if n ≤ inputs.length then inputs.getD (inputs.length - n) 0 else 0

/-- The accepted inputs of a request; after drafts, how many of them were accepted. -/
structure SlotHistory (α : Type) where
  inputs : List α := []
  accepted : Nat := 1

/-- What the scheduler knows of a row: whether it starts a request, and how many of its drafts will be accepted. -/
structure RowFlags where
  first : Bool
  accepted : Nat

def prior (slots : Nat → Option (SlotHistory α)) (c : ConvCall α) (flags : Nat → RowFlags) (r : Nat) :
    Option (SlotHistory α) :=
  if (flags r).first then some {} else slots (c.slot r)

/-- What the callers keep to for a row with a slot. -/
def rowAllowed (shape : ConvShape) (slots : Nat → Option (SlotHistory α)) (c : ConvCall α) (flags : Nat → RowFlags)
    (r : Nat) : Bool :=
  match prior slots c flags r with
  | none => false
  | some h =>
    0 < c.len r &&
    match c.mode with
    | .decode => !(flags r).first && h.accepted = 1 && c.hasInit shape r
    | .prefill => h.accepted = 1 && c.hasInit shape r = !(flags r).first
    | .spec =>
      !(flags r).first && c.numAcceptedTokens.getD r 0 = (h.accepted : Int) && c.len r ≤ shape.specQueryLen &&
        1 ≤ (flags r).accepted && (flags r).accepted ≤ c.len r

/-- The request of the row after the call. -/
def record (c : ConvCall α) (flags : Nat → RowFlags) (h : SlotHistory α) (r : Nat) : SlotHistory α :=
  if c.mode = .spec then ⟨h.inputs ++ (c.tokens r).take (flags r).accepted, (flags r).accepted⟩
  else ⟨h.inputs ++ c.tokens r, 1⟩

structure ConvEvent (α : Type) where
  call : ConvCall α
  flags : Nat → RowFlags
  schedule : List Nat
  writeback : List Nat

/-- A call that has been made: the state and the requests before it, and what it left. -/
structure ConvEntry (α : Type) where
  call : ConvCall α
  flags : Nat → RowFlags
  slots : Nat → Option (SlotHistory α)
  state : StateAddr → α
  output : ConvOutput α

structure ConvSystem (α : Type) where
  state : StateAddr → α
  slots : Nat → Option (SlotHistory α) := fun _ => none
  log : List (ConvEntry α) := []

namespace ConvSystem

def allowed (shape : ConvShape) (s : ConvSystem α) (c : ConvCall α) (flags : Nat → RowFlags) : Bool :=
  c.WellFormed shape && (List.range c.numReqs).all fun r =>
    c.slot r = shape.nullBlockId || rowAllowed shape s.slots c flags r

/-- The requests after a call. -/
def recordRows (shape : ConvShape) (s : ConvSystem α) (c : ConvCall α) (flags : Nat → RowFlags) (slot : Nat) :
    Option (SlotHistory α) :=
  match (List.range c.numReqs).find? fun r => c.slot r = slot && slot ≠ shape.nullBlockId with
  | some r => (prior s.slots c flags r).map fun h => record c flags h r
  | none => s.slots slot

def callStep (shape : ConvShape) (s : ConvSystem α) (e : ConvEvent α) : Option (ConvSystem α) :=
  if s.allowed shape e.call e.flags then
    (pleConv shape e.call s.state e.schedule e.writeback).map fun out =>
      ⟨out.state, s.recordRows shape e.call e.flags, s.log ++ [⟨e.call, e.flags, s.slots, s.state, out⟩]⟩
  else none

/-- A batch, with the flags and the schedules of each of its calls. -/
structure Batch (α : Type) where
  metadata : ConvMetadata
  inputs : List α
  calls : List ((Nat → RowFlags) × List Nat × List Nat)

def batchStep (shape : ConvShape) (s : ConvSystem α) (b : Batch α) : Option (ConvSystem α) :=
  (b.metadata.dispatch b.inputs).bind fun calls =>
    if calls.length = b.calls.length then
      runFrom (callStep shape) s (calls.zipWith (fun c f => ⟨c, f.1, f.2.1, f.2.2⟩) b.calls)
    else none

end ConvSystem

/-! ## What a row reads -/

theorem lookback_append (xs ys : List α) (n : Nat) :
    lookback (xs ++ ys) n = if n ≤ ys.length then ys.getD (ys.length - n) 0 else lookback xs (n - ys.length) := by
  unfold lookback
  rw [List.length_append]
  by_cases hy : n ≤ ys.length
  · rw [if_pos hy, if_pos (by omega), List.getD_append_right _ _ _ _ (by omega)]
    congr 1
    omega
  · rw [if_neg hy]
    by_cases hx : n ≤ xs.length + ys.length
    · rw [if_pos hx, if_pos (by omega), List.getD_append _ _ _ _ (by omega)]
      congr 1
      omega
    · rw [if_neg hx, if_neg (by omega)]

theorem lookback_take (xs ys : List α) {n L i : Nat} (hn : n ≤ ys.length) (hi : i < L) :
    lookback (xs ++ ys.take n) (L - i) =
      if n + i < L then lookback xs (L - (n + i)) else ys.getD (n + i - L) 0 := by
  rw [lookback_append, List.length_take, Nat.min_eq_left hn]
  split
  case isTrue hle =>
    by_cases heq : n + i < L
    · omega
    · rw [if_neg heq, List.getD_eq_getElem?_getD, List.getElem?_take_of_lt (by omega), ← List.getD_eq_getElem?_getD]
      congr 1
      omega
  case isFalse hgt =>
    rw [if_pos (by omega)]
    congr 1
    omega

section
variable {shape : ConvShape} {c : ConvCall α} {r : Nat}

@[simp] theorem ConvCall.length_tokens : (c.tokens r).length = c.len r := by simp [ConvCall.tokens]

theorem ConvCall.getD_tokens {j : Nat} (hj : j < c.len r) : (c.tokens r).getD j 0 = c.input (c.start r + j) := by
  simp [ConvCall.tokens, List.getD_eq_getElem?_getD, hj]

omit [Zero α] in
theorem ConvCall.WellFormed.rows (h : c.WellFormed shape) (hmode : c.mode ≠ .decode) : c.Rows := by
  obtain ⟨h0, hmono, -⟩ := h.1 hmode
  exact ⟨h0, hmono⟩

omit [Zero α] in
theorem ConvCall.rowOf_spec (h : c.WellFormed shape) (hr : r < c.numReqs) {j : Nat} (hj : j < c.len r) :
    c.rowOf (c.start r + j) = (r, c.start r, true) ∧ c.start r + j < c.numTokens := by
  by_cases hmode : c.mode = .decode
  · have hj0 : j = 0 := by
      rw [ConvCall.len, if_pos hmode] at hj
      omega
    subst hj0
    have hreqs : c.numReqs = c.numTokens := by simp only [ConvCall.numReqs, hmode]
    simp only [ConvCall.rowOf, ConvCall.start, hmode, if_true]
    exact ⟨by simp, by omega⟩
  · have hrows := h.rows hmode
    obtain ⟨-, -, htotal⟩ := h.1 hmode
    rw [ConvCall.len, if_neg hmode, ConvCall.qlen] at hj
    have hstart : c.start r = c.qsl r := if_neg hmode
    have hmono := hrows.mono r hr
    have hend := hrows.le_of_le (r + 1) c.numReqs (by omega) (Nat.le_refl _)
    have ht : c.start r + j < c.qsl c.numReqs := by omega
    obtain ⟨hlt, hl, hu⟩ := findRow_spec hrows ht
    have hfind : c.findRow (c.start r + j) = r := hrows.row_unique hlt hr hl hu (by omega) (by omega)
    refine ⟨?_, by omega⟩
    cases hm : c.mode with
    | decode => exact absurd hm hmode
    | spec => simp only [ConvCall.rowOf, hm, hfind, ht, decide_true, ← hstart]
    | prefill => simp only [ConvCall.rowOf, hm, hfind, ht, decide_true, ← hstart]

end

end VllmHcu.Ple
