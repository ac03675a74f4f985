import VllmHcu.Ple.Streaming
import Mathlib.Algebra.Ring.Int.Defs

/-!
# Streaming is one convolution

Every tap is the input that a convolution over the whole request would read. The
state of a slot holds the window of the last accepted input, and a chunk moves it
by the inputs that it consumes.
-/

namespace VllmHcu.Ple

variable {α : Type} [Zero α] {shape : ConvShape} {c : ConvCall α} {r : Nat}

/-- The window of the request, at the place of its last accepted draft. -/
structure Holds (shape : ConvShape) (state : StateAddr → α) (slot : Nat) (h : SlotHistory α) : Prop where
  pos : 1 ≤ h.accepted
  le : h.accepted ≤ max shape.specQueryLen 1
  window : ∀ i < shape.stateLen, state (slot, h.accepted - 1 + i) = lookback h.inputs (shape.stateLen - i)

/-- What a row finds: it starts a request and reads nothing, or its slot holds the request and is read from there. -/
structure RowReads (shape : ConvShape) (c : ConvCall α) (state : StateAddr → α) (r : Nat) (h : SlotHistory α) : Prop where
  slot : c.slot r ≠ shape.nullBlockId
  pos : 0 < c.len r
  reads : h.inputs = [] ∧ c.mode ≠ .spec ∧ c.hasInit shape r = false ∨
    (c.mode = .spec ∨ c.hasInit shape r = true) ∧
      ∀ i < shape.stateLen, state (c.slot r, c.slotOff shape r + i) = lookback h.inputs (shape.stateLen - i)

@[simp] theorem lookback_nil (n : Nat) : lookback ([] : List α) n = 0 := by simp [lookback]

theorem RowReads.eval {state : StateAddr → α} {h : SlotHistory α} (hread : RowReads shape c state r h) {i : Nat}
    (hi : i < shape.stateLen) :
    MemSource.eval state (if (decide (c.mode = .spec) || c.hasInit shape r) = true then
        .from (c.slot r, c.slotOff shape r + i) else .value 0) = lookback h.inputs (shape.stateLen - i) := by
  rcases hread.reads with ⟨hnil, hmode, hinit⟩ | ⟨hok, hwin⟩
  · simp [hnil, hmode, hinit, MemSource.eval]
  · have : (decide (c.mode = .spec) || c.hasInit shape r) = true := by
      rcases hok with hm | hi
      · simp [hm]
      · simp [hi]
    rw [if_pos this]
    exact hwin i hi

/-! ## Taps -/

/-- The input that the tap `k` of position `t` reads in a convolution over the whole request. -/
def fullTap (shape : ConvShape) (inputs : List α) (t k : Nat) : α :=
  let back := shape.dilation * (shape.kernelSize - 1 - k)
  if back ≤ t then inputs.getD (t - back) 0 else 0

theorem tapSource_eval {state : StateAddr → α} {h : SlotHistory α} (hwf : c.WellFormed shape) (hr : r < c.numReqs)
    (hread : RowReads shape c state r h) {j k : Nat} (hj : j < c.len r) (hk : k < shape.kernelSize) :
    (c.tapSource shape (c.start r + j) k).eval state =
      fullTap shape (h.inputs ++ c.tokens r) (h.inputs.length + j) k := by
  obtain ⟨hrow, -⟩ := ConvCall.rowOf_spec hwf hr hj
  have hback : shape.dilation * (shape.kernelSize - 1 - k) + shape.dilation * k = shape.stateLen := by
    rw [← Nat.mul_add, Nat.sub_add_cancel (by omega), ConvShape.stateLen, Nat.mul_comm]
  have hslot : (decide (c.slot r ≠ shape.nullBlockId)) = true := decide_eq_true hread.slot
  simp only [ConvCall.tapSource, hrow, hslot, Bool.true_and, Bool.or_true, Nat.add_sub_cancel_left, if_true, fullTap]
  generalize shape.dilation * (shape.kernelSize - 1 - k) = back at hback
  split
  case isTrue hh =>
    rw [Nat.add_comm _ (c.slotOff shape r), hread.eval hh]
    unfold lookback
    by_cases hle : back ≤ h.inputs.length + j
    · rw [if_pos hle, if_pos (by omega), List.getD_append _ _ _ _ (by omega)]
      congr 1
      omega
    · rw [if_neg hle, if_neg (by omega)]
  case isFalse hh =>
    rw [if_pos (by omega), List.getD_append_right _ _ _ _ (by omega), ConvCall.getD_tokens (by omega)]
    simp only [MemSource.eval]
    congr 1
    omega

/-! ## Windows -/

/-- The entry `i` of the window of a row that has consumed `n` tokens. -/
theorem consumed_eval {state : StateAddr → α} {h : SlotHistory α} (hread : RowReads shape c state r h) {n i : Nat}
    (hn : n ≤ c.len r) (hi : i < shape.stateLen) :
    MemSource.eval state
      (if n + i < shape.stateLen then
        if (decide (c.mode = .spec) || c.hasInit shape r) = true then .from (c.slot r, c.slotOff shape r + (n + i)) else .value 0
      else .value (c.input (c.start r + (n + i - shape.stateLen)))) =
      lookback (h.inputs ++ (c.tokens r).take n) (shape.stateLen - i) := by
  rw [lookback_take _ _ (by simpa using hn) hi]
  split
  case isTrue hlt => exact hread.eval hlt
  case isFalse hge =>
    rw [ConvCall.getD_tokens (by omega)]
    rfl

/-! ## Launches -/

theorem launch_spec {n : Nat} {program : Nat → List (MemOp StateAddr α)} {state : StateAddr → α} {schedule : List Nat}
    {m : Machine Nat StateAddr α} (hrun : ConvCall.launch n program state schedule = some m)
    (hsep : ∀ p < n, ∀ q < n, p ≠ q → ∀ a, ∀ op ∈ program p, op.Writes a → ∀ op' ∈ program q, ¬op'.Touches a)
    (hfresh : ∀ p < n, (program p).Pairwise MemOp.NotStale) :
    (∀ p < n, m.regs p = (MemOp.execAll (state, fun _ => 0) (program p)).2) ∧
    (∀ p < n, ∀ a, (∃ op ∈ program p, op.Touches a) → m.mem a = (MemOp.execAll (state, fun _ => 0) (program p)).1 a) ∧
    (∀ a, (∀ p < n, ∀ op ∈ program p, ¬op.Writes a) → m.mem a = state a) ∧
    (m.history.map (·.2)).Pairwise MemOp.NotStale := by
  obtain ⟨hrun, hall⟩ := Option.filter_eq_some_iff.mp hrun
  have hprogs : ∀ p < n, (if p < n then program p else []) = program p := fun p hp => if_pos hp
  have hnil : ∀ p, ¬p < n → (if p < n then program p else []) = [] := fun p hp => if_neg hp
  have h := Machine.run_separate
    (fun p q hpq a op hop hw op' hop' => by
      by_cases hp : p < n
      · by_cases hq : q < n
        · rw [hprogs p hp] at hop
          rw [hprogs q hq] at hop'
          exact hsep p hp q hq hpq a op hop hw op' hop'
        · rw [hnil q hq] at hop'
          cases hop'
      · rw [hnil p hp] at hop
        cases hop)
    (fun p => by
      by_cases hp : p < n
      · rw [hprogs p hp]
        exact hfresh p hp
      · rw [hnil p hp]
        exact List.Pairwise.nil)
    hrun
    (fun p hne => by
      by_cases hp : p < n
      · simpa using List.all_eq_true.mp hall p (List.mem_range.mpr hp)
      · exact absurd (hnil p hp) hne)
  obtain ⟨hregs, hmem, hkept, hfr⟩ := h
  refine ⟨fun p hp => ?_, fun p hp a ha => ?_, fun a ha => hkept a fun p op hop => ?_, hfr⟩
  · rw [hregs p, hprogs p hp]
  · rw [← hprogs p hp] at ha ⊢
    exact hmem p a ha
  · by_cases hp : p < n
    · rw [hprogs p hp] at hop
      exact ha p hp op hop
    · rw [hnil p hp] at hop
      cases hop

/-! ## The kernels -/

theorem tapSource_addr {t k : Nat} {a : StateAddr} (h : c.tapSource shape t k = .from a) :
    c.slot (c.rowOf t).1 ≠ shape.nullBlockId ∧ a.1 = c.slot (c.rowOf t).1 := by
  simp only [ConvCall.tapSource] at h
  split at h
  · split at h
    case isTrue hread =>
      obtain ⟨hok, -⟩ := Bool.and_eq_true_iff.mp hread
      cases h
      exact ⟨of_decide_eq_true hok, rfl⟩
    · cases h
  · cases h

omit [Zero α] in
theorem hasInit_slot (h : c.hasInit shape r = true) : c.slot r ≠ shape.nullBlockId := by
  unfold ConvCall.hasInit at h
  split at h
  · exact of_decide_eq_true h
  · exact of_decide_eq_true (Bool.and_eq_true_iff.mp h).1
  · exact of_decide_eq_true h

theorem decodeSource_addr {t i : Nat} {a : StateAddr} (h : c.decodeSource shape t i = .from a) :
    c.slot t ≠ shape.nullBlockId ∧ a = (c.slot t, i + 1) := by
  simp only [ConvCall.decodeSource] at h
  split at h
  · split at h
    case isTrue hinit =>
      cases h
      exact ⟨hasInit_slot hinit, rfl⟩
    · cases h
  · cases h

theorem writebackSource_addr {i : Nat} {a : StateAddr} (h : c.writebackSource shape r i = .from a) :
    a = (c.slot r, c.slotOff shape r + ((if c.mode = .spec then 1 else c.qlen r) + i)) := by
  simp only [ConvCall.writebackSource] at h
  by_cases hlt : (if c.mode = .spec then 1 else c.qlen r) + i < shape.stateLen
  · rw [if_pos hlt] at h
    by_cases hok : (decide (c.mode = .spec) || c.hasInit shape r) = true
    · rw [if_pos hok] at h
      exact (MemSource.from.inj h).symm
    · rw [if_neg hok] at h
      cases h
  · rw [if_neg hlt] at h
    cases h

/-- A token touches only the slot of its row, and writes only in a decode. -/
theorem convProgram_touches {t : Nat} {op : MemOp StateAddr α} (hop : op ∈ c.convProgram shape t) {a : StateAddr}
    (ha : op.Touches a) : c.slot (c.rowOf t).1 ≠ shape.nullBlockId ∧ a.1 = c.slot (c.rowOf t).1 := by
  rcases List.mem_append.mp hop with hop | hop
  · obtain ⟨k, -, rfl⟩ := List.mem_map.mp hop
    exact tapSource_addr (MemSource.op_touches ha)
  · split at hop
    case isTrue hmode =>
      have hrow : (c.rowOf t).1 = t := by simp only [ConvCall.rowOf, hmode]
      rw [hrow]
      obtain ⟨i, -, rfl | ⟨hkeep, rfl⟩⟩ := mem_moveOps hop
      · obtain ⟨hslot, rfl⟩ := decodeSource_addr (MemSource.op_touches ha)
        exact ⟨hslot, rfl⟩
      · obtain rfl : (c.slot t, i) = a := ha
        exact ⟨of_decide_eq_true hkeep, rfl⟩
    · cases hop

theorem convProgram_writes {t : Nat} {op : MemOp StateAddr α} (hop : op ∈ c.convProgram shape t) {a : StateAddr}
    (ha : op.Writes a) : c.mode = .decode ∧ c.slot t ≠ shape.nullBlockId ∧ a.1 = c.slot t := by
  rcases List.mem_append.mp hop with hop | hop
  · obtain ⟨k, -, rfl⟩ := List.mem_map.mp hop
    exact absurd ha MemSource.op_not_writes
  · split at hop
    case isTrue hmode =>
      obtain ⟨i, -, rfl | ⟨hkeep, rfl⟩⟩ := mem_moveOps hop
      · exact absurd ha MemSource.op_not_writes
      · obtain rfl : (c.slot t, i) = a := ha
        exact ⟨hmode, of_decide_eq_true hkeep, rfl⟩
    · cases hop

theorem convProgram_fresh (t : Nat) : (c.convProgram shape t).Pairwise MemOp.NotStale := by
  refine List.pairwise_append.mpr ⟨readOps_fresh .., ?_, fun x hx y _ => ?_⟩
  · split
    · refine moveOps_fresh _ fun i j hij hj a hsrc hdst => ?_
      obtain ⟨-, rfl⟩ := decodeSource_addr hsrc
      have := (Prod.mk.inj hdst).2
      omega
    · exact List.Pairwise.nil
  · obtain ⟨k, -, rfl⟩ := List.mem_map.mp hx
    exact MemSource.notStale y

theorem decode_moves (t : Nat) (s : (StateAddr → α) × (Nat → α)) :
    (∀ i < shape.stateLen, c.slot t ≠ shape.nullBlockId →
      (MemOp.execAll s (moveOps shape.kernelSize (c.decodeSource shape t) (fun i => (c.slot t, i))
        (fun _ => c.slot t ≠ shape.nullBlockId) shape.stateLen)).1 (c.slot t, i) = (c.decodeSource shape t i).eval s.1) ∧
    ∀ k, k ≠ shape.kernelSize →
      (MemOp.execAll s (moveOps shape.kernelSize (c.decodeSource shape t) (fun i => (c.slot t, i))
        (fun _ => c.slot t ≠ shape.nullBlockId) shape.stateLen)).2 k = s.2 k := by
  obtain ⟨hdst, -, hregs⟩ := execAll_moveOps shape.kernelSize (c.decodeSource shape t)
    (fun i => (c.slot t, i)) (fun _ => c.slot t ≠ shape.nullBlockId) (fun i j h => (Prod.mk.inj h).2) s shape.stateLen fun i j hij hj a hsrc hdst => by
      obtain ⟨-, rfl⟩ := decodeSource_addr hsrc
      have := (Prod.mk.inj hdst).2
      omega
  exact ⟨fun i hi hslot => hdst i hi (decide_eq_true hslot), hregs⟩

theorem convProgram_taps (s : (StateAddr → α) × (Nat → α)) (t : Nat) {k : Nat} (hk : k < shape.kernelSize) :
    (MemOp.execAll s (c.convProgram shape t)).2 k = (c.tapSource shape t k).eval s.1 := by
  obtain ⟨-, hregs⟩ := execAll_readOps (c.tapSource shape t) s shape.kernelSize
  rw [ConvCall.convProgram, MemOp.execAll_append]
  split
  · rw [(decode_moves t _).2 k (by omega)]
    exact hregs k hk
  · exact hregs k hk

theorem convProgram_state (s : (StateAddr → α) × (Nat → α)) {t i : Nat} (hmode : c.mode = .decode)
    (hslot : c.slot t ≠ shape.nullBlockId) (hi : i < shape.stateLen) :
    (MemOp.execAll s (c.convProgram shape t)).1 (c.slot t, i) = (c.decodeSource shape t i).eval s.1 := by
  obtain ⟨hmem, -⟩ := execAll_readOps (c.tapSource shape t) s shape.kernelSize
  rw [ConvCall.convProgram, MemOp.execAll_append, if_pos hmode, (decode_moves t _).1 i hi hslot, hmem]

theorem writebackProgram_touches {op : MemOp StateAddr α} (hop : op ∈ c.writebackProgram shape r) {a : StateAddr}
    (ha : op.Touches a) : c.slot r ≠ shape.nullBlockId ∧ a.1 = c.slot r := by
  unfold ConvCall.writebackProgram at hop
  split at hop
  · cases hop
  case isFalse hslot =>
    split at hop
    · cases hop
    · refine ⟨hslot, ?_⟩
      obtain ⟨i, -, rfl | ⟨-, rfl⟩⟩ := mem_moveOps hop
      · rw [writebackSource_addr (MemSource.op_touches ha)]
      · obtain rfl : (c.slot r, i) = a := ha
        rfl

/-- A window moves by at least one entry, so that an entry is read before it is written. -/
theorem writeback_later (hmove : ¬(c.mode ≠ .spec ∧ c.qlen r = 0)) {i j : Nat} (hij : i < j) {a : StateAddr}
    (hsrc : c.writebackSource shape r j = .from a) : a ≠ (c.slot r, i) := by
  rw [writebackSource_addr hsrc]
  intro heq
  have hidx := (Prod.mk.inj heq).2
  by_cases hmode : c.mode = .spec
  · rw [if_pos hmode] at hidx
    omega
  · rw [if_neg hmode] at hidx
    have : c.qlen r ≠ 0 := fun h => hmove ⟨hmode, h⟩
    omega

theorem writebackProgram_fresh (r : Nat) : (c.writebackProgram shape r).Pairwise MemOp.NotStale := by
  unfold ConvCall.writebackProgram
  split
  · exact List.Pairwise.nil
  split
  · exact List.Pairwise.nil
  case isFalse hmove => exact moveOps_fresh _ fun i j hij _ a hsrc => writeback_later hmove hij hsrc

theorem writebackProgram_state (s : (StateAddr → α) × (Nat → α)) {i : Nat} (hslot : c.slot r ≠ shape.nullBlockId)
    (hpos : 0 < c.qlen r) (hi : i < if c.mode = .spec then c.stateWidth shape else shape.stateLen)
    (hw : c.doWrite shape r i = true) :
    (∃ op ∈ c.writebackProgram shape r, op.Touches (c.slot r, i)) ∧
    (MemOp.execAll s (c.writebackProgram shape r)).1 (c.slot r, i) = (c.writebackSource shape r i).eval s.1 := by
  have hmove : ¬(c.mode ≠ .spec ∧ c.qlen r = 0) := fun h => by omega
  unfold ConvCall.writebackProgram
  rw [if_neg hslot, if_neg hmove]
  refine ⟨⟨_, store_mem_moveOps _ hi hw, rfl⟩, ?_⟩
  obtain ⟨hdst, -⟩ := execAll_moveOps 0 (c.writebackSource shape r) (fun i => (c.slot r, i))
    (c.doWrite shape r) (fun i j h => (Prod.mk.inj h).2) s _
    fun i j hij _ a hsrc => writeback_later hmove hij hsrc
  exact hdst i hi hw

/-! ## Calls -/

/-- What a call reads for the taps, what it leaves in the state, and that nothing stale is read. -/
structure CallSpec (shape : ConvShape) (c : ConvCall α) (state : StateAddr → α) (out : ConvOutput α) : Prop where
  taps : ∀ t < c.numTokens, ∀ k < shape.kernelSize, out.taps t k = (c.tapSource shape t k).eval state
  decoded : c.mode = .decode → ∀ r < c.numReqs, c.slot r ≠ shape.nullBlockId → ∀ i < shape.stateLen,
    out.state (c.slot r, i) = (c.decodeSource shape r i).eval state
  written : c.mode ≠ .decode → ∀ r < c.numReqs, c.slot r ≠ shape.nullBlockId → 0 < c.qlen r →
    ∀ i < (if c.mode = .spec then c.stateWidth shape else shape.stateLen), c.doWrite shape r i = true →
      out.state (c.slot r, i) = (c.writebackSource shape r i).eval state
  untouched : ∀ a, (∀ r < c.numReqs, c.slot r ≠ shape.nullBlockId → a.1 ≠ c.slot r) → out.state a = state a
  fresh : ∀ ops ∈ out.launches, ops.Pairwise MemOp.NotStale

theorem conv_launch {state : StateAddr → α} {schedule : List Nat} {m : Machine Nat StateAddr α}
    (hwf : c.WellFormed shape) (hrun : ConvCall.launch c.numTokens (c.convProgram shape) state schedule = some m) :
    (∀ t < c.numTokens, m.regs t = (MemOp.execAll (state, fun _ => 0) (c.convProgram shape t)).2) ∧
    (∀ t < c.numTokens, ∀ a, (∃ op ∈ c.convProgram shape t, op.Touches a) →
      m.mem a = (MemOp.execAll (state, fun _ => 0) (c.convProgram shape t)).1 a) ∧
    (∀ a, (∀ t < c.numTokens, ∀ op ∈ c.convProgram shape t, ¬op.Writes a) → m.mem a = state a) ∧
    (m.history.map (·.2)).Pairwise MemOp.NotStale := by
  refine launch_spec hrun (fun p hp q hq hpq a op hop hw op' hop' ht => ?_) fun p _ => convProgram_fresh p
  obtain ⟨hmode, hslot, hp₁⟩ := convProgram_writes hop hw
  obtain ⟨-, hq₁⟩ := convProgram_touches hop' ht
  have hrow : (c.rowOf q).1 = q := by simp only [ConvCall.rowOf, hmode]
  have hreqs : c.numReqs = c.numTokens := by simp only [ConvCall.numReqs, hmode]
  rw [hrow] at hq₁
  exact hpq (hwf.2 p (by omega) q (by omega) hslot (hp₁.symm.trans hq₁))

theorem writeback_launch {state : StateAddr → α} {schedule : List Nat} {m : Machine Nat StateAddr α}
    (hwf : c.WellFormed shape) (hrun : ConvCall.launch c.numReqs (c.writebackProgram shape) state schedule = some m) :
    (∀ r < c.numReqs, ∀ a, (∃ op ∈ c.writebackProgram shape r, op.Touches a) →
      m.mem a = (MemOp.execAll (state, fun _ => 0) (c.writebackProgram shape r)).1 a) ∧
    (∀ a, (∀ r < c.numReqs, c.slot r ≠ shape.nullBlockId → a.1 ≠ c.slot r) → m.mem a = state a) ∧
    (m.history.map (·.2)).Pairwise MemOp.NotStale := by
  have hwrites : ∀ {r : Nat} {op : MemOp StateAddr α} {a : StateAddr}, op.Writes a → op.Touches a := by
    intro r op a h
    cases op with
    | store b k => exact h
    | load k b => cases h
    | put k v => cases h
  obtain ⟨-, hmem, hkept, hfresh⟩ := launch_spec hrun
    (fun p hp q hq hpq a op hop hw op' hop' ht => by
      obtain ⟨hslot, hp₁⟩ := writebackProgram_touches hop (hwrites (r := p) hw)
      obtain ⟨-, hq₁⟩ := writebackProgram_touches hop' ht
      exact hpq (hwf.2 p hp q hq hslot (hp₁.symm.trans hq₁)))
    fun p _ => writebackProgram_fresh p
  refine ⟨hmem, fun a ha => hkept a fun p hp op hop hw => ?_, hfresh⟩
  obtain ⟨hslot, hp₁⟩ := writebackProgram_touches hop (hwrites (r := p) hw)
  exact ha p hp hslot hp₁

theorem pleConv_spec {state : StateAddr → α} {schedule writeback : List Nat} {out : ConvOutput α}
    (hwf : c.WellFormed shape) (hrun : pleConv shape c state schedule writeback = some out) :
    CallSpec shape c state out := by
  unfold pleConv at hrun
  split at hrun
  · cases hrun
  obtain ⟨conv, hconv, hrun⟩ := Option.bind_eq_some_iff.mp hrun
  obtain ⟨hregs, hmem, hkept, hfresh⟩ := conv_launch hwf hconv
  have htaps : ∀ t < c.numTokens, ∀ k < shape.kernelSize, conv.regs t k = (c.tapSource shape t k).eval state := by
    intro t ht k hk
    rw [hregs t ht]
    exact convProgram_taps _ t hk
  split at hrun
  case isTrue hmode =>
    cases hrun
    have hreqs : c.numReqs = c.numTokens := by simp only [ConvCall.numReqs, hmode]
    refine ⟨htaps, fun _ r hr hslot i hi => ?_, fun h => absurd hmode h, fun a ha => hkept a fun t ht op hop hw => ?_, ?_⟩
    · refine (hmem r (by omega) _ ⟨.store (c.slot r, i) shape.kernelSize, List.mem_append_right _ ?_, rfl⟩).trans
        (convProgram_state _ hmode hslot hi)
      rw [if_pos hmode]
      exact store_mem_moveOps (fun i => (c.slot r, i)) hi (decide_eq_true hslot)
    · obtain ⟨-, hslot, heq⟩ := convProgram_writes hop hw
      exact ha t (by omega) hslot heq
    · intro ops hops
      obtain rfl := List.mem_singleton.mp hops
      exact hfresh
  case isFalse hmode =>
    obtain ⟨back, hback, rfl⟩ := Option.map_eq_some_iff.mp hrun
    -- the first launch leaves the state as it was
    have hsame : conv.mem = state := funext fun a => hkept a fun t _ op hop hw => hmode (convProgram_writes hop hw).1
    rw [hsame] at hback
    obtain ⟨hmem', hkept', hfresh'⟩ := writeback_launch hwf hback
    refine ⟨htaps, fun h => absurd h hmode, fun _ r hr hslot hpos i hi hw => ?_, hkept', ?_⟩
    · obtain ⟨htouch, heq⟩ := writebackProgram_state (state, fun _ => 0) hslot hpos hi hw
      exact (hmem' r hr _ htouch).trans heq
    · intro ops hops
      rcases List.mem_cons.mp hops with rfl | hops
      · exact hfresh
      · obtain rfl := List.mem_singleton.mp hops
        exact hfresh'

/-! ## Requests -/

section
variable {slots : Nat → Option (SlotHistory α)} {flags : Nat → RowFlags} {state : StateAddr → α} {out : ConvOutput α}

omit [Zero α] in
theorem rowAllowed_spec (h : rowAllowed shape slots c flags r = true) :
    ∃ hist, prior slots c flags r = some hist ∧ 0 < c.len r ∧
      (c.mode = .decode → (flags r).first = false ∧ hist.accepted = 1 ∧ c.hasInit shape r = true) ∧
      (c.mode = .prefill → hist.accepted = 1 ∧ c.hasInit shape r = !(flags r).first) ∧
      (c.mode = .spec → (flags r).first = false ∧ c.numAcceptedTokens.getD r 0 = (hist.accepted : Int) ∧
        c.len r ≤ shape.specQueryLen ∧ 1 ≤ (flags r).accepted ∧ (flags r).accepted ≤ c.len r) := by
  unfold rowAllowed at h
  split at h
  · cases h
  case h_2 hist hprior =>
    refine ⟨hist, hprior, ?_⟩
    cases hm : c.mode <;> simp_all

theorem rowReads_of_allowed (hslot : c.slot r ≠ shape.nullBlockId)
    (hholds : ∀ h, slots (c.slot r) = some h → Holds shape state (c.slot r) h)
    (hallowed : rowAllowed shape slots c flags r = true) :
    ∃ h, prior slots c flags r = some h ∧ RowReads shape c state r h := by
  obtain ⟨h, hprior, hpos, hdecode, hprefill, hspec⟩ := rowAllowed_spec hallowed
  refine ⟨h, hprior, hslot, hpos, ?_⟩
  unfold prior at hprior
  split at hprior
  case isTrue hfirst =>
    cases hprior
    cases hm : c.mode with
    | decode => simp [hfirst] at hdecode hm; exact absurd hm hdecode
    | spec => simp [hfirst] at hspec hm; exact absurd hm hspec
    | prefill =>
      obtain ⟨-, hinit⟩ := hprefill hm
      exact .inl ⟨rfl, nofun, by simpa [hfirst] using hinit⟩
  case isFalse hfirst =>
    obtain ⟨hpos', hle, hwin⟩ := hholds h hprior
    have hfirst' : (flags r).first = false := by simpa using hfirst
    -- the window is where the slot holds it
    cases hm : c.mode with
    | decode =>
      obtain ⟨-, hone, hinit⟩ := hdecode hm
      refine .inr ⟨.inr hinit, fun i hi => ?_⟩
      have := hwin i hi
      rw [hone] at this
      simpa only [ConvCall.slotOff, hm] using this
    | prefill =>
      obtain ⟨hone, hinit⟩ := hprefill hm
      rw [hfirst'] at hinit
      refine .inr ⟨.inr hinit, fun i hi => ?_⟩
      have := hwin i hi
      rw [hone] at this
      simpa only [ConvCall.slotOff, hm] using this
    | spec =>
      obtain ⟨-, hacc, hlen, -, -⟩ := hspec hm
      refine .inr ⟨.inl rfl, fun i hi => ?_⟩
      have hoff : c.slotOff shape r = h.accepted - 1 := by
        simp only [ConvCall.slotOff, hm, hacc]
        omega
      rw [hoff]
      exact hwin i hi

theorem holds_record (hcall : CallSpec shape c state out) (hr : r < c.numReqs) {h : SlotHistory α} (hallowed : rowAllowed shape slots c flags r = true)
    (hread : RowReads shape c state r h) : Holds shape out.state (c.slot r) (record c flags h r) := by
  obtain ⟨h', hprior', hpos, -, -, hspec⟩ := rowAllowed_spec hallowed
  cases hm : c.mode with
  | decode =>
    have hlen : c.len r = 1 := by simp [ConvCall.len, hm]
    have hrec : record c flags h r = ⟨h.inputs ++ c.tokens r, 1⟩ := by simp [record, hm]
    rw [hrec]
    refine ⟨Nat.le_refl 1, Nat.le_max_right .., fun i hi => ?_⟩
    have hcons := consumed_eval hread (n := 1) (by omega) hi
    rw [List.take_of_length_le (by simp [hlen])] at hcons
    simp only [Nat.sub_self, Nat.zero_add]
    rw [hcall.decoded hm r hr hread.slot i hi, ← hcons]
    simp only [ConvCall.decodeSource, ConvCall.slotOff, ConvCall.start, hm, Nat.zero_add, Nat.add_comm 1 i]
    split
    · simp
    · have hi0 : i + 1 - shape.stateLen = 0 := by omega
      simp [hread.slot, hi0]
  | prefill =>
    have hmode : c.mode ≠ .decode := by rw [hm]; rintro ⟨⟩
    have hlen : c.len r = c.qlen r := if_neg hmode
    have hrec : record c flags h r = ⟨h.inputs ++ c.tokens r, 1⟩ := by simp [record, hm]
    rw [hrec]
    refine ⟨Nat.le_refl 1, Nat.le_max_right .., fun i hi => ?_⟩
    have hcons := consumed_eval hread (Nat.le_refl (c.len r)) hi
    rw [List.take_of_length_le (by simp)] at hcons
    simp only [Nat.sub_self, Nat.zero_add]
    rw [hcall.written hmode r hr hread.slot (by omega) i (by simpa [hm] using hi) (by simp [ConvCall.doWrite, hm]), ← hcons]
    have hshift : (if c.mode = .spec then 1 else c.qlen r) = c.qlen r := if_neg (by rw [hm]; rintro ⟨⟩)
    have hstart : c.start r = c.qsl r := if_neg hmode
    have hwrite : c.doWrite shape r i = true := by simp [ConvCall.doWrite, hm]
    simp only [ConvCall.writebackSource, hshift, hstart, hwrite, hlen, if_true]
    by_cases hlt : c.qlen r + i < shape.stateLen
    · rw [if_pos hlt, if_pos hlt]
    · rw [if_neg hlt, if_neg hlt, Nat.add_sub_assoc (by omega)]
  | spec =>
    have hmode : c.mode ≠ .decode := by rw [hm]; rintro ⟨⟩
    have hlen : c.len r = c.qlen r := if_neg hmode
    obtain ⟨-, -, hquery, hacc, hacc'⟩ := hspec hm
    have hrec : record c flags h r = ⟨h.inputs ++ (c.tokens r).take (flags r).accepted, (flags r).accepted⟩ := by
      simp [record, hm]
    rw [hrec]
    generalize (flags r).accepted = a at hacc hacc'
    refine ⟨hacc, Nat.le_trans (Nat.le_trans hacc' hquery) (Nat.le_max_left ..), fun i hi => ?_⟩
    have hcons := consumed_eval hread hacc' hi
    have hwidth : a - 1 + i < c.stateWidth shape := by
      have heq : c.stateWidth shape = shape.stateLen + shape.specQueryLen - 1 := by simp [ConvCall.stateWidth, hm]
      omega
    have hwrite : c.doWrite shape r (a - 1 + i) = true := by
      simp only [ConvCall.doWrite, hm, ne_eq, not_true, decide_false, Bool.false_or]
      exact decide_eq_true (by omega)
    simp only
    rw [hcall.written hmode r hr hread.slot (by omega) _ (by simpa [hm] using hwidth) hwrite, ← hcons]
    have hshift : (if c.mode = .spec then 1 else c.qlen r) + (a - 1 + i) = a + i := by
      rw [if_pos hm]
      omega
    have hstart : c.start r = c.qsl r := if_neg hmode
    simp only [ConvCall.writebackSource, hshift, hstart, hwrite, if_true]
    by_cases hlt : a + i < shape.stateLen
    · rw [if_pos hlt, if_pos hlt]
    · rw [if_neg hlt, if_neg hlt, Nat.add_sub_assoc (by omega)]

end

/-! ## Runs -/

/-- What is to hold of a call that has been made. -/
structure Exact (shape : ConvShape) (e : ConvEntry α) : Prop where
  -- the taps of a row are the inputs of its request
  taps : ∀ r < e.call.numReqs, e.call.slot r ≠ shape.nullBlockId → ∃ h, prior e.slots e.call e.flags r = some h ∧
    ∀ j < e.call.len r, ∀ k < shape.kernelSize, e.output.taps (e.call.start r + j) k =
      fullTap shape (h.inputs ++ e.call.tokens r) (h.inputs.length + j) k
  -- the state changes only in the slots of rows
  untouched : ∀ a, (∀ r < e.call.numReqs, e.call.slot r ≠ shape.nullBlockId → a.1 ≠ e.call.slot r) →
    e.output.state a = e.state a
  fresh : ∀ ops ∈ e.output.launches, ops.Pairwise MemOp.NotStale

namespace ConvSystem

variable {s s' : ConvSystem α}

structure Inv (shape : ConvShape) (s : ConvSystem α) : Prop where
  slots : ∀ slot h, s.slots slot = some h → slot ≠ shape.nullBlockId ∧ Holds shape s.state slot h
  log : ∀ e ∈ s.log, Exact shape e

theorem Inv.callStep {e : ConvEvent α} (h : s.Inv shape) (hstep : s.callStep shape e = some s') : s'.Inv shape := by
  unfold ConvSystem.callStep at hstep
  split at hstep
  case isFalse => cases hstep
  case isTrue hallowed =>
    obtain ⟨out, hout, rfl⟩ := Option.map_eq_some_iff.mp hstep
    obtain ⟨hwf, hrows⟩ := Bool.and_eq_true_iff.mp hallowed
    have hwf : e.call.WellFormed shape := of_decide_eq_true hwf
    have hcall := pleConv_spec hwf hout
    have hrow : ∀ r < e.call.numReqs, e.call.slot r ≠ shape.nullBlockId →
        rowAllowed shape s.slots e.call e.flags r = true := by
      intro r hr hslot
      have := List.all_eq_true.mp hrows r (List.mem_range.mpr hr)
      simpa [hslot] using this
    have hreads : ∀ r < e.call.numReqs, e.call.slot r ≠ shape.nullBlockId →
        ∃ hist, prior s.slots e.call e.flags r = some hist ∧ RowReads shape e.call s.state r hist :=
      fun r hr hslot => rowReads_of_allowed hslot (fun hist hh => (h.slots _ hist hh).2) (hrow r hr hslot)
    refine ⟨fun slot hist hslots => ?_, fun entry hmem => ?_⟩
    · have hh : s.recordRows shape e.call e.flags slot = some hist := hslots
      clear hslots
      unfold recordRows at hh
      split at hh
      case h_1 r hfind =>
        -- the slot of a row
        have hr := List.mem_range.mp (List.mem_of_find?_eq_some hfind)
        have hfound := List.find?_some hfind
        obtain ⟨heq, hnull⟩ := Bool.and_eq_true_iff.mp hfound
        have heq : e.call.slot r = slot := of_decide_eq_true heq
        have hnull : slot ≠ shape.nullBlockId := of_decide_eq_true hnull
        subst heq
        obtain ⟨hist₀, hprior, hread⟩ := hreads r hr hnull
        rw [hprior] at hh
        cases hh
        exact ⟨hnull, holds_record hcall hr (hrow r hr hnull) hread⟩
      case h_2 hfind =>
        obtain ⟨hnull, hholds⟩ := h.slots slot hist hh
        have hother : ∀ r < e.call.numReqs, e.call.slot r ≠ shape.nullBlockId → slot ≠ e.call.slot r := by
          rintro r hr - rfl
          have := List.find?_eq_none.mp hfind r (List.mem_range.mpr hr)
          simp [hnull] at this
        refine ⟨hnull, hholds.pos, hholds.le, fun i hi => ?_⟩
        exact (hcall.untouched _ hother).trans (hholds.window i hi)
    · rcases List.mem_append.mp hmem with hmem | hmem
      · exact h.log entry hmem
      · obtain rfl := List.mem_singleton.mp hmem
        refine ⟨fun r hr hslot => ?_, hcall.untouched, hcall.fresh⟩
        obtain ⟨hist, hprior, hread⟩ := hreads r hr hslot
        refine ⟨hist, hprior, fun j hj k hk => ?_⟩
        obtain ⟨-, htotal⟩ := ConvCall.rowOf_spec hwf hr hj
        exact (hcall.taps _ htotal k hk).trans (tapSource_eval hwf hr hread hj hk)

theorem Inv.batchStep {b : Batch α} (h : s.Inv shape) (hstep : s.batchStep shape b = some s') : s'.Inv shape := by
  obtain ⟨calls, -, hrun⟩ := Option.bind_eq_some_iff.mp hstep
  split at hrun
  · exact run_kept (fun _ _ _ hs hstep => hs.callStep hstep) h hrun
  · cases hrun

/-- A launch can always be run to its end, and so can a call that fits in the window. -/
theorem launch_total (n : Nat) (program : Nat → List (MemOp StateAddr α)) (state : StateAddr → α) :
    ∃ schedule m, ConvCall.launch n program state schedule = some m := by
  obtain ⟨schedule, m, hrun, hdone⟩ := Machine.finish_all
    (Machine.start (fun p => if p < n then program p else []) (state, fun _ => 0)) n
  refine ⟨schedule, m, Option.filter_eq_some_iff.mpr ⟨hrun, List.all_eq_true.mpr fun p hp => ?_⟩⟩
  rw [hdone p (List.mem_range.mp hp)]
  rfl

theorem callStep_total {c : ConvCall α} {flags : Nat → RowFlags} (hallowed : s.allowed shape c flags = true)
    (hwidth : c.stateWidth shape ≤ shape.window) :
    ∃ schedule writeback s', s.callStep shape ⟨c, flags, schedule, writeback⟩ = some s' := by
  obtain ⟨schedule, conv, hconv⟩ := launch_total c.numTokens (c.convProgram shape) s.state
  obtain ⟨writeback, back, hback⟩ := launch_total c.numReqs (c.writebackProgram shape) conv.mem
  have hout : ∃ out, pleConv shape c s.state schedule writeback = some out := by
    unfold pleConv
    rw [if_neg (by omega), hconv, Option.bind_some]
    split
    · exact ⟨_, rfl⟩
    · rw [hback]
      exact ⟨_, rfl⟩
  obtain ⟨out, hout⟩ := hout
  refine ⟨schedule, writeback, ⟨out.state, s.recordRows shape c flags, s.log ++ [⟨c, flags, s.slots, s.state, out⟩]⟩, ?_⟩
  simp only [ConvSystem.callStep, hallowed, if_true, hout, Option.map_some]

end ConvSystem

/-- In a run of batches over any state, every tap of a token is the input of its request at that place, the slots that no
row has are as they were, and no entry of the state is read after it was written in a launch; and every call that keeps
to the rules can be made. -/
theorem streaming_exact (shape : ConvShape) (state : StateAddr → α) (batches : List (ConvSystem.Batch α))
    (s : ConvSystem α) (hrun : runFrom (ConvSystem.batchStep shape) { state } batches = some s) :
    (∀ e ∈ s.log, Exact shape e) ∧
    ∀ c flags, s.allowed shape c flags = true → c.stateWidth shape ≤ shape.window →
      ∃ schedule writeback s', s.callStep shape ⟨c, flags, schedule, writeback⟩ = some s' := by
  have hinit : ConvSystem.Inv shape ({ state } : ConvSystem α) := ⟨nofun, nofun⟩
  refine ⟨?_, fun c flags hallowed hwidth => ConvSystem.callStep_total hallowed hwidth⟩
  exact (run_kept (fun _ _ _ hs hstep => hs.batchStep hstep) hinit hrun).log

def smallShape : ConvShape := ⟨3, 2, 2, 5, 0⟩

def rounds (programs : List Nat) (n : Nat) : List Nat := (List.replicate n programs).flatten

/-- Two requests and an idle row are prefilled; one takes two drafts while the other decodes, both are accepted, and it
takes one more. -/
def mixedRun : List (ConvSystem.Batch Int) := [
  ⟨⟨5, 3, 0, 5, 0, false, 0, none, none, none, none, none, some [1, 0, 2], some [0, 3, 4, 5], none,
      some [false, false, false]⟩,
    [1, 2, 3, 9, 10], [(fun _ => ⟨true, 0⟩, rounds [0, 1, 2, 3, 4] 3, rounds [0, 2] 8)]⟩,
  ⟨⟨3, 0, 1, 0, 1, true, 1, some [1, 2], some [0], some [1], some [0, 2], some [1], some [2], none, none, none⟩,
    [11, 4, 5], [(fun _ => ⟨false, 2⟩, rounds [0, 1] 3, rounds [0] 10), (fun _ => ⟨false, 0⟩, rounds [0] 11, [])]⟩,
  ⟨⟨1, 0, 0, 0, 0, true, 1, none, none, some [1], some [0, 1], some [2], none, none, none, none⟩,
    [6], [(fun _ => ⟨false, 1⟩, rounds [0] 3, rounds [0] 9)]⟩]

theorem streaming_exact_mixedRun : ∃ s, runFrom (ConvSystem.batchStep smallShape) { state := fun _ => -1 } mixedRun = some s ∧
    s.log.map (fun e => [e.output.taps 0 0, e.output.taps 0 1, e.output.taps 0 2]) =
      [[0, 0, 1], [0, 2, 4], [0, 0, 11], [2, 4, 6]] ∧
    ∀ e ∈ s.log, Exact smallShape e := by
  have hmap : (runFrom (ConvSystem.batchStep smallShape) { state := fun _ => -1 } mixedRun).map
      (fun s => s.log.map fun e => [e.output.taps 0 0, e.output.taps 0 1, e.output.taps 0 2]) =
      some [[0, 0, 1], [0, 2, 4], [0, 0, 11], [2, 4, 6]] := by decide +kernel
  obtain ⟨s, hs, hval⟩ := Option.map_eq_some_iff.mp hmap
  exact ⟨s, hs, hval, (streaming_exact smallShape (fun _ => -1) mixedRun s hs).1⟩

end VllmHcu.Ple
