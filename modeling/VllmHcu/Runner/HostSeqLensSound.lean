import VllmHcu.Lib.Assoc
import VllmHcu.Lib.Result
import VllmHcu.Runner.HostSeqLens

/-!
# The mirror never lags behind what it attaches

The mirror owes a slot the recorded correction, unless the slot was given away
since. What it holds plus what it owes is the device count of every slot in use,
in every state; resolving pays the debt, so what is attached is the device count.
-/

namespace VllmHcu.Runner

open HostMirror RunnerState

section
variable {values : Nat → Int} {slot : Nat}

theorem scatter_snoc {α : Type} (f : Nat → α) (ws : List (Nat × α)) (w : Nat × α) :
    scatter f (ws ++ [w]) = Function.update (scatter f ws) w.1 w.2 := by
  rw [scatter_append, scatter_cons, scatter_nil]

/-- The sum that `ps` adds to `slot`. -/
def added (ps : List (Nat × Int)) (slot : Nat) : Int := scatter (fun _ => 0) ps slot

theorem addAt_eq (ps : List (Nat × Int)) : addAt values ps slot = values slot + added ps slot := by
  induction ps using List.reverseRecOn with
  | nil => simp [addAt, added]
  | append_singleton ps p ih =>
    unfold addAt added at *
    rw [List.map_append, List.map_singleton, scatter_snoc, scatter_snoc]
    by_cases hp : slot = p.1
    · subst hp
      simp
    · rw [Function.update_of_ne hp, Function.update_of_ne hp, ih]

theorem added_filter (fresh : Nat → Bool) (ps : List (Nat × Int)) :
    added (ps.filter fun p => !fresh p.1) slot = if fresh slot then 0 else added ps slot := by
  induction ps using List.reverseRecOn with
  | nil => simp [added]
  | append_singleton ps p ih =>
    unfold added at *
    rw [List.filter_append]
    by_cases hp : slot = p.1
    · subst hp
      cases hf : fresh p.1 with
      | true => simpa [hf] using ih
      | false => simp [hf, scatter_snoc]
    · cases hf : fresh p.1 with
      | true => simp [hf, ih, scatter_snoc, Function.update_of_ne hp]
      | false => simp [hf, ih, scatter_snoc, Function.update_of_ne hp]

end

/-! ## What the mirror owes -/

/-- The correction still to be applied to `slot`. -/
def HostMirror.owed (m : HostMirror) (slot : Nat) : Int :=
  match m.pending with
  | none => 0
  | some (idx, delta, hasRejected) =>
    if m.fresh slot then 0 else added (idx.zip (m.deltas idx delta hasRejected)) slot

theorem resolve_exact (m : HostMirror) (slot : Nat) : m.resolve.exact slot = m.exact slot + m.owed slot := by
  unfold resolve owed
  cases m.pending with
  | none => simp
  | some p =>
    simp only [addAt_eq, added_filter]

@[simp] theorem resolve_pending (m : HostMirror) : m.resolve.pending = none := by
  unfold resolve
  cases h : m.pending with
  | none => simp
  | some p => rfl

@[simp] theorem resolve_fresh (m : HostMirror) : m.resolve.fresh = fun _ => false := by
  unfold resolve
  cases m.pending <;> rfl

@[simp] theorem resolve_batch (m : HostMirror) : m.resolve.batch = m.batch := by
  unfold resolve
  cases m.pending <;> rfl

theorem owed_of_pending_none {m : HostMirror} (h : m.pending = none) (slot : Nat) : m.owed slot = 0 := by
  simp [owed, h]

/-- The mirror agrees with the device on every slot in use. -/
structure Synced (s : RunnerState) : Prop where
  ids : (s.reqIdToIndex.map Prod.fst).Nodup
  slots : (s.reqIdToIndex.map Prod.snd).Nodup
  count : ∀ slot ∈ s.reqIdToIndex.map Prod.snd, s.numComputed slot = s.mirror.exact slot + s.mirror.owed slot

/-- The attached entries are the device values, and the check has nothing to report. -/
structure Attachment.Consistent (a : Attachment) : Prop where
  computed : ∀ (i slot : Nat), a.slots[i]? = some slot → a.host.numComputedTokensCpu[i]? = some (a.numComputed slot)
  seqLens : a.host.seqLensCpu = a.seqLens
  reported : a.host.reported = []

section
variable {s s' : RunnerState}

/-! ## Requests come and go -/

theorem finishRequests_synced (h : Synced s) (finished : List Nat) : Synced (s.finishRequests finished) := by
  have hsub : (s.finishRequests finished).reqIdToIndex.Sublist s.reqIdToIndex := List.filter_sublist
  exact ⟨h.ids.sublist (hsub.map _), h.slots.sublist (hsub.map _), fun slot hslot => h.count slot ((hsub.map _).mem hslot)⟩

/-- The writes that the new requests make, to the device and to the mirror. -/
def newCounts (newReqs : List NewRequest) : List (Nat × Int) := newReqs.map fun r => (r.reqIndex, r.numComputedTokens)

/-- The base runner gives every new request a slot of its own. -/
structure Added (s : RunnerState) (newReqs : List NewRequest) (s' : RunnerState) : Prop where
  ids : (s'.reqIdToIndex.map Prod.fst).Nodup
  slots : (s'.reqIdToIndex.map Prod.snd).Nodup
  mem : ∀ p, p ∈ s'.reqIdToIndex ↔ p ∈ s.reqIdToIndex ∨ ∃ r ∈ newReqs, p = (r.reqId, r.reqIndex)
  numComputed : s'.numComputed = scatter s.numComputed (newCounts newReqs)
  mirror : s'.mirror = s.mirror
  attached : s'.attached = s.attached

theorem addToSlot_added {r : NewRequest} (hids : (s.reqIdToIndex.map Prod.fst).Nodup)
    (hslots : (s.reqIdToIndex.map Prod.snd).Nodup) (h : s.addToSlot r = some s') : Added s [r] s' := by
  unfold addToSlot at h
  split at h
  · cases h
  · rename_i hfree
    rw [not_or] at hfree
    cases h
    refine ⟨List.nodup_cons.mpr ⟨hfree.1, hids⟩, List.nodup_cons.mpr ⟨hfree.2, hslots⟩, fun p => ?_, rfl, rfl, rfl⟩
    simp [or_comm]

theorem addToSlots_added : ∀ {newReqs : List NewRequest} {s s' : RunnerState}, (s.reqIdToIndex.map Prod.fst).Nodup →
    (s.reqIdToIndex.map Prod.snd).Nodup → newReqs.foldlM addToSlot s = some s' → Added s newReqs s'
  | [], s, s', hids, hslots, h => by
    cases h
    exact ⟨hids, hslots, by simp, rfl, rfl, rfl⟩
  | r :: newReqs, s, s', hids, hslots, h => by
    rw [List.foldlM_cons] at h
    obtain ⟨s₁, h₁, h⟩ := Option.bind_eq_some_iff.mp h
    have a := addToSlot_added hids hslots h₁
    have b := addToSlots_added a.ids a.slots h
    refine ⟨b.ids, b.slots, fun p => ?_, ?_, b.mirror.trans a.mirror, b.attached.trans a.attached⟩
    · rw [b.mem, a.mem]
      simp only [List.mem_cons, List.not_mem_nil, or_false, exists_eq_left]
      constructor
      · rintro ((hp | hp) | ⟨r', hr', hp⟩)
        · exact .inl hp
        · exact .inr ⟨r, .inl rfl, hp⟩
        · exact .inr ⟨r', .inr hr', hp⟩
      · rintro (hp | ⟨r', rfl | hr', hp⟩)
        · exact .inl (.inl hp)
        · exact .inl (.inr hp)
        · exact .inr ⟨r', hr', hp⟩
    · rw [b.numComputed, a.numComputed]
      rfl

theorem mirror_addRequests {l : List (Nat × Nat)} : ∀ {newReqs : List NewRequest} {m m' : HostMirror},
    (∀ r ∈ newReqs, l.lookup r.reqId = some r.reqIndex) →
    newReqs.foldlM (fun m r => do
      let reqIndex ← l.lookup r.reqId
      return m.addRequest reqIndex r.numComputedTokens) m = some m' →
    m'.exact = scatter m.exact (newCounts newReqs) ∧ m'.rejected = m.rejected ∧ m'.pending = m.pending ∧
      ∀ slot, m'.fresh slot = true ↔ m.fresh slot = true ∨ slot ∈ (newCounts newReqs).map Prod.fst
  | [], m, m', _, h => by
    cases h
    exact ⟨rfl, rfl, rfl, by simp [newCounts]⟩
  | r :: newReqs, m, m', hl, h => by
    rw [List.foldlM_cons, hl r (List.mem_cons_self ..)] at h
    obtain ⟨hexact, hrej, hpend, hfresh⟩ := mirror_addRequests
      (m := m.addRequest r.reqIndex r.numComputedTokens) (fun r' hr' => hl r' (List.mem_cons_of_mem _ hr')) h
    refine ⟨hexact, hrej, hpend, fun slot => ?_⟩
    rw [hfresh slot]
    by_cases hs : slot = r.reqIndex
    · simp [hs, addRequest, newCounts]
    · simp [hs, addRequest, newCounts]

theorem addRequests_synced {newReqs : List NewRequest} (hs : Synced s) (h : s.addRequests newReqs = some s') :
    Synced s' ∧ s'.attached = s.attached := by
  obtain ⟨s₁, h₁, h⟩ := Option.bind_eq_some_iff.mp h
  obtain ⟨m, hm, h⟩ := Option.bind_eq_some_iff.mp h
  cases h
  have a := addToSlots_added hs.ids hs.slots h₁
  have hlook : ∀ r ∈ newReqs, s₁.reqIdToIndex.lookup r.reqId = some r.reqIndex := by
    intro r hr
    rw [lookup_eq_some a.ids, a.mem]
    exact .inr ⟨r, hr, rfl⟩
  obtain ⟨hexact, hrej, hpend, hfresh⟩ := mirror_addRequests hlook hm
  rw [a.mirror] at hexact hrej hpend hfresh
  refine ⟨⟨a.ids, a.slots, fun slot hslot => ?_⟩, a.attached⟩
  simp only []
  rw [a.numComputed, hexact]
  by_cases hnew : slot ∈ (newCounts newReqs).map Prod.fst
  · have howed : m.owed slot = 0 := by
      unfold owed
      cases m.pending with
      | none => rfl
      | some p => simp [(hfresh slot).mpr (.inr hnew)]
    rw [howed, Int.add_zero]
    exact scatter_congr_of_mem _ _ hnew
  · have howed : m.owed slot = s.mirror.owed slot := by
      have hf : m.fresh slot = s.mirror.fresh slot := by
        rw [Bool.eq_iff_iff, hfresh slot]
        simp [hnew]
      unfold owed deltas
      rw [hpend, hf, hrej]
    rw [scatter_of_not_mem _ hnew, scatter_of_not_mem _ hnew, howed]
    refine hs.count slot ?_
    obtain ⟨p, hp, rfl⟩ := List.mem_map.mp hslot
    rcases (a.mem p).mp hp with hp | ⟨r, hr, rfl⟩
    · exact List.mem_map_of_mem hp
    · exact absurd (List.mem_map_of_mem (f := Prod.fst) (List.mem_map_of_mem (f := fun r : NewRequest =>
        (r.reqIndex, r.numComputedTokens)) hr)) hnew

/-! ## One execution -/

theorem npDiff_startLocs : ∀ (rows : List ScheduledRow) (acc : Int),
    npDiff (startLocs acc rows) = rows.map fun r => (r.queryLen : Int)
  | [], acc => rfl
  | [r], acc => by
    simp only [startLocs, npDiff, List.map_cons, List.map_nil, List.cons.injEq, and_true]
    omega
  | r :: r' :: rows, acc => by
    have ih := npDiff_startLocs (r' :: rows) (acc + r.queryLen)
    simp only [startLocs] at ih
    simp only [startLocs, npDiff, List.map_cons]
    rw [ih]
    simp only [List.map_cons, List.cons.injEq, and_true]
    omega

theorem startLocs_length : ∀ (rows : List ScheduledRow) (acc : Int), (startLocs acc rows).length = rows.length + 1
  | [], _ => rfl
  | r :: rows, acc => by simp [startLocs, startLocs_length rows]

/-- `b` is a batch for `rows` in state `s`: its slots are in use and its device lengths are current. -/
structure BatchOf (rows : List ScheduledRow) (s : RunnerState) (b : InputBatch) : Prop where
  current : s.mirror.batch = some b.object
  length : b.idxMapping.length = rows.length
  inUse : ∀ slot ∈ b.idxMapping, slot ∈ s.reqIdToIndex.map Prod.snd
  queryLens : b.queryLens = rows.map fun r => (r.queryLen : Int)
  drafts : b.numDraftTokens = (rows.map ScheduledRow.numDraftTokens).sum
  padded : rows.length ≤ b.numReqsAfterPadding
  seqLens : b.seqLens = List.zipWith (· + ·) (b.idxMapping.map s.numComputed) b.queryLens ++
    List.replicate (b.numReqsAfterPadding - b.idxMapping.length) 0

theorem prepareInputs_batch {e : Execution} {b : InputBatch} (hs : Synced s) (hpad : e.rows.length ≤ e.numReqsAfterPadding)
    (h : s.prepareInputs e = some (s', b)) :
    Synced s' ∧ BatchOf e.rows s' b ∧ b.seqLensCpu = none ∧ s'.attached = s.attached := by
  obtain ⟨idx, hidx, h⟩ := Option.bind_eq_some_iff.mp h
  cases h
  have hall := mapM_option hidx
  have hlen : idx.length = e.rows.length := hall.length_eq.symm
  have hq : npDiff ((startLocs 0 e.rows).take (idx.length + 1)) = e.rows.map fun r => (r.queryLen : Int) := by
    rw [List.take_of_length_le (by rw [startLocs_length, hlen]), npDiff_startLocs]
  refine ⟨⟨hs.ids, hs.slots, hs.count⟩, ⟨rfl, hlen, fun slot hslot => ?_, hq, rfl, hpad, ?_⟩, rfl, rfl⟩
  · obtain ⟨r, -, hl⟩ := forall₂_mem_right hall hslot
    exact List.mem_map_of_mem (f := Prod.snd) ((lookup_eq_some hs.ids).mp hl)
  · unfold InputBatch.queryLens InputBatch.numReqs
    simp only []
    rw [hq, List.zipWith_map]

theorem resolved_counts {rows : List ScheduledRow} {b : InputBatch} (hs : Synced s) (hb : BatchOf rows s b) :
    b.idxMapping.map s.mirror.resolve.exact = b.idxMapping.map s.numComputed := by
  refine List.map_congr_left fun slot hslot => ?_
  rw [resolve_exact, hs.count slot (hb.inUse slot hslot)]

theorem attach_consistent {rows : List ScheduledRow} {b : InputBatch} {check : Bool} (hs : Synced s)
    (hb : BatchOf rows s b) : s.mirror.resolve.attach check b =
      (s.mirror.resolve, ⟨b.idxMapping.map s.numComputed ++ List.replicate (b.numReqsAfterPadding - b.numReqs) 0,
        b.seqLens, []⟩) := by
  have hq : b.queryLens.length = b.idxMapping.length := by rw [hb.queryLens, List.length_map, hb.length]
  have hlen : b.seqLens.length ≤ b.numReqsAfterPadding := by
    have := hb.padded
    have := hb.length
    rw [hb.seqLens]
    simp only [List.length_append, List.length_zipWith, List.length_map, List.length_replicate]
    omega
  have hseq := hb.seqLens
  unfold attach
  simp only [resolved_counts hs hb, List.take_of_length_le hlen, InputBatch.numReqs, ← hseq, bne_self_eq_false,
    Bool.and_false, Bool.false_eq_true, if_false]

/-- A hook leaves the batch as it was but for the attachment, which is consistent. -/
theorem buildMetadata_synced {rows : List ScheduledRow} {b b' : InputBatch} {check : Bool} {hook : Hook}
    (hs : Synced s) (hb : BatchOf rows s b) (ha : ∀ a ∈ s.attached, a.Consistent)
    (h : s.buildMetadata check b hook = (s', b')) :
    Synced s' ∧ BatchOf rows s' b' ∧ ∀ a ∈ s'.attached, a.Consistent := by
  unfold buildMetadata at h
  split at h
  · rw [attach_consistent hs hb] at h
    cases h
    refine ⟨⟨hs.ids, hs.slots, fun slot hslot => ?_⟩, ⟨?_, hb.length, hb.inUse, hb.queryLens, hb.drafts, hb.padded,
      hb.seqLens⟩, fun a hmem => ?_⟩
    · rw [owed_of_pending_none (resolve_pending _), Int.add_zero, resolve_exact]
      exact hs.count slot hslot
    · simpa using hb.current
    · rcases List.mem_append.mp hmem with hmem | hmem
      · exact ha a hmem
      · rw [List.mem_singleton] at hmem
        subst hmem
        refine ⟨fun i slot hi => ?_, rfl, rfl⟩
        have hlt : i < b.idxMapping.length := (List.getElem?_eq_some_iff.mp hi).1
        rw [List.getElem?_append_left (by simpa using hlt), List.getElem?_map, hi]
        rfl
  · cases h
    exact ⟨hs, hb, ha⟩

theorem hooks_synced {rows : List ScheduledRow} {check : Bool} : ∀ {hooks : List Hook} {s s' : RunnerState}
    {b b' : InputBatch}, Synced s → BatchOf rows s b → (∀ a ∈ s.attached, a.Consistent) →
    hooks.foldl (fun p hook => p.1.buildMetadata check p.2 hook) (s, b) = (s', b') →
    Synced s' ∧ BatchOf rows s' b' ∧ ∀ a ∈ s'.attached, a.Consistent
  | [], s, s', b, b', hs, hb, ha, h => by
    cases h
    exact ⟨hs, hb, ha⟩
  | hook :: hooks, s, s', b, b', hs, hb, ha, h => by
    obtain ⟨s₁, b₁, h₁⟩ : ∃ s₁ b₁, s.buildMetadata check b hook = (s₁, b₁) := ⟨_, _, rfl⟩
    rw [List.foldl_cons, h₁] at h
    obtain ⟨hs₁, hb₁, ha₁⟩ := buildMetadata_synced hs hb ha h₁
    exact hooks_synced hs₁ hb₁ ha₁ h

/-! ## The sampled batch -/

theorem writeSlice_zero {α : Type} (f : Nat → α) (vals : List α) :
    (List.range vals.length).map (writeSlice f 0 vals) = vals := by
  have hkeys : (((List.range' 0 vals.length).zip vals).map Prod.fst) = List.range' 0 vals.length := by
    rw [List.map_fst_zip (by simp)]
  apply List.ext_getElem
  · simp
  · intro i _ hi
    rw [List.getElem_map, List.getElem_range]
    refine scatter_of_mem f ?_ ?_
    · rw [hkeys]
      exact List.nodup_range'
    · refine List.mem_iff_getElem.mpr ⟨i, by simpa using hi, ?_⟩
      simp

/-- The rejected counts fit the drafts of the rows. -/
def RejectedOf (rows : List ScheduledRow) (numRejected : Option (List Nat)) : Prop :=
  ∀ l, numRejected = some l → List.Forall₂ (fun k r => k ≤ ScheduledRow.numDraftTokens r) l rows

theorem rejected_zero {rows : List ScheduledRow} {l : List Nat}
    (h : List.Forall₂ (fun k r => k ≤ ScheduledRow.numDraftTokens r) l rows)
    (hsum : (rows.map ScheduledRow.numDraftTokens).sum = 0) : ∀ q : List Int, q.length = rows.length →
      List.zipWith (· - ·) q (l.map Int.ofNat) = q := by
  induction h with
  | nil =>
    intro q hq
    simp [List.eq_nil_of_length_eq_zero hq]
  | @cons k r l rows hk _ ih =>
    intro q hq
    rw [List.map_cons, List.sum_cons] at hsum
    obtain ⟨a, q, rfl⟩ := List.exists_cons_of_length_pos (l := q) (by simp [hq])
    have hk0 : k = 0 := by omega
    simp only [List.length_cons, Nat.add_right_cancel_iff] at hq
    rw [List.map_cons, List.zipWith_cons_cons, ih (by omega) q hq, hk0]
    simp

/-- The device's change of the counts of a batch. -/
def deviceDeltas (b : InputBatch) : Option (List Int) → List Int
  | none => b.queryLens
  | some rejected => List.zipWith (· - ·) b.queryLens rejected

theorem postUpdate_eq (numComputed : Nat → Int) (b : InputBatch) (numRejected : Option (List Int)) (slot : Nat) :
    postUpdate numComputed b numRejected slot =
      numComputed slot + added (b.idxMapping.zip (deviceDeltas b numRejected)) slot := by
  cases numRejected <;> exact addAt_eq _

theorem record_owed {rows : List ScheduledRow} {b : InputBatch} {numRejected : Option (List Nat)}
    (hb : BatchOf rows s b) (hrej : RejectedOf rows numRejected) (m : HostMirror) (slot : Nat) :
    (m.record b (numRejected.map fun l => l.map Int.ofNat)).owed slot =
      added (b.idxMapping.zip (deviceDeltas b (numRejected.map fun l => l.map Int.ofNat))) slot := by
  unfold owed record
  simp only [resolve_fresh, Bool.false_eq_true, if_false]
  congr 2
  cases numRejected with
  | none => simp [deltas, deviceDeltas]
  | some l =>
    have hl := hrej l rfl
    have hlen : l.length = b.idxMapping.length := hl.length_eq.trans hb.length.symm
    by_cases hd : b.numDraftTokens > 0
    · have htake : (l.map Int.ofNat).take b.numReqs = l.map Int.ofNat := by
        rw [List.take_of_length_le]
        simp [InputBatch.numReqs, hlen]
      have hrow : (List.range b.idxMapping.length).map (writeSlice m.resolve.rejected 0 (l.map Int.ofNat)) =
          l.map Int.ofNat := by
        have := writeSlice_zero m.resolve.rejected (l.map Int.ofNat)
        rwa [List.length_map, hlen] at this
      simp only [deltas, hd, decide_true, Option.map_some, Option.isSome_some, Bool.and_true, if_true, Option.getD_some,
        htake, hrow, deviceDeltas]
    · have hzero : (rows.map ScheduledRow.numDraftTokens).sum = 0 := by
        have := hb.drafts
        omega
      have hq : b.queryLens.length = rows.length := by rw [hb.queryLens, List.length_map]
      simp only [deltas, hd, decide_false, Bool.false_and, Bool.false_eq_true, if_false, Option.map_some, deviceDeltas]
      exact (rejected_zero hl hzero _ hq).symm

theorem sample_synced {rows : List ScheduledRow} {b : InputBatch} {numRejected : Option (List Nat)}
    (hs : Synced s) (hb : BatchOf rows s b) (hrej : RejectedOf rows numRejected) :
    Synced (s.sample b (numRejected.map fun l => l.map Int.ofNat)) := by
  refine ⟨hs.ids, hs.slots, fun slot hslot => ?_⟩
  have hexact : (({ s.mirror with batch := none } : HostMirror).record b
      (numRejected.map fun l => l.map Int.ofNat)).exact slot = s.mirror.exact slot + s.mirror.owed slot :=
    resolve_exact _ slot
  simp only [sample, if_pos hb.current]
  rw [postUpdate_eq, hexact, record_owed hb hrej, hs.count slot hslot]

/-! ## Runs -/

theorem wellFormed_spec {e : Execution} (h : Execution.wellFormed e = true) :
    e.rows.length ≤ e.numReqsAfterPadding ∧ RejectedOf e.rows e.numRejected := by
  unfold Execution.wellFormed at h
  simp only [Bool.and_eq_true, decide_eq_true_eq] at h
  refine ⟨h.1.2, fun l hl => ?_⟩
  have h' := h.2
  rw [hl] at h'
  simp only [Bool.and_eq_true, beq_iff_eq] at h'
  obtain ⟨hlen, hall⟩ := h'
  clear h hl
  generalize e.rows = rows at hlen hall
  induction l generalizing rows with
  | nil =>
    rw [List.eq_nil_of_length_eq_zero hlen.symm]
    exact .nil
  | cons k l ih =>
    obtain ⟨r, rows, rfl⟩ := List.exists_cons_of_length_pos (l := rows) (by simp [← hlen])
    simp only [List.zipWith_cons_cons, List.all_cons, id, Bool.and_eq_true, decide_eq_true_eq] at hall
    exact .cons hall.1 (ih rows (by simpa using hlen) hall.2)

def Faithful (s : RunnerState) : Prop := Synced s ∧ ∀ a ∈ s.attached, a.Consistent

theorem execute_faithful {check : Bool} {e : Execution} (hs : Faithful s) (h : s.execute check e = some s') :
    Faithful s' := by
  unfold execute at h
  obtain ⟨_, hguard, h⟩ := Option.bind_eq_some_iff.mp h
  obtain ⟨⟨s₁, b₁⟩, hprep, h⟩ := Option.bind_eq_some_iff.mp h
  have hwf : Execution.wellFormed e = true := by
    by_contra hne
    simp [guard, hne] at hguard
  obtain ⟨hpad, hrej⟩ := wellFormed_spec hwf
  obtain ⟨hs₁, hb₁, -, ha₁⟩ := prepareInputs_batch hs.1 hpad hprep
  obtain ⟨s₂, b₂, h₂⟩ : ∃ s₂ b₂, e.hooks.foldl (fun p hook => p.1.buildMetadata check p.2 hook) (s₁, b₁) = (s₂, b₂) :=
    ⟨_, _, rfl⟩
  obtain ⟨hs₂, hb₂, ha₂⟩ := hooks_synced hs₁ hb₁ (by rw [ha₁]; exact hs.2) h₂
  simp only [h₂] at h
  cases h
  exact ⟨sample_synced hs₂ hb₂ hrej, ha₂⟩

theorem step_faithful {check : Bool} {st : Step} (hs : Faithful s) (h : s.step check st = some s') : Faithful s' := by
  obtain ⟨s₁, h₁, h⟩ := Option.bind_eq_some_iff.mp h
  obtain ⟨hs₁, ha₁⟩ := addRequests_synced (finishRequests_synced hs.1 st.finished) h₁
  have hf : Faithful s₁ := ⟨hs₁, by rw [ha₁]; exact hs.2⟩
  cases he : st.execution with
  | none =>
    rw [he] at h
    cases h
    exact hf
  | some e =>
    rw [he] at h
    exact execute_faithful hf h

/-- Every attachment of every run agrees with the device, whatever the device held before the first request. -/
theorem attached_consistent {check : Bool} {numComputed : Nat → Int} {steps : List Step}
    (h : runFrom (fun s st => RunnerState.step check s st) (RunnerState.init numComputed) steps = some s') :
    ∀ a ∈ s'.attached, a.Consistent := by
  have hinit : Faithful (RunnerState.init numComputed) :=
    ⟨⟨List.nodup_nil, List.nodup_nil, by simp [RunnerState.init]⟩, by simp [RunnerState.init]⟩
  exact (run_kept (fun s st s' hs hst => step_faithful hs hst) hinit h).2

/-- A rejected draft, then the slot given to another request, then a batch without drafts. -/
def reusedSlot : List Step := [
  ⟨[], [⟨1, 0, 5⟩], some ⟨[⟨1, 3, 2⟩], 1, [.prepareAttn], some [1]⟩⟩,
  ⟨[1], [⟨2, 0, 4⟩, ⟨3, 1, 0⟩], some ⟨[⟨2, 2, 1⟩, ⟨3, 5, 0⟩], 4, [.ubatchPrepare, .prepareAttn], some [1, 0]⟩⟩,
  ⟨[], [], none⟩,
  ⟨[], [], some ⟨[⟨3, 1, 0⟩, ⟨2, 1, 0⟩], 2, [.prepareAttn], none⟩⟩]

theorem attached_consistent_reusedSlot :
    ∃ s', runFrom (fun s st => RunnerState.step true s st) (RunnerState.init fun _ => 7) reusedSlot = some s' ∧
      s'.attached.map (fun a => a.host.seqLensCpu) = [[8], [6, 5, 0, 0], [6, 6]] ∧
      ∀ a ∈ s'.attached, a.Consistent := by
  obtain ⟨s', hs', hval⟩ := Option.map_eq_some_iff.mp (show
    (runFrom (fun s st => RunnerState.step true s st) (RunnerState.init fun _ => 7) reusedSlot).map
      (fun s => s.attached.map fun a => a.host.seqLensCpu) = some [[8], [6, 5, 0, 0], [6, 6]] from by decide +kernel)
  exact ⟨s', hs', hval, attached_consistent hs'⟩

end

end VllmHcu.Runner
