import Mathlib.Algebra.Order.BigOperators.Group.List
import Mathlib.Algebra.Order.Ring.Nat
import VllmHcu.Lib.Assoc
import VllmHcu.Mooncake.PullSound

/-!
# Release of producer requests

A request is released when it enters `finished_sending_reqs` or expires. An entry
that carries a released request is no longer stored, and no batch in flight has
one, as long as a pull collects an entry only while it is the stored one of its
transfer and a batch that completes an entry is the only one sending it.
-/

namespace VllmHcu.Mooncake

section
variable {ReqId TransferId : Type}

/-! ## The entries -/

/-- Entry `i` offers the blocks of request `p`. -/
def Owner (s : Sender ReqId TransferId) (i : Nat) (p : ReqId) : Prop :=
  i < s.next ∧ (s.heap i).ready = true ∧ (s.heap i).pReqId = some p

def released (s : Sender ReqId TransferId) : List ReqId := s.reported ++ s.finishedSendingReqs

/-- Entry `i` is an object of `reqs_need_send`. -/
def IsStored (s : Sender ReqId TransferId) (i : Nat) : Prop := ∃ e ∈ s.reqsNeedSend, e.2 = i

/-- What holds of the entries, whatever the pulls do. -/
structure EntryInv (s : Sender ReqId TransferId) : Prop where
  keys : (s.reqsNeedSend.map (·.1)).Nodup
  entries : ∀ e ∈ s.reqsNeedSend, e.2 < s.next ∧ (s.heap e.2).transferId = e.1
  ready : ∀ i < s.next, (s.heap i).ready = true → ∃ p ∈ s.recorded, (s.heap i).pReqId = some p
  expire : ∀ i < s.next, (s.heap i).expireTime ≠ none → (s.heap i).ready = true
  owner_inj : ∀ i j p, Owner s i p → Owner s j p → i = j
  released_recorded : ∀ p ∈ released s, p ∈ s.recorded
  released_nodup : (released s).Nodup
  released_gone : ∀ i p, Owner s i p → p ∈ released s → ¬ IsStored s i

theorem Owner.recorded {s : Sender ReqId TransferId} (hI : EntryInv s) {i : Nat} {p : ReqId} (h : Owner s i p) :
    p ∈ s.recorded := by
  obtain ⟨q, hq, he⟩ := hI.ready i h.1 h.2.1
  cases h.2.2.symm.trans he
  exact hq

section
variable [DecidableEq TransferId]

theorem EntryInv.stored_iff {s : Sender ReqId TransferId} (hI : EntryInv s) {t : TransferId} {i : Nat} :
    s.stored t = some i ↔ (t, i) ∈ s.reqsNeedSend :=
  lookup_eq_some hI.keys

theorem EntryInv.isStored_of {s : Sender ReqId TransferId} (hI : EntryInv s) {t : TransferId} {i : Nat}
    (h : s.stored t = some i) : IsStored s i :=
  ⟨_, hI.stored_iff.mp h, rfl⟩

/-- Two states with the same entries up to their counters, the same transfers stored or fewer, and the
same history. -/
structure SameEntries (s s' : Sender ReqId TransferId) : Prop where
  next : s'.next = s.next
  ready : ∀ i, (s'.heap i).ready = (s.heap i).ready
  pReqId : ∀ i, (s'.heap i).pReqId = (s.heap i).pReqId
  transferId : ∀ i, (s'.heap i).transferId = (s.heap i).transferId
  expireTime : ∀ i, (s'.heap i).expireTime = (s.heap i).expireTime
  recorded : s'.recorded = s.recorded
  stored : s'.reqsNeedSend.Sublist s.reqsNeedSend

omit [DecidableEq TransferId] in
theorem SameEntries.owner {s s' : Sender ReqId TransferId} (h : SameEntries s s') {i : Nat} {p : ReqId} :
    Owner s' i p ↔ Owner s i p := by
  rw [Owner, Owner, h.next, h.ready, h.pReqId]

omit [DecidableEq TransferId] in
theorem SameEntries.isStored {s s' : Sender ReqId TransferId} (h : SameEntries s s') {i : Nat} (hi : IsStored s' i) :
    IsStored s i := by
  obtain ⟨e, he, hei⟩ := hi
  exact ⟨e, h.stored.subset he, hei⟩

omit [DecidableEq TransferId] in
theorem SameEntries.trans {s s₁ s₂ : Sender ReqId TransferId} (h : SameEntries s s₁) (h' : SameEntries s₁ s₂) :
    SameEntries s s₂ :=
  ⟨h'.next.trans h.next, fun i => (h'.ready i).trans (h.ready i), fun i => (h'.pReqId i).trans (h.pReqId i),
    fun i => (h'.transferId i).trans (h.transferId i), fun i => (h'.expireTime i).trans (h.expireTime i),
    h'.recorded.trans h.recorded, h'.stored.trans h.stored⟩

omit [DecidableEq TransferId] in
theorem EntryInv.of_same {s s' : Sender ReqId TransferId} (hI : EntryInv s) (h : SameEntries s s')
    (hrec : ∀ p ∈ released s', p ∈ s.recorded) (hnd : (released s').Nodup)
    (hgone : ∀ i p, Owner s i p → p ∈ released s' → ¬ IsStored s' i) : EntryInv s' where
  keys := hI.keys.sublist (h.stored.map _)
  entries e he := by
    rw [h.next, h.transferId]
    exact hI.entries e (h.stored.subset he)
  ready i hi hr := by
    rw [h.next] at hi
    rw [h.ready] at hr
    rw [h.recorded, h.pReqId]
    exact hI.ready i hi hr
  expire i hi he := by
    rw [h.next] at hi
    rw [h.expireTime] at he
    rw [h.ready]
    exact hI.expire i hi he
  owner_inj i j p hi hj := hI.owner_inj i j p (h.owner.mp hi) (h.owner.mp hj)
  released_recorded := by
    rw [h.recorded]
    exact hrec
  released_nodup := hnd
  released_gone i p hi hp := hgone i p (h.owner.mp hi) hp

omit [DecidableEq TransferId] in
theorem EntryInv.of_same_released {s s' : Sender ReqId TransferId} (hI : EntryInv s) (h : SameEntries s s')
    (hr : released s' = released s) : EntryInv s' := by
  refine hI.of_same h ?_ ?_ ?_
  · rw [hr]
    exact hI.released_recorded
  · rw [hr]
    exact hI.released_nodup
  · intro i p hi hp hs
    rw [hr] at hp
    exact hI.released_gone i p hi hp (h.isStored hs)

end

/-! ## Batches in flight -/

/-- The requests that a pull is sending, with their entries. -/
def Pull.batch (p : Pull ReqId TransferId) : List (ReqId × Nat) :=
  match p.phase with
  | .sending b => b.readyReqs
  | _ => []

/-- The blocks that the transfer of a pull is reading. -/
def Pull.reads (p : Pull ReqId TransferId) : List (Option ReqId × List (List Int)) :=
  match p.phase with
  | .sending b => b.reads
  | _ => []

/-- A pull without a batch in flight. -/
def Pull.Idle (p : Pull ReqId TransferId) : Prop := ∀ b, p.phase ≠ .sending b

theorem Pull.Idle.batch_eq {p : Pull ReqId TransferId} (h : p.Idle) : p.batch = [] := by
  unfold Pull.batch
  split
  · rename_i b hb
    exact absurd hb (h b)
  · rfl

theorem Pull.Idle.reads_eq {p : Pull ReqId TransferId} (h : p.Idle) : p.reads = [] := by
  unfold Pull.reads
  split
  · rename_i b hb
    exact absurd hb (h b)
  · rfl

theorem Pull.idle_fail (p : Pull ReqId TransferId) (msg : String) : (p.fail msg).Idle := nofun

theorem Pull.idle_respond (p : Pull ReqId TransferId) (r : XferResponse ReqId) (sendError : Option String) :
    (p.respond r sendError).Idle := by
  intro b
  cases sendError with
  | some msg => exact p.idle_fail msg b
  | none =>
    rw [Pull.respond]
    dsimp only
    split <;> exact (by rintro ⟨⟩)

/-- How many requests in flight use entry `i`. -/
def flightCount (pulls : List (Pull ReqId TransferId)) (i : Nat) : Nat :=
  (pulls.map fun p => (p.batch.map (·.2)).count i).sum

theorem flightCount_pos {pulls : List (Pull ReqId TransferId)} {p : Pull ReqId TransferId} {task : ReqId × Nat}
    (hp : p ∈ pulls) (ht : task ∈ p.batch) : 0 < flightCount pulls task.2 := by
  have h₁ : 0 < (p.batch.map (·.2)).count task.2 := List.count_pos_iff.mpr (List.mem_map.mpr ⟨task, ht, rfl⟩)
  have h₂ : (p.batch.map (·.2)).count task.2 ∈ pulls.map fun p => (p.batch.map (·.2)).count task.2 :=
    List.mem_map.mpr ⟨p, hp, rfl⟩
  exact lt_of_lt_of_le h₁ (List.single_le_sum (fun _ _ => Nat.zero_le _) _ h₂)

theorem flightCount_eq_zero {pulls : List (Pull ReqId TransferId)} {i : Nat}
    (h : ∀ p ∈ pulls, ∀ task ∈ p.batch, task.2 ≠ i) : flightCount pulls i = 0 := by
  rw [flightCount, List.sum_eq_zero_iff_forall_eq_nat]
  intro x hx
  obtain ⟨p, hp, rfl⟩ := List.mem_map.mp hx
  rw [List.count_eq_zero]
  intro hi
  obtain ⟨task, ht, he⟩ := List.mem_map.mp hi
  exact h p hp task ht he

theorem flightCount_set {p : Pull ReqId TransferId} (p' : Pull ReqId TransferId) (i : Nat) :
    ∀ {pulls : List (Pull ReqId TransferId)} {c : Nat}, pulls[c]? = some p →
    flightCount (pulls.set c p') i + (p.batch.map (·.2)).count i = flightCount pulls i + (p'.batch.map (·.2)).count i
  | q :: pulls, 0, h => by
    cases h
    simp only [flightCount, List.set_cons_zero, List.map_cons, List.sum_cons]
    omega
  | q :: pulls, c + 1, h => by
    have ih := flightCount_set p' i (show pulls[c]? = some p from h)
    simp only [flightCount, List.set_cons_succ, List.map_cons, List.sum_cons] at ih ⊢
    omega

/-- What holds of the pulls: a request in flight is not released, nor is one whose blocks are read. -/
structure FlightInv (s : Sender ReqId TransferId) : Prop where
  pending : ∀ p ∈ s.pulls, ∀ task ∈ p.pendingReqs, task.2 < s.next
  batch : ∀ p ∈ s.pulls, ∀ task ∈ p.batch, task.2 < s.next ∧ (s.heap task.2).ready = true ∧
    ∀ q, Owner s task.2 q → q ∉ released s
  reads : ∀ p ∈ s.pulls, ∀ r ∈ p.reads, ∃ q, r.1 = some q ∧ q ∈ s.recorded ∧ q ∉ released s ∧
    ∃ task ∈ p.batch, ∀ j, Owner s j q → j = task.2
  counts : ∀ i < s.next, (flightCount s.pulls i : Int) ≤ (s.heap i).sending

theorem FlightInv.of_same {s s' : Sender ReqId TransferId} (hI : EntryInv s) (hF : FlightInv s)
    (h : SameEntries s s') (hpulls : s'.pulls = s.pulls)
    (hrel : ∀ q ∈ released s', q ∈ released s ∨ ∃ i, Owner s i q ∧ flightCount s.pulls i = 0)
    (hcounts : ∀ i < s.next, (flightCount s.pulls i : Int) ≤ (s'.heap i).sending) : FlightInv s' where
  pending := by
    rw [hpulls, h.next]
    exact hF.pending
  batch := by
    rw [hpulls]
    intro p hp task ht
    obtain ⟨hlt, hr, hq⟩ := hF.batch p hp task ht
    rw [h.next, h.ready]
    refine ⟨hlt, hr, fun q ho hrel' => ?_⟩
    rw [h.owner] at ho
    rcases hrel q hrel' with h' | ⟨i, hi, h0⟩
    · exact hq q ho h'
    · have := flightCount_pos hp ht
      rw [hI.owner_inj _ _ _ ho hi] at this
      omega
  reads := by
    rw [hpulls, h.recorded]
    intro p hp r hr
    obtain ⟨q, he, hrec, hnot, task, ht, hown⟩ := hF.reads p hp r hr
    refine ⟨q, he, hrec, fun hrel' => ?_, task, ht, fun j hj => hown j (h.owner.mp hj)⟩
    rcases hrel q hrel' with h' | ⟨i, hi, h0⟩
    · exact hnot h'
    · have := flightCount_pos hp ht
      rw [← hown i hi] at this
      omega
  counts := by
    rw [hpulls, h.next]
    exact hcounts

theorem FlightInv.settle {s : Sender ReqId TransferId} (hF : FlightInv s) {c : Nat} {p p' : Pull ReqId TransferId}
    (hp : s.pulls[c]? = some p) (hidle : p'.Idle) (hpend : ∀ task ∈ p'.pendingReqs, task ∈ p.pendingReqs) :
    FlightInv (s.setPull c p') where
  pending q hq task ht := by
    rcases List.mem_or_eq_of_mem_set hq with hq | rfl
    · exact hF.pending q hq task ht
    · exact hF.pending p (List.mem_of_getElem? hp) task (hpend task ht)
  batch q hq task ht := by
    rcases List.mem_or_eq_of_mem_set hq with hq | rfl
    · exact hF.batch q hq task ht
    · rw [hidle.batch_eq] at ht
      cases ht
  reads q hq r hr' := by
    rcases List.mem_or_eq_of_mem_set hq with hq | rfl
    · exact hF.reads q hq r hr'
    · rw [hidle.reads_eq] at hr'
      cases hr'
  counts i hi := by
    have h₁ := flightCount_set p' i hp
    have h₂ : (flightCount s.pulls i : Int) ≤ (s.heap i).sending := hF.counts i hi
    rw [hidle.batch_eq, List.map_nil, List.count_nil] at h₁
    show (flightCount (s.pulls.set c p') i : Int) ≤ (s.heap i).sending
    omega

/-! ## Counters -/

section
variable [DecidableEq TransferId]

omit [DecidableEq TransferId] in
theorem sameEntries_counters (s : Sender ReqId TransferId) (i : Nat) (needSend sent : Nat) (sending : Int) :
    SameEntries s (s.setEntry i { s.heap i with needSend := needSend, sent := sent, sending := sending }) := by
  refine ⟨rfl, ?_, ?_, ?_, ?_, rfl, List.Sublist.refl _⟩
  all_goals
    intro j
    by_cases h : j = i
    · subst h
      rw [Sender.setEntry_heap_self]
    · rw [Sender.setEntry_heap_of_ne _ _ h]

theorem sameEntries_pop (s : Sender ReqId TransferId) (t : TransferId) : SameEntries s (s.pop t) :=
  ⟨rfl, fun _ => rfl, fun _ => rfl, fun _ => rfl, fun _ => rfl, rfl, List.filter_sublist⟩

/-- What marking the completed tasks does. -/
structure Marked (s : Sender ReqId TransferId) (done : List (ReqId × Nat)) (s' : Sender ReqId TransferId)
    (ready : List (ReqId × Nat)) : Prop where
  same : SameEntries s s'
  dict : s'.reqsNeedSend = s.reqsNeedSend
  pulls : s'.pulls = s.pulls
  released : released s' = released s
  blocks : ∀ i, (s'.heap i).localBlockIds = (s.heap i).localBlockIds
  mem : ∀ task ∈ ready, task ∈ done ∧ (s.stored (s.heap task.2).transferId).isSome = true
  sending : ∀ i, (s'.heap i).sending = (s.heap i).sending + ((ready.map (·.2)).count i : Int)

theorem markReady_marked (n : Nat) : ∀ (done : List (ReqId × Nat)) (s : Sender ReqId TransferId),
    Marked s done (s.markReady n done).1 (s.markReady n done).2.1
  | [], s =>
    ⟨⟨rfl, fun _ => rfl, fun _ => rfl, fun _ => rfl, fun _ => rfl, rfl, List.Sublist.refl _⟩, rfl, rfl, rfl,
      fun _ => rfl, nofun, fun i => (Int.add_zero _).symm⟩
  | (d, i) :: rest, s => by
    unfold Sender.markReady
    split
    · rename_i hst
      dsimp only
      generalize hm : (if (s.heap i).needSend = 0 then
        { s.heap i with sending := (s.heap i).sending + 1, needSend := n }
        else { s.heap i with sending := (s.heap i).sending + 1 }) = m
      have hcounters : m = { s.heap i with
          needSend := m.needSend, sent := (s.heap i).sent, sending := (s.heap i).sending + 1 } := by
        rw [← hm]
        split <;> rfl
      have hsame : SameEntries s (s.setEntry i m) := by
        rw [hcounters]
        exact sameEntries_counters s i _ _ _
      have ih := markReady_marked n rest (s.setEntry i m)
      refine ⟨hsame.trans ih.same, ih.dict, ih.pulls, ih.released, fun j => ?_, fun task ht => ?_, fun j => ?_⟩
      · rw [ih.blocks]
        by_cases hj : j = i
        · subst hj
          rw [Sender.setEntry_heap_self, hcounters]
        · rw [Sender.setEntry_heap_of_ne _ _ hj]
      · rcases List.mem_cons.mp ht with rfl | ht
        · exact ⟨List.mem_cons_self .., hst⟩
        · obtain ⟨h₁, h₂⟩ := ih.mem task ht
          rw [hsame.transferId] at h₂
          exact ⟨List.mem_cons_of_mem _ h₁, h₂⟩
      · rw [ih.sending, List.map_cons, List.count_cons]
        by_cases hj : j = i
        · subst hj
          rw [Sender.setEntry_heap_self, hcounters]
          simp
          omega
        · rw [Sender.setEntry_heap_of_ne _ _ hj]
          simp [Ne.symm hj]
    · have ih := markReady_marked n rest s
      exact ⟨ih.same, ih.dict, ih.pulls, ih.released, ih.blocks,
        fun task ht => ⟨List.mem_cons_of_mem _ (ih.mem task ht).1, (ih.mem task ht).2⟩, ih.sending⟩

/-! ## Completion of a batch -/

variable [DecidableEq ReqId]

/-- How many requests of a batch complete entry `i`. -/
def okCount (errReqs : List ReqId) (ready : List (ReqId × Nat)) (i : Nat) : Nat :=
  ((ready.filter fun task => task.1 ∉ errReqs).map (·.2)).count i

/-- The last transfers that entry `i` needs are in the batch, and its transfer is still stored. -/
def LastOf (s : Sender ReqId TransferId) (errReqs : List ReqId) (ready : List (ReqId × Nat)) (i : Nat) : Prop :=
  (s.heap i).sent < (s.heap i).needSend ∧ (s.heap i).needSend ≤ (s.heap i).sent + okCount errReqs ready i ∧
    (s.stored (s.heap i).transferId).isSome = true

instance (s : Sender ReqId TransferId) (errReqs : List ReqId) (ready : List (ReqId × Nat)) (i : Nat) :
    Decidable (LastOf s errReqs ready i) :=
  inferInstanceAs (Decidable (_ ∧ _ ∧ _))

/-- No batch of `pulls` has an entry whose last transfers are in this batch. -/
def CompletesAlone (s : Sender ReqId TransferId) (pulls : List (Pull ReqId TransferId)) (errReqs : List ReqId)
    (ready : List (ReqId × Nat)) : Prop :=
  ∀ task ∈ ready, LastOf s errReqs ready task.2 → flightCount pulls task.2 = 0

theorem CompletesAlone.entry {s : Sender ReqId TransferId} {pulls : List (Pull ReqId TransferId)}
    {errReqs : List ReqId} {ready : List (ReqId × Nat)} (h : CompletesAlone s pulls errReqs ready) {i : Nat}
    (hl : LastOf s errReqs ready i) : flightCount pulls i = 0 := by
  have hpos : 0 < okCount errReqs ready i := by
    have h₁ := hl.1
    have h₂ := hl.2.1
    omega
  obtain ⟨task, ht, rfl⟩ := List.mem_map.mp (List.count_pos_iff.mp hpos)
  exact h task (List.mem_filter.mp ht).1 hl

/-- The state between two requests of a batch that completes, with the requests left. -/
structure Completing (s : Sender ReqId TransferId) (errReqs : List ReqId) (ready : List (ReqId × Nat)) : Prop where
  entries : EntryInv s
  flights : FlightInv s
  valid : ∀ task ∈ ready, task.2 < s.next ∧ (s.heap task.2).ready = true ∧
    ∀ q, Owner s task.2 q → q ∈ released s → (s.heap task.2).needSend ≤ (s.heap task.2).sent
  counts : ∀ i < s.next, (flightCount s.pulls i : Int) + ((ready.map (·.2)).count i : Int) ≤ (s.heap i).sending
  alone : ∀ i, LastOf s errReqs ready i → flightCount s.pulls i = 0

omit [DecidableEq TransferId] in
theorem okCount_cons {errReqs : List ReqId} {d : ReqId} {i j : Nat} {rest : List (ReqId × Nat)} (h : d ∉ errReqs) :
    okCount errReqs ((d, i) :: rest) j = okCount errReqs rest j + if i = j then 1 else 0 := by
  rw [okCount, List.filter_cons_of_pos (by simpa using h), List.map_cons, List.count_cons, okCount]
  simp

omit [DecidableEq TransferId] in
theorem okCount_cons_err {errReqs : List ReqId} {d : ReqId} {i j : Nat} {rest : List (ReqId × Nat)}
    (h : d ∈ errReqs) : okCount errReqs ((d, i) :: rest) j = okCount errReqs rest j := by
  rw [okCount, List.filter_cons_of_neg (by simpa using h), okCount]

/-- One request of the batch, its counters written back: `sent` grows unless it failed. -/
theorem Completing.counted {s : Sender ReqId TransferId} {errReqs : List ReqId} {d : ReqId} {i sent : Nat}
    {rest : List (ReqId × Nat)} (h : Completing s errReqs ((d, i) :: rest)) (hle : (s.heap i).sent ≤ sent)
    (hok : ∀ j, okCount errReqs ((d, i) :: rest) j + (s.heap i).sent =
      okCount errReqs rest j + if i = j then sent else (s.heap i).sent) :
    Completing (s.setEntry i { s.heap i with sending := (s.heap i).sending - 1, sent := sent }) errReqs rest := by
  have hsame : SameEntries s (s.setEntry i { s.heap i with sending := (s.heap i).sending - 1, sent := sent }) :=
    sameEntries_counters s i _ _ _
  have hcounts : ∀ j < s.next, (flightCount s.pulls j : Int) + ((rest.map (·.2)).count j : Int) ≤
      ((s.setEntry i { s.heap i with sending := (s.heap i).sending - 1, sent := sent }).heap j).sending := by
    intro j hj
    have h₁ := h.counts j hj
    rw [List.map_cons, List.count_cons] at h₁
    by_cases he : j = i
    · subst he
      rw [Sender.setEntry_heap_self]
      simp at h₁ ⊢
      omega
    · rw [Sender.setEntry_heap_of_ne _ _ he]
      simp [Ne.symm he] at h₁
      exact h₁
  refine ⟨h.entries.of_same_released hsame rfl, ?_, ?_, hcounts, ?_⟩
  · refine h.flights.of_same h.entries hsame rfl (fun q hq => .inl hq) fun j hj => ?_
    have := hcounts j hj
    omega
  · intro task ht
    obtain ⟨hlt, hr, hq⟩ := h.valid task (List.mem_cons_of_mem _ ht)
    refine ⟨hlt, by rw [hsame.ready]; exact hr, fun q ho hrel => ?_⟩
    have hle' := hq q (hsame.owner.mp ho) hrel
    by_cases he : task.2 = i
    · rw [he] at hle' ⊢
      rw [Sender.setEntry_heap_self]
      exact le_trans hle' hle
    · rw [Sender.setEntry_heap_of_ne _ _ he]
      exact hle'
  · rintro j ⟨h₁, h₂, hst⟩
    rw [hsame.transferId] at hst
    have hj := hok j
    by_cases he : j = i
    · subst he
      rw [Sender.setEntry_heap_self] at h₁ h₂
      dsimp only at h₁ h₂
      rw [if_pos rfl] at hj
      exact h.alone j ⟨by omega, by omega, hst⟩
    · rw [Sender.setEntry_heap_of_ne _ _ he] at h₁ h₂
      rw [if_neg (Ne.symm he)] at hj
      exact h.alone j ⟨h₁, by omega, hst⟩

omit [DecidableEq TransferId] in
theorem released_finish {s : Sender ReqId TransferId} {p q : ReqId} :
    q ∈ released (s.finish p) ↔ q ∈ released s ∨ q = p := by
  rw [released, Sender.finish, List.mem_append, List.mem_insert_iff, released, List.mem_append]
  tauto

omit [DecidableEq TransferId] in
theorem nodup_released_finish {s : Sender ReqId TransferId} {p : ReqId} (h : (released s).Nodup)
    (hp : p ∉ released s) : (released (s.finish p)).Nodup := by
  have hf : p ∉ s.finishedSendingReqs := fun hm => hp (List.mem_append_right _ hm)
  rw [released, Sender.finish, List.insert_of_not_mem hf]
  exact List.nodup_middle.mpr (List.nodup_cons.mpr ⟨hp, h⟩)

omit [DecidableEq ReqId] in
theorem EntryInv.not_stored_pop {s : Sender ReqId TransferId} (hI : EntryInv s) (i : Nat) :
    ¬ IsStored (s.pop (s.heap i).transferId) i := by
  rintro ⟨e, he, rfl⟩
  obtain ⟨hm, hne⟩ := List.mem_filter.mp he
  rw [(hI.entries e hm).2] at hne
  simp at hne

theorem Completing.release {s : Sender ReqId TransferId} {errReqs : List ReqId} {rest : List (ReqId × Nat)} {i : Nat}
    {p : ReqId} (h : Completing s errReqs rest) (ho : Owner s i p) (hp : p ∉ released s)
    (hsent : (s.heap i).needSend ≤ (s.heap i).sent) (hzero : flightCount s.pulls i = 0) :
    Completing ((s.pop (s.heap i).transferId).finish p) errReqs rest := by
  have hpop := sameEntries_pop s (s.heap i).transferId
  have hsame : SameEntries s ((s.pop (s.heap i).transferId).finish p) :=
    ⟨rfl, fun _ => rfl, fun _ => rfl, fun _ => rfl, fun _ => rfl, rfl, hpop.stored⟩
  have hrel : ∀ q, q ∈ released ((s.pop (s.heap i).transferId).finish p) ↔ q ∈ released s ∨ q = p := fun q =>
    released_finish
  refine ⟨h.entries.of_same hsame ?_ ?_ ?_, ?_, ?_, h.counts, ?_⟩
  · intro q hq
    rcases (hrel q).mp hq with hq | rfl
    · exact h.entries.released_recorded q hq
    · exact ho.recorded h.entries
  · exact nodup_released_finish h.entries.released_nodup hp
  · intro j q hj hq hst
    rcases (hrel q).mp hq with hq | rfl
    · exact h.entries.released_gone j q hj hq (hpop.isStored hst)
    · rw [h.entries.owner_inj j i q hj ho] at hst
      exact h.entries.not_stored_pop i hst
  · refine h.flights.of_same h.entries hsame rfl (fun q hq => ?_) h.flights.counts
    rcases (hrel q).mp hq with hq | rfl
    · exact .inl hq
    · exact .inr ⟨i, ho, hzero⟩
  · intro task ht
    obtain ⟨hlt, hr, hq⟩ := h.valid task ht
    refine ⟨hlt, hr, fun q hown hm => ?_⟩
    rcases (hrel q).mp hm with hm | rfl
    · exact hq q hown hm
    · have he := h.entries.owner_inj task.2 i q hown ho
      show (s.heap task.2).needSend ≤ (s.heap task.2).sent
      rw [he]
      exact hsent
  · rintro j ⟨h₁, h₂, hst⟩
    refine h.alone j ⟨h₁, h₂, ?_⟩
    obtain ⟨k, hk⟩ := Option.isSome_iff_exists.mp hst
    have hmem : ((s.heap j).transferId, k) ∈ (s.pop (s.heap i).transferId).reqsNeedSend :=
      (lookup_eq_some (h.entries.keys.sublist (hpop.stored.map _))).mp hk
    rw [h.entries.stored_iff.mpr (hpop.stored.subset hmem)]
    rfl

theorem completeReq_inv {errReqs : List ReqId} {s : Sender ReqId TransferId} {task : ReqId × Nat}
    {rest : List (ReqId × Nat)} (h : Completing s errReqs (task :: rest)) :
    Completing (s.completeReq errReqs task) errReqs rest := by
  obtain ⟨d, i⟩ := task
  unfold Sender.completeReq
  dsimp only
  by_cases herr : d ∈ errReqs
  · rw [if_pos herr]
    refine h.counted (le_refl _) fun j => ?_
    rw [okCount_cons_err herr, ite_self]
  · rw [if_neg herr]
    have hc : Completing (s.setEntry i { s.heap i with
        sending := (s.heap i).sending - 1, sent := (s.heap i).sent + 1 }) errReqs rest := by
      refine h.counted (Nat.le_succ _) fun j => ?_
      rw [okCount_cons herr]
      by_cases he : i = j
      · rw [if_pos he, if_pos he]
        omega
      · rw [if_neg he, if_neg he, Nat.add_zero]
    split
    · rename_i hdone
      obtain ⟨hneed, hst⟩ := hdone
      obtain ⟨hlt, hr, hq⟩ := h.valid (d, i) (List.mem_cons_self ..)
      obtain ⟨p, _, hp⟩ := h.entries.ready i hlt hr
      have hown : Owner s i p := ⟨hlt, hr, hp⟩
      -- the request was not released before: `sent` had not reached `need_send`
      have hnot : p ∉ released s := fun hm => by
        have := hq p hown hm
        dsimp only at this
        omega
      have hzero : flightCount s.pulls i = 0 := by
        refine h.alone i ⟨by omega, ?_, hst⟩
        rw [okCount_cons herr, if_pos rfl]
        omega
      have hsame : SameEntries s (s.setEntry i { s.heap i with
          sending := (s.heap i).sending - 1, sent := (s.heap i).sent + 1 }) := sameEntries_counters s i _ _ _
      have hrel := hc.release (hsame.owner.mpr hown) hnot
        (by rw [Sender.setEntry_heap_self]; exact hneed.ge) hzero
      rw [Sender.setEntry_heap_self] at hrel
      have helim : ∀ s₁ : Sender ReqId TransferId, (s.heap i).pReqId.elim s₁ s₁.finish = s₁.finish p := fun s₁ => by
        rw [hp]
        rfl
      rw [helim]
      exact hrel
    · exact hc

theorem completeReqs_inv (errReqs : List ReqId) : ∀ (ready : List (ReqId × Nat)) (s : Sender ReqId TransferId),
    Completing s errReqs ready →
    EntryInv (s.completeReqs errReqs ready) ∧ FlightInv (s.completeReqs errReqs ready)
  | [], _, h => ⟨h.entries, h.flights⟩
  | _ :: rest, _, h => completeReqs_inv errReqs rest _ (completeReq_inv h)

theorem completeReq_setPull (errReqs : List ReqId) (c : Nat) (p : Pull ReqId TransferId) (s : Sender ReqId TransferId)
    (task : ReqId × Nat) : (s.completeReq errReqs task).setPull c p = (s.setPull c p).completeReq errReqs task := by
  unfold Sender.completeReq
  dsimp only
  by_cases herr : task.1 ∈ errReqs
  · rw [if_pos herr, if_pos herr]
    rfl
  · rw [if_neg herr, if_neg herr]
    have hheap : (s.setPull c p).heap = s.heap := rfl
    have hstored : ∀ (m : SendBlockMeta ReqId TransferId) (t : TransferId),
        ((s.setPull c p).setEntry task.2 m).stored t = (s.setEntry task.2 m).stored t := fun _ _ => rfl
    rw [hstored, hheap]
    split
    · cases (s.heap task.2).pReqId <;> rfl
    · rfl

theorem completeReqs_setPull (errReqs : List ReqId) (c : Nat) (p : Pull ReqId TransferId) :
    ∀ (ready : List (ReqId × Nat)) (s : Sender ReqId TransferId),
    (s.completeReqs errReqs ready).setPull c p = (s.setPull c p).completeReqs errReqs ready
  | [], _ => rfl
  | task :: rest, s => by
    rw [Sender.completeReqs, Sender.completeReqs, List.foldl_cons, List.foldl_cons, ← completeReq_setPull]
    exact completeReqs_setPull errReqs c p rest _

/-! ## Scheduler events -/

def Inv (s : Sender ReqId TransferId) : Prop := EntryInv s ∧ FlightInv s

omit [DecidableEq ReqId] in
theorem Inv.pop {s : Sender ReqId TransferId} (hI : Inv s) (t : TransferId) : Inv (s.pop t) :=
  ⟨hI.1.of_same_released (sameEntries_pop s t) rfl,
    hI.2.of_same hI.1 (sameEntries_pop s t) rfl (fun _ h => .inl h) hI.2.counts⟩

omit [DecidableEq TransferId] in
theorem Inv.finish {s : Sender ReqId TransferId} (hI : Inv s) {p : ReqId} (hp : p ∉ s.recorded) :
    Inv ((s.finish p).addRecorded p) := by
  obtain ⟨hE, hF⟩ := hI
  have hrel : ∀ q, q ∈ released ((s.finish p).addRecorded p) ↔ q ∈ released s ∨ q = p := fun q =>
    (released_finish : q ∈ released (s.finish p) ↔ _)
  have hnot : p ∉ released s := fun hm => hp (hE.released_recorded p hm)
  refine ⟨⟨hE.keys, hE.entries, ?_, hE.expire, hE.owner_inj, ?_, nodup_released_finish hE.released_nodup hnot, ?_⟩,
    ⟨hF.pending, ?_, ?_, hF.counts⟩⟩
  · intro i hi hr
    obtain ⟨q, hq, he⟩ := hE.ready i hi hr
    exact ⟨q, List.mem_cons_of_mem _ hq, he⟩
  · intro q hq
    rcases (hrel q).mp hq with hq | rfl
    · exact List.mem_cons_of_mem _ (hE.released_recorded q hq)
    · exact List.mem_cons_self ..
  · intro i q ho hq hst
    rcases (hrel q).mp hq with hq | rfl
    · exact hE.released_gone i q ho hq hst
    · have hown : Owner s i q := ho
      exact hp (hown.recorded hE)
  · intro q hq task ht
    obtain ⟨hlt, hr, hno⟩ := hF.batch q hq task ht
    refine ⟨hlt, hr, fun r ho hm => ?_⟩
    have hown : Owner s task.2 r := ho
    rcases (hrel r).mp hm with hm | rfl
    · exact hno r hown hm
    · exact hp (hown.recorded hE)
  · intro q hq r hr
    obtain ⟨x, he, hrec, hno, task, ht, hown⟩ := hF.reads q hq r hr
    refine ⟨x, he, List.mem_cons_of_mem _ hrec, fun hm => ?_, task, ht, hown⟩
    rcases (hrel x).mp hm with hm | rfl
    · exact hno hm
    · exact hp hrec

omit [DecidableEq ReqId] in
theorem Inv.openEntry {s : Sender ReqId TransferId} (hI : Inv s) {t : TransferId} (ht : s.stored t = none)
    (p : Option ReqId) : Inv (s.openEntry t p) := by
  obtain ⟨hE, hF⟩ := hI
  have hnew : (s.openEntry t p).heap s.next = { pReqId := p, transferId := t } := Function.update_self ..
  have hold : ∀ i, i ≠ s.next → (s.openEntry t p).heap i = s.heap i := fun i hi => Function.update_of_ne hi ..
  have hown : ∀ i q, Owner (s.openEntry t p) i q ↔ Owner s i q := by
    intro i q
    by_cases hi : i = s.next
    · subst hi
      refine ⟨fun h => ?_, fun h => absurd h.1 (Nat.lt_irrefl _)⟩
      have := h.2.1
      rw [hnew] at this
      cases this
    · rw [Owner, Owner, hold i hi]
      show i < s.next + 1 ∧ _ ↔ _
      exact ⟨fun h => ⟨by omega, h.2⟩, fun h => ⟨by omega, h.2⟩⟩
  refine ⟨⟨?_, ?_, ?_, ?_, ?_, hE.released_recorded, hE.released_nodup, ?_⟩, ⟨?_, ?_, ?_, ?_⟩⟩
  · show ((s.reqsNeedSend ++ [(t, s.next)]).map (·.1)).Nodup
    rw [List.map_append, List.nodup_append]
    refine ⟨hE.keys, List.nodup_singleton _, ?_⟩
    intro a ha b hb hab
    obtain ⟨e, he, rfl⟩ := List.mem_map.mp ha
    have hbt : b = t := List.mem_singleton.mp hb
    have hs : s.stored t = some e.2 := hE.stored_iff.mpr (by rw [← hbt, ← hab]; exact he)
    rw [ht] at hs
    cases hs
  · intro e he
    rcases List.mem_append.mp he with he | he
    · obtain ⟨hlt, hid⟩ := hE.entries e he
      rw [hold _ (Nat.ne_of_lt hlt)]
      exact ⟨Nat.lt_succ_of_lt hlt, hid⟩
    · rw [List.mem_singleton.mp he, hnew]
      exact ⟨Nat.lt_succ_self _, rfl⟩
  · intro i hi hr
    by_cases he : i = s.next
    · subst he
      rw [hnew] at hr
      cases hr
    · rw [hold i he] at hr ⊢
      have hi' : i < s.next + 1 := hi
      exact hE.ready i (by omega) hr
  · intro i hi hx
    by_cases he : i = s.next
    · subst he
      rw [hnew] at hx
      exact absurd rfl hx
    · rw [hold i he] at hx ⊢
      have hi' : i < s.next + 1 := hi
      exact hE.expire i (by omega) hx
  · intro i j q hi hj
    exact hE.owner_inj i j q ((hown i q).mp hi) ((hown j q).mp hj)
  · rintro i q ho hm ⟨e, he, hei⟩
    have ho' := (hown i q).mp ho
    rcases List.mem_append.mp he with he | he
    · exact hE.released_gone i q ho' hm ⟨e, he, hei⟩
    · rw [List.mem_singleton.mp he] at hei
      exact absurd (hei ▸ ho'.1) (Nat.lt_irrefl _)
  · intro q hq task ht'
    exact Nat.lt_succ_of_lt (hF.pending q hq task ht')
  · intro q hq task ht'
    obtain ⟨hlt, hr, hno⟩ := hF.batch q hq task ht'
    rw [hold _ (Nat.ne_of_lt hlt)]
    exact ⟨Nat.lt_succ_of_lt hlt, hr, fun r ho => hno r ((hown _ r).mp ho)⟩
  · intro q hq r hr
    obtain ⟨x, he, hrec, hno, task, ht', hj⟩ := hF.reads q hq r hr
    exact ⟨x, he, hrec, hno, task, ht', fun j ho => hj j ((hown j x).mp ho)⟩
  · intro i hi
    by_cases he : i = s.next
    · subst he
      rw [hnew]
      have hzero : flightCount s.pulls s.next = 0 :=
        flightCount_eq_zero fun q hq task ht' => Nat.ne_of_lt (hF.batch q hq task ht').1
      show (flightCount s.pulls s.next : Int) ≤ 0
      rw [hzero]
      exact le_refl _
    · rw [hold i he]
      have hi' : i < s.next + 1 := hi
      exact hF.counts i (by omega)

omit [DecidableEq ReqId] [DecidableEq TransferId] in
/-- The blocks of a request not recorded before, written to an entry. -/
theorem Inv.recordBlocks {s : Sender ReqId TransferId} (hI : Inv s) {i : Nat} {p : ReqId} (hp : p ∉ s.recorded)
    (m : SendBlockMeta ReqId TransferId) (hready : m.ready = true) (hpReq : m.pReqId = some p)
    (hid : m.transferId = (s.heap i).transferId) (hsending : m.sending = (s.heap i).sending) :
    Inv ((s.setEntry i m).addRecorded p) := by
  obtain ⟨hE, hF⟩ := hI
  have hnew : ((s.setEntry i m).addRecorded p).heap i = m := s.setEntry_heap_self i m
  have hold : ∀ j, j ≠ i → ((s.setEntry i m).addRecorded p).heap j = s.heap j := fun j hj =>
    s.setEntry_heap_of_ne m hj
  have hids : ∀ j, (((s.setEntry i m).addRecorded p).heap j).transferId = (s.heap j).transferId := fun j =>
    setEntry_transferId s i j m hid
  -- the entry offers the new request, the others what they did
  have hown : ∀ j q, Owner ((s.setEntry i m).addRecorded p) j q → (j = i ∧ q = p) ∨ (j ≠ i ∧ Owner s j q) := by
    intro j q ho
    by_cases hj : j = i
    · subst hj
      have := ho.2.2
      rw [hnew, hpReq] at this
      cases this
      exact .inl ⟨rfl, rfl⟩
    · refine .inr ⟨hj, ?_⟩
      rw [Owner, hold j hj] at ho
      exact ho
  have hnot : p ∉ released s := fun hm => hp (hE.released_recorded p hm)
  refine ⟨⟨hE.keys, ?_, ?_, ?_, ?_, ?_, hE.released_nodup, ?_⟩, ⟨hF.pending, ?_, ?_, ?_⟩⟩
  · intro e he
    rw [hids]
    exact hE.entries e he
  · intro j hj hr
    by_cases he : j = i
    · subst he
      rw [hnew]
      exact ⟨p, List.mem_cons_self .., hpReq⟩
    · rw [hold j he] at hr ⊢
      obtain ⟨q, hq, hqe⟩ := hE.ready j hj hr
      exact ⟨q, List.mem_cons_of_mem _ hq, hqe⟩
  · intro j hj hx
    by_cases he : j = i
    · subst he
      rw [hnew]
      exact hready
    · rw [hold j he] at hx ⊢
      exact hE.expire j hj hx
  · intro j k q hj hk
    rcases hown j q hj with ⟨hji, hq⟩ | ⟨_, hj'⟩
    · rcases hown k q hk with ⟨hki, _⟩ | ⟨_, hk'⟩
      · rw [hji, hki]
      · exact absurd (hq ▸ hk'.recorded hE) hp
    · rcases hown k q hk with ⟨_, hq⟩ | ⟨_, hk'⟩
      · exact absurd (hq ▸ hj'.recorded hE) hp
      · exact hE.owner_inj j k q hj' hk'
  · intro q hq
    exact List.mem_cons_of_mem _ (hE.released_recorded q hq)
  · intro j q ho hm hst
    rcases hown j q ho with ⟨_, rfl⟩ | ⟨_, ho⟩
    · exact hnot hm
    · exact hE.released_gone j q ho hm hst
  · intro q hq task ht
    obtain ⟨hlt, hr, hno⟩ := hF.batch q hq task ht
    refine ⟨hlt, ?_, fun r ho hm => ?_⟩
    · by_cases he : task.2 = i
      · rw [he, hnew]
        exact hready
      · rw [hold _ he]
        exact hr
    · rcases hown task.2 r ho with ⟨_, rfl⟩ | ⟨_, ho⟩
      · exact hnot hm
      · exact hno r ho hm
  · intro q hq r hr
    obtain ⟨x, he, hrec, hno, task, ht, hj⟩ := hF.reads q hq r hr
    refine ⟨x, he, List.mem_cons_of_mem _ hrec, hno, task, ht, fun j ho => ?_⟩
    rcases hown j x ho with ⟨_, rfl⟩ | ⟨_, ho⟩
    · exact absurd hrec hp
    · exact hj j ho
  · intro j hj
    by_cases he : j = i
    · subst he
      rw [hnew, hsending]
      exact hF.counts j hj
    · rw [hold j he]
      exact hF.counts j hj

theorem Inv.recordSend {w : Worker ReqId TransferId} {now : Nat} {s s' : Sender ReqId TransferId} {p : ReqId}
    {t : TransferId} {blockIds : List (List Int)} (hI : Inv s) (hp : blockIds ≠ [] → p ∉ s.recorded)
    (h : s.recordSend w now p t blockIds = some s') :
    Inv s' ∧ ∀ q, q ∈ s'.recorded → q ∈ s.recorded ∨ q = p := by
  unfold Sender.recordSend at h
  split at h
  · rename_i hb
    split at h
    · cases h
      refine ⟨(hI.pop t).finish (hp hb), fun q hq => ?_⟩
      rcases List.mem_cons.mp hq with rfl | hq
      · exact .inr rfl
      · exact .inl hq
    · split at h
      · cases h
      · cases h
        refine ⟨hI.recordBlocks (hp hb) _ rfl rfl rfl rfl, fun q hq => ?_⟩
        rcases List.mem_cons.mp hq with rfl | hq
        · exact .inr rfl
        · exact .inl hq
  · split at h
    · rename_i hst
      cases h
      exact ⟨hI.openEntry (Option.isNone_iff_eq_none.mp hst) _, fun q hq => .inl hq⟩
    · cases h
      exact ⟨hI, fun q hq => .inl hq⟩

/-- The requests of one `record_send_reqs`: distinct ids, those with blocks not recorded before. -/
def RecordsOnce (recorded : List ReqId) (reqs : List (ReqId × TransferId × List (List Int))) : Prop :=
  (reqs.map (·.1)).Nodup ∧ ∀ r ∈ reqs, r.2.2 ≠ [] → r.1 ∉ recorded

theorem Inv.recordSends (w : Worker ReqId TransferId) (now : Nat) :
    ∀ (reqs : List (ReqId × TransferId × List (List Int))) (s : Sender ReqId TransferId), Inv s →
    RecordsOnce s.recorded reqs → Inv (s.recordSends w now reqs).1
  | [], _, hI, _ => hI
  | (p, t, blockIds) :: rest, s, hI, hr => by
    unfold Sender.recordSends
    split
    · exact hI
    · rename_i s' h
      obtain ⟨hnd, hnew⟩ := hr
      obtain ⟨hp, hnd⟩ := List.nodup_cons.mp hnd
      obtain ⟨hI', hrec⟩ := hI.recordSend (hnew (p, t, blockIds) (List.mem_cons_self ..)) h
      refine Inv.recordSends w now rest s' hI' ⟨hnd, fun r hr hb hm => ?_⟩
      rcases hrec r.1 hm with hm | he
      · exact hnew r (List.mem_cons_of_mem _ hr) hb hm
      · exact hp (List.mem_map.mpr ⟨r, hr, he⟩)

omit [DecidableEq ReqId] in
theorem Inv.dropNotProcessed : ∀ (ts : List TransferId) (s : Sender ReqId TransferId), Inv s →
    Inv (s.dropNotProcessed ts)
  | [], _, hI => hI
  | t :: rest, s, hI => by
    unfold Sender.dropNotProcessed
    split
    · exact Inv.dropNotProcessed rest s hI
    · split
      · exact hI.pop t
      · exact Inv.dropNotProcessed rest _ (hI.pop t)

/-! ## Expiry -/

omit [DecidableEq ReqId] [DecidableEq TransferId] in
theorem expired_spec {s : Sender ReqId TransferId} {now i : Nat} (h : s.expired now i = true) :
    (s.heap i).pReqId.isSome = true ∧ (s.heap i).expireTime ≠ none ∧ (s.heap i).sending = 0 := by
  unfold Sender.expired at h
  rw [Bool.and_eq_true, Bool.and_eq_true, beq_iff_eq] at h
  refine ⟨h.1.1, fun he => ?_, h.2⟩
  rw [he] at h
  exact Bool.false_ne_true h.1.2

/-- The requests that expire at a fetch. -/
def expiredReqs (s : Sender ReqId TransferId) (now : Nat) : List ReqId :=
  (s.reqsNeedSend.filter fun e => s.expired now e.2).filterMap fun e => (s.heap e.2).pReqId

omit [DecidableEq ReqId] [DecidableEq TransferId] in
theorem EntryInv.expired_owner {s : Sender ReqId TransferId} (hE : EntryInv s) {now : Nat} {q : ReqId}
    (h : q ∈ expiredReqs s now) :
    ∃ i, IsStored s i ∧ s.expired now i = true ∧ Owner s i q := by
  obtain ⟨e, he, hq⟩ := List.mem_filterMap.mp h
  obtain ⟨hm, hx⟩ := List.mem_filter.mp he
  have hlt := (hE.entries e hm).1
  exact ⟨e.2, ⟨e, hm, rfl⟩, hx, hlt, hE.expire _ hlt (expired_spec hx).2.1, hq⟩

omit [DecidableEq ReqId] [DecidableEq TransferId] in
theorem EntryInv.expired_nodup {s : Sender ReqId TransferId} (hE : EntryInv s) (now : Nat) :
    (released s ++ expiredReqs s now).Nodup := by
  rw [List.nodup_append]
  refine ⟨hE.released_nodup, ?_, fun a ha b hb hab => ?_⟩
  · rw [expiredReqs, List.Nodup, List.pairwise_filterMap]
    refine List.Pairwise.imp_of_mem (fun he he' hne q hq q' hq' hqq => ?_) ((List.Nodup.of_map _ hE.keys).filter _)
    rename_i e e'
    obtain ⟨hm, hx⟩ := List.mem_filter.mp he
    obtain ⟨hm', hx'⟩ := List.mem_filter.mp he'
    obtain ⟨hlt, hid⟩ := hE.entries e hm
    obtain ⟨hlt', hid'⟩ := hE.entries e' hm'
    subst hqq
    -- one request in two expired entries
    have hsame : e.2 = e'.2 := hE.owner_inj _ _ q ⟨hlt, hE.expire _ hlt (expired_spec hx).2.1, hq⟩
      ⟨hlt', hE.expire _ hlt' (expired_spec hx').2.1, hq'⟩
    rw [hsame] at hid
    exact hne (Prod.ext (hid.symm.trans hid') hsame)
  · obtain ⟨i, hst, _, ho⟩ := hE.expired_owner hb
    exact hE.released_gone i b ho (hab ▸ ha) hst

omit [DecidableEq TransferId] in
theorem Inv.fetch {s : Sender ReqId TransferId} (hI : Inv s) (now : Nat) : Inv (s.fetchFinishedSendingReqs now) := by
  obtain ⟨hE, hF⟩ := hI
  have hnd := hE.expired_nodup now
  have hrel : released (s.fetchFinishedSendingReqs now) = released s ++ expiredReqs s now := by
    have hsub : (s.finishedSendingReqs ++ expiredReqs s now).Nodup := by
      rw [released, List.append_assoc] at hnd
      exact hnd.sublist (List.sublist_append_right _ _)
    show s.reported ++ (s.finishedSendingReqs ++ expiredReqs s now).dedup ++ [] = _
    rw [hsub.dedup, List.append_nil, released, List.append_assoc]
  have hsame : SameEntries s (s.fetchFinishedSendingReqs now) :=
    ⟨rfl, fun _ => rfl, fun _ => rfl, fun _ => rfl, fun _ => rfl, rfl, List.filter_sublist⟩
  refine ⟨hE.of_same hsame ?_ ?_ ?_, hF.of_same hE hsame rfl ?_ hF.counts⟩
  · intro q hq
    rw [hrel] at hq
    rcases List.mem_append.mp hq with hq | hq
    · exact hE.released_recorded q hq
    · obtain ⟨i, _, _, ho⟩ := hE.expired_owner hq
      exact ho.recorded hE
  · rw [hrel]
    exact hnd
  · intro i q ho hq hst
    rw [hrel] at hq
    rcases List.mem_append.mp hq with hq | hq
    · exact hE.released_gone i q ho hq (hsame.isStored hst)
    · obtain ⟨j, _, hx, hoj⟩ := hE.expired_owner hq
      rw [hE.owner_inj j i q hoj ho] at hx
      obtain ⟨e, he, rfl⟩ := hst
      have := (List.mem_filter.mp he).2
      rw [hx] at this
      cases this
  · intro q hq
    rw [hrel] at hq
    rcases List.mem_append.mp hq with hq | hq
    · exact .inl hq
    · -- an entry that expires is in no batch
      obtain ⟨i, _, hx, ho⟩ := hE.expired_owner hq
      refine .inr ⟨i, ho, ?_⟩
      have h₁ := hF.counts i ho.1
      have h₂ := (expired_spec hx).2.2
      omega

/-! ## Pulls -/

omit [DecidableEq ReqId] in
theorem Inv.awaitEntries : ∀ (reqs : List (ReqId × TransferId × List (List Int))) (s : Sender ReqId TransferId), Inv s →
    Inv (s.awaitEntries reqs).1 ∧ s.next ≤ (s.awaitEntries reqs).1.next ∧
      ∀ task ∈ (s.awaitEntries reqs).2, task.2 < (s.awaitEntries reqs).1.next
  | [], s, hI => ⟨hI, le_refl _, nofun⟩
  | (d, t, _) :: rest, s, hI => by
    unfold Sender.awaitEntries
    split
    · rename_i i hi
      obtain ⟨hI', hle, hall⟩ := Inv.awaitEntries rest s hI
      refine ⟨hI', hle, fun task ht => ?_⟩
      rcases List.mem_cons.mp ht with rfl | ht
      · exact lt_of_lt_of_le (hI.1.entries _ (hI.1.stored_iff.mp hi)).1 hle
      · exact hall task ht
    · rename_i hn
      obtain ⟨hI', hle, hall⟩ := Inv.awaitEntries rest _ (hI.openEntry hn none)
      have hle' : s.next + 1 ≤ (Sender.awaitEntries rest (s.openEntry t none)).1.next := hle
      refine ⟨hI', by dsimp only; omega, fun task ht => ?_⟩
      rcases List.mem_cons.mp ht with rfl | ht
      · exact hle'
      · exact hall task ht

omit [DecidableEq ReqId] [DecidableEq TransferId] in
theorem Inv.addPull {s : Sender ReqId TransferId} (hI : Inv s) (p : Pull ReqId TransferId) (hidle : p.Idle)
    (hpend : ∀ task ∈ p.pendingReqs, task.2 < s.next) :
    Inv { s with pulls := s.pulls ++ [p] } := by
  obtain ⟨hE, hF⟩ := hI
  have hE' : EntryInv { s with pulls := s.pulls ++ [p] } :=
    hE.of_same_released ⟨rfl, fun _ => rfl, fun _ => rfl, fun _ => rfl, fun _ => rfl, rfl, List.Sublist.refl _⟩ rfl
  refine ⟨hE', ⟨?_, ?_, ?_, ?_⟩⟩
  · intro q hq
    rcases List.mem_append.mp hq with hq | hq
    · exact hF.pending q hq
    · rw [List.mem_singleton.mp hq]
      exact hpend
  · intro q hq task ht
    rcases List.mem_append.mp hq with hq | hq
    · exact hF.batch q hq task ht
    · rw [List.mem_singleton.mp hq, hidle.batch_eq] at ht
      cases ht
  · intro q hq r hr'
    rcases List.mem_append.mp hq with hq | hq
    · exact hF.reads q hq r hr'
    · rw [List.mem_singleton.mp hq, hidle.reads_eq] at hr'
      cases hr'
  · intro i hi
    have hcount : flightCount (s.pulls ++ [p]) i = flightCount s.pulls i := by
      simp [flightCount, hidle.batch_eq]
    show (flightCount (s.pulls ++ [p]) i : Int) ≤ _
    rw [hcount]
    exact hF.counts i hi

omit [DecidableEq ReqId] in
theorem Inv.startPull {w : Worker ReqId TransferId} {s : Sender ReqId TransferId} (hI : Inv s)
    (m : XferMetadata ReqId TransferId) : Inv (s.startPull w m) := by
  unfold Sender.startPull
  split
  · exact hI.addPull _ nofun nofun
  · obtain ⟨hI', _, hall⟩ := Inv.awaitEntries m.reqBlocks s hI
    refine hI'.addPull _ (fun b => ?_) hall
    dsimp only
    split <;> exact nofun

/-! ## Batches -/

omit [DecidableEq ReqId] [DecidableEq TransferId] in
theorem flightCount_erase {p' : Pull ReqId TransferId} (hidle : p'.Idle) (i : Nat) :
    ∀ (pulls : List (Pull ReqId TransferId)) (c : Nat), c < pulls.length →
    flightCount (pulls.set c p') i = flightCount (pulls.eraseIdx c) i
  | q :: pulls, 0, _ => by
    simp [flightCount, hidle.batch_eq]
  | q :: pulls, c + 1, h => by
    have ih := flightCount_erase hidle i pulls c (Nat.lt_of_succ_lt_succ h)
    simp only [flightCount, List.set_cons_succ, List.eraseIdx_cons_succ, List.map_cons, List.sum_cons] at ih ⊢
    omega

omit [DecidableEq ReqId] [DecidableEq TransferId] in
theorem EntryInv.setPull {s : Sender ReqId TransferId} (hE : EntryInv s) (c : Nat) (p : Pull ReqId TransferId) :
    EntryInv (s.setPull c p) :=
  hE.of_same_released ⟨rfl, fun _ => rfl, fun _ => rfl, fun _ => rfl, fun _ => rfl, rfl, List.Sublist.refl _⟩ rfl

theorem Inv.complete {s : Sender ReqId TransferId} {c : Nat} {p p' : Pull ReqId TransferId} {errReqs : List ReqId}
    {ready : List (ReqId × Nat)} (hI : Inv s) (hp : s.pulls[c]? = some p) (hidle : p'.Idle)
    (hpend : ∀ task ∈ p'.pendingReqs, task ∈ p.pendingReqs)
    (hvalid : ∀ task ∈ ready, task.2 < s.next ∧ (s.heap task.2).ready = true ∧
      ∀ q, Owner s task.2 q → q ∉ released s)
    (hcounts : ∀ i < s.next, (flightCount s.pulls i : Int) + ((ready.map (·.2)).count i : Int) ≤
      (s.heap i).sending + ((p.batch.map (·.2)).count i : Int))
    (halone : CompletesAlone s (s.pulls.eraseIdx c) errReqs ready) :
    Inv ((s.completeReqs errReqs ready).setPull c p') := by
  rw [completeReqs_setPull]
  refine completeReqs_inv errReqs ready _ ⟨hI.1.setPull c p', hI.2.settle hp hidle hpend, ?_, ?_, ?_⟩
  · intro task ht
    obtain ⟨hlt, hr, hno⟩ := hvalid task ht
    exact ⟨hlt, hr, fun q ho hm => absurd hm (hno q ho)⟩
  · intro i hi
    have h₁ := flightCount_set p' i hp
    have h₂ := hcounts i hi
    rw [hidle.batch_eq, List.map_nil, List.count_nil] at h₁
    show (flightCount (s.pulls.set c p') i : Int) + _ ≤ (s.heap i).sending
    omega
  · intro i hl
    have hlen := (List.getElem?_eq_some_iff.mp hp).1
    show flightCount (s.pulls.set c p') i = 0
    rw [flightCount_erase hidle i _ _ hlen]
    exact halone.entry hl

omit [DecidableEq TransferId] in
/-- A transfer reads the blocks of the requests that its entries offer. -/
theorem buildTransferParams_reads {w : Worker ReqId TransferId} {m : XferMetadata ReqId TransferId}
    {heap : Nat → SendBlockMeta ReqId TransferId} : ∀ {ready : List (ReqId × Nat)} {ps : TransferParams ReqId},
    buildTransferParams w m heap ready = .ok ps → ∀ r ∈ ps.reads, ∃ task ∈ ready, r.1 = (heap task.2).pReqId
  | [], ps, h => by
    cases h
    exact nofun
  | (d, i) :: rest, ps, h => by
    unfold buildTransferParams at h
    dsimp only at h
    split at h
    · cases h
    · intro r hr
      obtain ⟨task, ht, he⟩ := buildTransferParams_reads h r hr
      exact ⟨task, List.mem_cons_of_mem _ ht, he⟩
    · obtain ⟨ps', h', he⟩ := bind_eq_ok.mp h
      cases he
      intro r hr
      obtain ⟨task, ht, he⟩ := buildTransferParams_reads h' r hr
      exact ⟨task, List.mem_cons_of_mem _ ht, he⟩
    · obtain ⟨ps', h', he⟩ := bind_eq_ok.mp h
      cases he
      intro r hr
      rcases List.mem_cons.mp hr with rfl | hr
      · exact ⟨(d, i), List.mem_cons_self .., rfl⟩
      · obtain ⟨task, ht, he⟩ := buildTransferParams_reads h' r hr
        exact ⟨task, List.mem_cons_of_mem _ ht, he⟩

/-- The batch that a collect without descriptors completes at once. -/
def collectsAlone (w : Worker ReqId TransferId) (s : Sender ReqId TransferId) (c : Nat) (p : Pull ReqId TransferId)
    (done : List (ReqId × Nat)) : Prop :=
  match buildTransferParams w p.xferMeta (s.markReady p.xferMeta.numTargetRanks done).1.heap
      (s.markReady p.xferMeta.numTargetRanks done).2.1 with
  | .ok ps => ps.descriptors = [] → CompletesAlone (s.markReady p.xferMeta.numTargetRanks done).1
      (s.pulls.eraseIdx c) ps.errReqs (s.markReady p.xferMeta.numTargetRanks done).2.1
  | .error _ => True

/-- An entry that a pull collects is the stored one of its transfer. -/
def CollectsOwn (s : Sender ReqId TransferId) (done : List (ReqId × Nat)) : Prop :=
  ∀ task ∈ done, (s.stored (s.heap task.2).transferId).isSome = true →
    s.stored (s.heap task.2).transferId = some task.2

theorem Inv.collect {w : Worker ReqId TransferId} {s : Sender ReqId TransferId} {c : Nat} {p : Pull ReqId TransferId}
    {done : List (ReqId × Nat)} (hI : Inv s) (hp : s.pulls[c]? = some p) (hw : p.phase = .waiting)
    (hdone : ∀ task ∈ done, task ∈ p.pendingReqs ∧ (s.heap task.2).ready = true) (hown : CollectsOwn s done)
    (halone : collectsAlone w s c p done) (sendError : Option String) : Inv (s.collect w c p done sendError) := by
  have hmark := markReady_marked p.xferMeta.numTargetRanks done s
  unfold Sender.collect
  unfold collectsAlone at halone
  dsimp only
  generalize s.markReady p.xferMeta.numTargetRanks done = r at hmark halone ⊢
  obtain ⟨s₁, ready, forgotten⟩ := r
  dsimp only at hmark halone ⊢
  have hpw : p.batch = [] := by
    unfold Pull.batch
    rw [hw]
  have hmem := List.mem_of_getElem? hp
  have hI₁ : Inv s₁ := by
    refine ⟨hI.1.of_same_released hmark.same hmark.released,
      hI.2.of_same hI.1 hmark.same hmark.pulls (fun q hq => .inl (hmark.released ▸ hq)) fun i hi => ?_⟩
    have h₁ := hI.2.counts i hi
    have h₂ := hmark.sending i
    omega
  have hp₁ : s₁.pulls[c]? = some p := by rw [hmark.pulls, hp]
  -- what is marked is stored, so its request is not released
  have hvalid : ∀ task ∈ ready, task.2 < s₁.next ∧ (s₁.heap task.2).ready = true ∧
      ∀ q, Owner s₁ task.2 q → q ∉ Mooncake.released s₁ := by
    intro task ht
    obtain ⟨hd, hst⟩ := hmark.mem task ht
    obtain ⟨hpend, hready⟩ := hdone task hd
    have hstored := hI.1.isStored_of (hown task hd hst)
    rw [hmark.same.next, hmark.same.ready, hmark.released]
    exact ⟨hI.2.pending p hmem task hpend, hready,
      fun q ho hm => hI.1.released_gone _ q (hmark.same.owner.mp ho) hm hstored⟩
  have hcounts : ∀ i < s₁.next, (flightCount s₁.pulls i : Int) + ((ready.map (·.2)).count i : Int) ≤
      (s₁.heap i).sending := by
    intro i hi
    rw [hmark.same.next] at hi
    have h₁ := hI.2.counts i hi
    have h₂ := hmark.sending i
    rw [hmark.pulls]
    omega
  have hsub : ∀ task ∈ p.pendingReqs.filter (fun task => task ∉ done), task ∈ p.pendingReqs := fun task ht =>
    (List.mem_filter.mp ht).1
  split
  · rename_i msg hbuild
    exact ⟨hI₁.1.setPull c _, hI₁.2.settle hp₁ (Pull.idle_fail _ msg) hsub⟩
  · rename_i ps hbuild
    rw [hbuild] at halone
    split
    · rename_i hnil
      refine hI₁.complete hp₁ (Pull.idle_respond _ _ _) ?_ hvalid ?_ ?_
      · intro task ht
        refine hsub task ?_
        cases sendError <;> exact ht
      · rw [hpw]
        intro i hi
        have := hcounts i hi
        simpa using this
      · rw [hmark.pulls]
        exact halone hnil
    · refine ⟨hI₁.1.setPull c _, ⟨?_, ?_, ?_, ?_⟩⟩
      · intro q hq task ht
        rcases List.mem_or_eq_of_mem_set hq with hq | rfl
        · exact hI₁.2.pending q hq task ht
        · exact hI₁.2.pending p (List.mem_of_getElem? hp₁) task (hsub task ht)
      · intro q hq task ht
        rcases List.mem_or_eq_of_mem_set hq with hq | rfl
        · exact hI₁.2.batch q hq task ht
        · exact hvalid task ht
      · intro q hq r hr
        rcases List.mem_or_eq_of_mem_set hq with hq | rfl
        · exact hI₁.2.reads q hq r hr
        · obtain ⟨task, ht, he⟩ := buildTransferParams_reads hbuild r hr
          obtain ⟨hlt, hready, hno⟩ := hvalid task ht
          obtain ⟨x, hx, hxe⟩ := hI₁.1.ready task.2 hlt hready
          have hox : Owner s₁ task.2 x := ⟨hlt, hready, hxe⟩
          exact ⟨x, he.trans hxe, hx, hno x hox, task, ht, fun j hj => hI₁.1.owner_inj j task.2 x hj hox⟩
      · intro i hi
        have h₁ := hcounts i hi
        have h₂ := flightCount_set { p with
          pendingReqs := p.pendingReqs.filter fun task => task ∉ done
          forgotten := p.forgotten ++ forgotten
          phase := .sending ⟨ready, ps.errReqs, ps.errMsg,
            if p.pendingReqs.filter (fun task => task ∉ done) = [] then .FINISH else .CONTINUE, ps.reads⟩ } i hp₁
        rw [hpw, List.map_nil, List.count_nil, Nat.add_zero] at h₂
        show (flightCount (s₁.pulls.set c _) i : Int) ≤ (s₁.heap i).sending
        rw [h₂]
        exact h₁

/-! ## Runs -/

/-- The scheduler records a request with blocks once: `request_finished` is called once per request. -/
def SchedulerStep (s : Sender ReqId TransferId) : Event ReqId TransferId → Prop
  | .record _ reqsToSend _ => RecordsOnce s.recorded reqsToSend
  | _ => True

/-- The entries that a pull collects are the stored ones of their transfers, and a batch that completes
an entry is the only one sending it. -/
def CleanRelease (w : Worker ReqId TransferId) (s : Sender ReqId TransferId) : Event ReqId TransferId → Prop
  | .collect c done _ =>
    CollectsOwn s done ∧
      match s.pulls[c]? with
      | some p => collectsAlone w s c p done
      | none => True
  | .transferred c retValue _ =>
    match s.pulls[c]? with
    | some p =>
      match p.phase with
      | .sending b => CompletesAlone s (s.pulls.eraseIdx c) (b.finalErrReqs retValue) b.readyReqs
      | _ => True
    | none => True
  | _ => True

omit [DecidableEq ReqId] [DecidableEq TransferId] in
theorem inv_initial (heap : Nat → SendBlockMeta ReqId TransferId) : Inv (Sender.initial heap) :=
  ⟨⟨List.nodup_nil, nofun, nofun, nofun, fun i _ _ hi => absurd hi.1 (Nat.not_lt_zero i), nofun, List.nodup_nil,
    fun _ _ _ h => nomatch h⟩, ⟨nofun, nofun, nofun, nofun⟩⟩

theorem inv_step (w : Worker ReqId TransferId) (s : Sender ReqId TransferId) (e : Event ReqId TransferId)
    (s' : Sender ReqId TransferId) (hI : Inv s) (hc : SchedulerStep s e ∧ CleanRelease w s e)
    (h : step w s e = some s') : Inv s' := by
  obtain ⟨hsched, hclean⟩ := hc
  cases e with
  | record now reqsToSend reqsNotProcessed =>
    cases h
    unfold Sender.recordSendReqs
    have hrec := Inv.recordSends w now reqsToSend s hI hsched
    split
    · rename_i s₁ hs
      rw [hs] at hrec
      exact Inv.dropNotProcessed reqsNotProcessed s₁ hrec
    · rename_i s₁ hs
      rw [hs] at hrec
      exact hrec
  | fetch now =>
    cases h
    exact hI.fetch now
  | pull m =>
    cases h
    exact hI.startPull m
  | collect c done sendError =>
    dsimp only [step] at h
    split at h
    · rename_i p hp
      split at h
      · rename_i hw
        split at h
        · rename_i hg
          cases h
          obtain ⟨hown, halone⟩ := hclean
          rw [hp] at halone
          exact hI.collect hp hw hg.2.2 hown halone sendError
        · cases h
      · cases h
    · cases h
  | timeout c sendError =>
    dsimp only [step] at h
    split at h
    · rename_i p hp
      split at h
      · cases h
        refine ⟨hI.1.setPull c _, hI.2.settle hp (Pull.idle_respond _ _ _) fun task ht => ?_⟩
        cases sendError <;> exact ht
      · cases h
    · cases h
  | transferred c retValue sendError =>
    dsimp only [step] at h
    split at h
    · rename_i p hp
      split at h
      · rename_i b hb
        cases h
        have hbatch : p.batch = b.readyReqs := by
          unfold Pull.batch
          rw [hb]
        dsimp only [CleanRelease] at hclean
        rw [hp] at hclean
        dsimp only at hclean
        rw [hb] at hclean
        refine hI.complete hp (Pull.idle_respond _ _ _) (fun task ht => ?_)
          (fun task ht => hI.2.batch p (List.mem_of_getElem? hp) task (hbatch ▸ ht)) (fun i hi => ?_) hclean
        · cases sendError <;> exact ht
        · have := hI.2.counts i hi
          rw [hbatch]
          omega
      · cases h
    · cases h
  | transferRaised c msg =>
    dsimp only [step] at h
    split at h
    · rename_i p hp
      split at h
      · cases h
        exact ⟨hI.1.setPull c _, hI.2.settle hp (Pull.idle_fail _ msg) fun task ht => ht⟩
      · cases h
    · cases h

/-- In a run where pulls collect only stored entries and no other batch is sending an entry that
completes, a request is reported at most once and no transfer reads its blocks once it is reported. -/
theorem release_safe (w : Worker ReqId TransferId) (heap : Nat → SendBlockMeta ReqId TransferId)
    (es : List (Event ReqId TransferId)) (s : Sender ReqId TransferId)
    (hrun : run w (.initial heap) es = some s) (hsched : Along (step w) SchedulerStep (.initial heap) es)
    (hclean : Along (step w) (CleanRelease w) (.initial heap) es) :
    s.reported.Nodup ∧ ∀ p ∈ s.pulls, ∀ r ∈ p.reads, ∃ q, r.1 = some q ∧ q ∉ s.reported := by
  have hI : Inv s := run_invariant (inv_step w) (inv_initial heap) (hsched.and hclean) hrun
  refine ⟨hI.1.released_nodup.sublist (List.sublist_append_left _ _), fun p hp r hr => ?_⟩
  obtain ⟨q, he, _, hno, _⟩ := hI.2.reads p hp r hr
  exact ⟨q, he, fun hm => hno (List.mem_append_left _ hm)⟩

/-! ## Two ranks and a late pull -/

instance (s : Sender ReqId TransferId) : (e : Event ReqId TransferId) → Decidable (SchedulerStep s e)
  | .record _ reqsToSend _ =>
    inferInstanceAs (Decidable ((reqsToSend.map (·.1)).Nodup ∧ ∀ r ∈ reqsToSend, r.2.2 ≠ [] → r.1 ∉ s.recorded))
  | .fetch _ | .pull _ | .collect .. | .timeout .. | .transferred .. | .transferRaised .. =>
    inferInstanceAs (Decidable True)

instance (s : Sender ReqId TransferId) (pulls : List (Pull ReqId TransferId)) (errReqs : List ReqId)
    (ready : List (ReqId × Nat)) : Decidable (CompletesAlone s pulls errReqs ready) :=
  inferInstanceAs (Decidable (∀ task ∈ ready, LastOf s errReqs ready task.2 → flightCount pulls task.2 = 0))

instance (w : Worker ReqId TransferId) (s : Sender ReqId TransferId) (c : Nat) (p : Pull ReqId TransferId)
    (done : List (ReqId × Nat)) : Decidable (collectsAlone w s c p done) :=
  match h : buildTransferParams w p.xferMeta (s.markReady p.xferMeta.numTargetRanks done).1.heap
      (s.markReady p.xferMeta.numTargetRanks done).2.1 with
  | .ok ps => decidable_of_iff (ps.descriptors = [] → CompletesAlone (s.markReady p.xferMeta.numTargetRanks done).1
      (s.pulls.eraseIdx c) ps.errReqs (s.markReady p.xferMeta.numTargetRanks done).2.1)
      (by unfold collectsAlone; rw [h])
  | .error _ => .isTrue (by unfold collectsAlone; rw [h]; trivial)

instance (w : Worker ReqId TransferId) (s : Sender ReqId TransferId) :
    (e : Event ReqId TransferId) → Decidable (CleanRelease w s e)
  | .collect c done _ =>
    have : Decidable (CollectsOwn s done) := inferInstanceAs (Decidable (∀ task ∈ done, _ → _))
    match h : s.pulls[c]? with
    | some p => decidable_of_iff (CollectsOwn s done ∧ collectsAlone w s c p done) (by dsimp only [CleanRelease]; rw [h])
    | none => decidable_of_iff (CollectsOwn s done) (by dsimp only [CleanRelease]; rw [h, and_true])
  | .transferred c retValue _ =>
    match h : s.pulls[c]? with
    | some p =>
      match hb : p.phase with
      | .sending b => decidable_of_iff
          (CompletesAlone s (s.pulls.eraseIdx c) (b.finalErrReqs retValue) b.readyReqs)
          (by dsimp only [CleanRelease]; rw [h]; dsimp only; rw [hb])
      | .waiting | .ended => .isTrue (by dsimp only [CleanRelease]; rw [h]; dsimp only; rw [hb]; trivial)
    | none => .isTrue (by dsimp only [CleanRelease]; rw [h]; trivial)
  | .record .. | .fetch _ | .pull _ | .timeout .. | .transferRaised .. => inferInstanceAs (Decidable True)

end

end

/-- Consumer request `d` of one of two target ranks pulls one block of transfer 7. -/
def rankPull (d : Nat) : XferMetadata Nat Nat := ⟨[(d, 7, [[5]])], 2, by simp⟩

/-- Two ranks pull transfer 7 at the same time, and the second one completes it. -/
def twoRankRun : List (Event Nat Nat) :=
  [.pull (rankPull 10), .record 0 [(1, 7, [])] [], .record 0 [(1, 7, [[3]])] [], .collect 0 [(10, 0)] none,
    .pull (rankPull 11), .collect 1 [(11, 0)] none, .transferred 0 0 none, .transferred 1 0 none, .fetch 1]

theorem release_safe_two_ranks :
    ∃ s, run oneDescriptor (.initial noEntry) twoRankRun = some s ∧ s.reported = [1] ∧ s.reported.Nodup ∧
      ∀ p ∈ s.pulls, ∀ r ∈ p.reads, ∃ q, r.1 = some q ∧ q ∉ s.reported := by
  refine ⟨_, rfl, rfl, ?_⟩
  exact release_safe oneDescriptor noEntry twoRankRun _ rfl (by decide +kernel) (by decide +kernel)

/-- Request 1 expires under a pull that waits for it; a late pull opens a new entry for the transfer. -/
def latePullRun : List (Event Nat Nat) :=
  [.record 0 [(1, 7, [])] [], .record 0 [(1, 7, [[3]])] [], .pull pullSeven, .fetch 481, .pull (rankPull 11),
    .collect 0 [(10, 0)] none]

/-- The pull that waited then sends the blocks of the reported request, and completes it again. -/
theorem release_unsafe_late_pull :
    Along (step oneDescriptor) SchedulerStep (.initial noEntry)
        (latePullRun ++ [.transferred 0 0 none, .fetch 482]) ∧
      (∃ s p r, run oneDescriptor (.initial noEntry) latePullRun = some s ∧ s.pulls[0]? = some p ∧ r ∈ p.reads ∧
        r = (some 1, [[3]]) ∧ 1 ∈ s.reported) ∧
      ∃ s, run oneDescriptor (.initial noEntry) (latePullRun ++ [.transferred 0 0 none, .fetch 482]) = some s ∧
        s.reported = [1, 1] ∧ ¬ s.reported.Nodup :=
  ⟨by decide +kernel, ⟨_, _, _, rfl, rfl, List.mem_cons_self .., rfl, List.mem_cons_self ..⟩,
    ⟨_, rfl, rfl, by decide⟩⟩

end VllmHcu.Mooncake
