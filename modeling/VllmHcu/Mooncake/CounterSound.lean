import VllmHcu.Mooncake.ReleaseSound

/-!
# The sending counter

A pull raises `sending` of the entries it collects and lowers it when their
batch is done. An entry with a raised counter does not expire. As long as a
batch reaches its bookkeeping, the counter is the number of requests in flight.
-/

namespace VllmHcu.Mooncake

section
variable {ReqId TransferId : Type} [DecidableEq ReqId] [DecidableEq TransferId]

/-- `sending` counts the requests in flight and nothing else. -/
structure Balanced (s : Sender ReqId TransferId) : Prop where
  entries : ∀ e ∈ s.reqsNeedSend, e.2 < s.next
  pending : ∀ p ∈ s.pulls, ∀ task ∈ p.pendingReqs, task.2 < s.next
  batch : ∀ p ∈ s.pulls, ∀ task ∈ p.batch, task.2 < s.next
  sending : ∀ i < s.next, (s.heap i).sending = flightCount s.pulls i

/-! ## Steps that leave the pulls alone -/

/-- New entries come with a zero counter and the counters of the others stay. -/
structure Grows (s s' : Sender ReqId TransferId) : Prop where
  next : s.next ≤ s'.next
  pulls : s'.pulls = s.pulls
  entries : (∀ e ∈ s.reqsNeedSend, e.2 < s.next) → ∀ e ∈ s'.reqsNeedSend, e.2 < s'.next
  old : ∀ i < s.next, (s'.heap i).sending = (s.heap i).sending
  fresh : ∀ i < s'.next, s.next ≤ i → (s'.heap i).sending = 0

omit [DecidableEq ReqId] [DecidableEq TransferId] in
theorem Grows.refl (s : Sender ReqId TransferId) : Grows s s :=
  ⟨le_rfl, rfl, fun h => h, fun _ _ => rfl, fun _ h₁ h₂ => absurd h₁ (by omega)⟩

omit [DecidableEq ReqId] [DecidableEq TransferId] in
theorem Grows.trans {s s₁ s₂ : Sender ReqId TransferId} (h : Grows s s₁) (h' : Grows s₁ s₂) : Grows s s₂ := by
  refine ⟨h.next.trans h'.next, h'.pulls.trans h.pulls, fun he => h'.entries (h.entries he), fun i hi => ?_,
    fun i hi hs => ?_⟩
  · rw [h'.old i (lt_of_lt_of_le hi h.next), h.old i hi]
  · by_cases h₁ : i < s₁.next
    · rw [h'.old i h₁, h.fresh i h₁ hs]
    · exact h'.fresh i hi (by omega)

omit [DecidableEq ReqId] [DecidableEq TransferId] in
theorem Balanced.grows {s s' : Sender ReqId TransferId} (h : Balanced s) (hg : Grows s s') : Balanced s' := by
  refine ⟨hg.entries h.entries, ?_, ?_, fun i hi => ?_⟩
  · rw [hg.pulls]
    exact fun p hp task ht => lt_of_lt_of_le (h.pending p hp task ht) hg.next
  · rw [hg.pulls]
    exact fun p hp task ht => lt_of_lt_of_le (h.batch p hp task ht) hg.next
  · rw [hg.pulls]
    by_cases hold : i < s.next
    · rw [hg.old i hold, h.sending i hold]
    · have hzero : flightCount s.pulls i = 0 := by
        apply flightCount_eq_zero
        intro p hp task ht he
        have := h.batch p hp task ht
        omega
      rw [hg.fresh i hi (by omega), hzero]
      rfl

omit [DecidableEq ReqId] [DecidableEq TransferId] in
theorem grows_of_same {s s' : Sender ReqId TransferId} (hnext : s'.next = s.next) (hheap : s'.heap = s.heap)
    (hpulls : s'.pulls = s.pulls) (hsub : s'.reqsNeedSend ⊆ s.reqsNeedSend) : Grows s s' := by
  refine ⟨hnext.ge, hpulls, fun h e he => ?_, fun i _ => by rw [hheap], fun i h₁ h₂ => ?_⟩
  · rw [hnext]
    exact h e (hsub he)
  · omega

omit [DecidableEq ReqId] in
theorem grows_pop (s : Sender ReqId TransferId) (t : TransferId) : Grows s (s.pop t) :=
  grows_of_same rfl rfl rfl List.filter_sublist.subset

omit [DecidableEq ReqId] [DecidableEq TransferId] in
theorem grows_addRecorded (s : Sender ReqId TransferId) (p : ReqId) : Grows s (s.addRecorded p) :=
  grows_of_same rfl rfl rfl (List.Subset.refl _)

omit [DecidableEq TransferId] in
theorem grows_finish (s : Sender ReqId TransferId) (p : ReqId) : Grows s (s.finish p) :=
  grows_of_same rfl rfl rfl (List.Subset.refl _)

omit [DecidableEq ReqId] [DecidableEq TransferId] in
theorem grows_openEntry (s : Sender ReqId TransferId) (t : TransferId) (p : Option ReqId) :
    Grows s (s.openEntry t p) := by
  refine ⟨Nat.le_succ _, rfl, fun h e he => ?_, fun i hi => ?_, fun i hi hs => ?_⟩
  · rcases List.mem_append.mp he with he | he
    · exact Nat.lt_succ_of_lt (h e he)
    · rw [List.mem_singleton] at he
      subst he
      exact Nat.lt_succ_self _
  · simp only [Sender.openEntry]
    rw [Function.update_of_ne (by omega)]
  · have hi' : i = s.next := by
      have : i < s.next + 1 := hi
      omega
    simp [Sender.openEntry, hi']

omit [DecidableEq ReqId] [DecidableEq TransferId] in
theorem grows_setEntry (s : Sender ReqId TransferId) (i : Nat) (m : SendBlockMeta ReqId TransferId)
    (h : m.sending = (s.heap i).sending) : Grows s (s.setEntry i m) := by
  refine ⟨le_rfl, rfl, fun h => h, fun j _ => ?_, fun j h₁ h₂ => absurd h₁ (Nat.not_lt.mpr h₂)⟩
  by_cases hj : j = i
  · subst hj
    rw [Sender.setEntry_heap_self, h]
  · rw [Sender.setEntry_heap_of_ne _ _ hj]

theorem grows_recordSend {w : Worker ReqId TransferId} {now : Nat} {s s' : Sender ReqId TransferId} {p : ReqId}
    {t : TransferId} {blockIds : List (List Int)} (h : s.recordSend w now p t blockIds = some s') : Grows s s' := by
  unfold Sender.recordSend at h
  split at h
  · split at h
    · cases h
      exact ((grows_pop s t).trans (grows_finish _ p)).trans (grows_addRecorded _ p)
    · split at h
      · cases h
      · rename_i i _
        cases h
        exact (grows_setEntry s i _ (by rfl)).trans (grows_addRecorded _ p)
  · split at h
    · cases h
      exact grows_openEntry s t _
    · cases h
      exact Grows.refl s

theorem grows_recordSends (w : Worker ReqId TransferId) (now : Nat) : ∀ (reqs : List (ReqId × TransferId × List (List Int)))
    (s : Sender ReqId TransferId), Grows s (s.recordSends w now reqs).1
  | [], s => Grows.refl s
  | (p, t, blockIds) :: rest, s => by
    unfold Sender.recordSends
    split
    · exact Grows.refl s
    · rename_i s₁ hs
      exact (grows_recordSend hs).trans (grows_recordSends w now rest s₁)

omit [DecidableEq ReqId] in
theorem grows_dropNotProcessed : ∀ (ts : List TransferId) (s : Sender ReqId TransferId), Grows s (s.dropNotProcessed ts)
  | [], s => Grows.refl s
  | t :: rest, s => by
    unfold Sender.dropNotProcessed
    split
    · exact grows_dropNotProcessed rest s
    · split
      · exact grows_pop s t
      · exact (grows_pop s t).trans (grows_dropNotProcessed rest _)

theorem grows_recordSendReqs (w : Worker ReqId TransferId) (now : Nat)
    (reqs : List (ReqId × TransferId × List (List Int))) (ts : List TransferId) (s : Sender ReqId TransferId) :
    Grows s (s.recordSendReqs w now reqs ts) := by
  have hrec := grows_recordSends w now reqs s
  unfold Sender.recordSendReqs
  split
  · rename_i s₁ hs
    rw [hs] at hrec
    exact hrec.trans (grows_dropNotProcessed ts s₁)
  · rename_i s₁ hs
    rw [hs] at hrec
    exact hrec

omit [DecidableEq TransferId] in
theorem grows_fetch (now : Nat) (s : Sender ReqId TransferId) : Grows s (s.fetchFinishedSendingReqs now) :=
  grows_of_same rfl rfl rfl List.filter_sublist.subset

omit [DecidableEq ReqId] in
theorem grows_awaitEntries : ∀ (reqs : List (ReqId × TransferId × List (List Int))) (s : Sender ReqId TransferId),
    Grows s (s.awaitEntries reqs).1 ∧ ((∀ e ∈ s.reqsNeedSend, e.2 < s.next) →
      ∀ task ∈ (s.awaitEntries reqs).2, task.2 < (s.awaitEntries reqs).1.next)
  | [], s => ⟨Grows.refl s, fun _ => nofun⟩
  | (d, t, blocks) :: rest, s => by
    unfold Sender.awaitEntries
    split
    · rename_i i hi
      obtain ⟨hg, hlt⟩ := grows_awaitEntries rest s
      refine ⟨hg, fun he task ht => ?_⟩
      rcases List.mem_cons.mp ht with rfl | ht
      · exact lt_of_lt_of_le (he _ (mem_of_lookup hi)) hg.next
      · exact hlt he task ht
    · obtain ⟨hg, hlt⟩ := grows_awaitEntries rest (s.openEntry t none)
      have hopen := grows_openEntry s t none
      refine ⟨hopen.trans hg, fun he task ht => ?_⟩
      rcases List.mem_cons.mp ht with rfl | ht
      · exact lt_of_lt_of_le (Nat.lt_succ_self s.next) hg.next
      · exact hlt (hopen.entries he) task ht

/-! ## Pulls -/

omit [DecidableEq ReqId] [DecidableEq TransferId] in
theorem Balanced.setPull {s s₁ : Sender ReqId TransferId} {c : Nat} {p p' : Pull ReqId TransferId} (h : Balanced s)
    (hp : s.pulls[c]? = some p) (hnext : s₁.next = s.next) (hpulls : s₁.pulls = s.pulls)
    (hentries : s₁.reqsNeedSend ⊆ s.reqsNeedSend) (hpend : p'.pendingReqs ⊆ p.pendingReqs)
    (hbatch : ∀ task ∈ p'.batch, task.2 < s.next)
    (hsending : ∀ i, (s₁.heap i).sending + (p.batch.map (·.2)).count i =
      (s.heap i).sending + (p'.batch.map (·.2)).count i) : Balanced (s₁.setPull c p') := by
  refine ⟨fun e he => ?_, fun q hq task ht => ?_, fun q hq task ht => ?_, fun i hi => ?_⟩
  · exact lt_of_lt_of_eq (h.entries e (hentries he)) hnext.symm
  · rw [Sender.setPull, hpulls] at hq
    refine lt_of_lt_of_eq ?_ hnext.symm
    rcases List.mem_or_eq_of_mem_set hq with hq | rfl
    · exact h.pending q hq task ht
    · exact h.pending p (List.mem_of_getElem? hp) task (hpend ht)
  · rw [Sender.setPull, hpulls] at hq
    refine lt_of_lt_of_eq ?_ hnext.symm
    rcases List.mem_or_eq_of_mem_set hq with hq | rfl
    · exact h.batch q hq task ht
    · exact hbatch task ht
  · have hset := flightCount_set p' i hp
    have hold := h.sending i (lt_of_lt_of_eq hi hnext)
    have hnew := hsending i
    simp only [Sender.setPull, hpulls]
    omega

/-- The bookkeeping of a batch: every request gives its count back, whether it failed or not. -/
structure Completed (s : Sender ReqId TransferId) (ready : List (ReqId × Nat)) (s' : Sender ReqId TransferId) :
    Prop where
  next : s'.next = s.next
  pulls : s'.pulls = s.pulls
  entries : s'.reqsNeedSend ⊆ s.reqsNeedSend
  sending : ∀ i, (s'.heap i).sending + (ready.map (·.2)).count i = (s.heap i).sending

omit [DecidableEq ReqId] [DecidableEq TransferId] in
theorem completed_setEntry {s : Sender ReqId TransferId} {task : ReqId × Nat} {m : SendBlockMeta ReqId TransferId}
    (hm : m.sending = (s.heap task.2).sending - 1) : Completed s [task] (s.setEntry task.2 m) := by
  refine ⟨rfl, rfl, List.Subset.refl _, fun i => ?_⟩
  by_cases hi : i = task.2
  · subst hi
    rw [Sender.setEntry_heap_self, hm]
    simp
  · rw [Sender.setEntry_heap_of_ne _ _ hi]
    simp [Ne.symm hi]

omit [DecidableEq ReqId] [DecidableEq TransferId] in
theorem Completed.of_same {s s₁ s₂ : Sender ReqId TransferId} {ready : List (ReqId × Nat)} (h : Completed s ready s₁)
    (hnext : s₂.next = s₁.next) (hheap : s₂.heap = s₁.heap) (hpulls : s₂.pulls = s₁.pulls)
    (hsub : s₂.reqsNeedSend ⊆ s₁.reqsNeedSend) : Completed s ready s₂ :=
  ⟨hnext.trans h.next, hpulls.trans h.pulls, fun _ he => h.entries (hsub he), fun i => by rw [hheap]; exact h.sending i⟩

theorem Completed.release {s s₁ : Sender ReqId TransferId} {ready : List (ReqId × Nat)} (h : Completed s ready s₁)
    (t : TransferId) (q : Option ReqId) : Completed s ready (q.elim (s₁.pop t) (s₁.pop t).finish) := by
  cases q with
  | none => exact h.of_same rfl rfl rfl List.filter_sublist.subset
  | some q => exact h.of_same rfl rfl rfl List.filter_sublist.subset

theorem completeReq_completed (errReqs : List ReqId) (s : Sender ReqId TransferId) (task : ReqId × Nat) :
    Completed s [task] (s.completeReq errReqs task) := by
  unfold Sender.completeReq
  dsimp only
  split
  · exact completed_setEntry rfl
  · split
    · exact (completed_setEntry rfl).release _ _
    · exact completed_setEntry rfl

theorem completeReqs_completed (errReqs : List ReqId) : ∀ (ready : List (ReqId × Nat)) (s : Sender ReqId TransferId),
    Completed s ready (s.completeReqs errReqs ready)
  | [], s => ⟨rfl, rfl, List.Subset.refl _, fun i => by simp [Sender.completeReqs]⟩
  | task :: ready, s => by
    have h₁ := completeReq_completed errReqs s task
    have h₂ := completeReqs_completed errReqs ready (s.completeReq errReqs task)
    refine ⟨h₂.next.trans h₁.next, h₂.pulls.trans h₁.pulls, fun _ he => h₁.entries (h₂.entries he), fun i => ?_⟩
    have e₁ := h₁.sending i
    have e₂ := h₂.sending i
    simp only [List.map_cons, List.map_nil, List.count_cons, List.count_nil] at e₁ ⊢
    have hfold : s.completeReqs errReqs (task :: ready) = (s.completeReq errReqs task).completeReqs errReqs ready := rfl
    rw [hfold]
    omega

omit [DecidableEq ReqId] [DecidableEq TransferId] in
theorem Pull.respond_pending (p : Pull ReqId TransferId) (r : XferResponse ReqId) (sendError : Option String) :
    (p.respond r sendError).pendingReqs = p.pendingReqs := by
  cases sendError <;> rfl

/-- A batch that reaches its end, `s` being the state it was marked in. -/
theorem Balanced.finishBatch {s s₁ : Sender ReqId TransferId} {c : Nat} {p p₁ : Pull ReqId TransferId}
    {b : Batch ReqId} (h : Balanced s) (hp : s.pulls[c]? = some p) (hnext : s₁.next = s.next)
    (hpulls : s₁.pulls = s.pulls) (hentries : s₁.reqsNeedSend ⊆ s.reqsNeedSend)
    (hpend : p₁.pendingReqs ⊆ p.pendingReqs)
    (hsending : ∀ i, (s₁.heap i).sending + (p.batch.map (·.2)).count i =
      (s.heap i).sending + (b.readyReqs.map (·.2)).count i) (retValue : Int) (sendError : Option String) :
    Balanced (s₁.finishBatch c p₁ b retValue sendError) := by
  have hdone := completeReqs_completed (b.finalErrReqs retValue) b.readyReqs s₁
  have hidle := Pull.idle_respond p₁ (b.response retValue) sendError
  refine h.setPull hp (hdone.next.trans hnext) (hdone.pulls.trans hpulls) (fun e he => hentries (hdone.entries he))
    ?_ ?_ fun i => ?_
  · rw [Pull.respond_pending]
    exact hpend
  · rw [hidle.batch_eq]
    nofun
  · have h₁ := hdone.sending i
    have h₂ := hsending i
    rw [hidle.batch_eq, List.map_nil, List.count_nil]
    omega

omit [DecidableEq ReqId] in
theorem Balanced.startPull {s : Sender ReqId TransferId} (h : Balanced s) (w : Worker ReqId TransferId)
    (m : XferMetadata ReqId TransferId) : Balanced (s.startPull w m) := by
  have happend : ∀ {s : Sender ReqId TransferId} {p : Pull ReqId TransferId}, Balanced s → p.batch = [] →
      (∀ task ∈ p.pendingReqs, task.2 < s.next) → Balanced { s with pulls := s.pulls ++ [p] } := by
    intro s p h hb hpend
    refine ⟨h.entries, fun q hq task ht => ?_, fun q hq task ht => ?_, fun i hi => ?_⟩
    · rcases List.mem_append.mp hq with hq | hq
      · exact h.pending q hq task ht
      · rw [List.mem_singleton] at hq
        exact hpend task (hq ▸ ht)
    · rcases List.mem_append.mp hq with hq | hq
      · exact h.batch q hq task ht
      · rw [List.mem_singleton] at hq
        rw [hq, hb] at ht
        cases ht
    · have := h.sending i hi
      simp only [flightCount, List.map_append, List.map_singleton, List.sum_append, List.sum_singleton, hb,
        List.map_nil, List.count_nil, Nat.add_zero] at this ⊢
      exact this
  unfold Sender.startPull
  split
  · exact happend h rfl (by intro task ht; cases ht)
  · obtain ⟨hg, hlt⟩ := grows_awaitEntries m.reqBlocks s
    refine happend (h.grows hg) ?_ (hlt h.entries)
    dsimp only [Pull.batch]
    split
    · rename_i hs
      split at hs <;> cases hs
    · rfl

/-- The requests that a return of `asyncio.wait` marks as sending. -/
def marked (s : Sender ReqId TransferId) (p : Pull ReqId TransferId) (done : List (ReqId × Nat)) :
    Sender ReqId TransferId × List (ReqId × Nat) × List ReqId :=
  s.markReady p.xferMeta.numTargetRanks done

theorem Balanced.collect {s : Sender ReqId TransferId} {c : Nat} {p : Pull ReqId TransferId}
    {w : Worker ReqId TransferId} {done : List (ReqId × Nat)} (h : Balanced s) (hp : s.pulls[c]? = some p)
    (hw : p.phase = .waiting) (hdone : ∀ task ∈ done, task ∈ p.pendingReqs)
    (hbuild : (buildTransferParams w p.xferMeta (marked s p done).1.heap (marked s p done).2.1).isOk = true)
    (sendError : Option String) : Balanced (s.collect w c p done sendError) := by
  have hmark := markReady_marked p.xferMeta.numTargetRanks done s
  have hbatch : p.batch = [] := by
    unfold Pull.batch
    rw [hw]
  obtain ⟨ps, hps⟩ : ∃ ps, buildTransferParams w p.xferMeta (marked s p done).1.heap (marked s p done).2.1 = .ok ps := by
    cases hb : buildTransferParams w p.xferMeta (marked s p done).1.heap (marked s p done).2.1 with
    | ok ps => exact ⟨ps, rfl⟩
    | error msg =>
      rw [hb] at hbuild
      cases hbuild
  unfold marked at hps
  unfold Sender.collect
  dsimp only
  rw [hps]
  dsimp only
  split
  · refine h.finishBatch hp hmark.same.next hmark.pulls ?_ ?_ (fun i => ?_) 0 sendError
    · rw [hmark.dict]
      exact List.Subset.refl _
    · exact List.filter_sublist.subset
    · rw [hmark.sending, hbatch]
      simp
  · refine h.setPull hp hmark.same.next hmark.pulls ?_ ?_ ?_ fun i => ?_
    · rw [hmark.dict]
      exact List.Subset.refl _
    · exact List.filter_sublist.subset
    · intro task ht
      exact h.pending p (List.mem_of_getElem? hp) task (hdone task (hmark.mem task ht).1)
    · rw [hbatch, hmark.sending, List.map_nil, List.count_nil]
      exact Int.add_zero _

/-! ## Runs -/

/-- Neither the parameters of a batch nor its transfer raise. -/
def Returns (w : Worker ReqId TransferId) (s : Sender ReqId TransferId) : Event ReqId TransferId → Prop
  | .collect c done _ => ∀ p ∈ s.pulls[c]?,
    (buildTransferParams w p.xferMeta (marked s p done).1.heap (marked s p done).2.1).isOk = true
  | .transferRaised .. => False
  | _ => True

theorem balanced_step (w : Worker ReqId TransferId) (s : Sender ReqId TransferId) (e : Event ReqId TransferId)
    (s' : Sender ReqId TransferId) (hb : Balanced s) (hret : Returns w s e) (h : step w s e = some s') :
    Balanced s' := by
  cases e with
  | record now reqsToSend reqsNotProcessed =>
    cases h
    exact hb.grows (grows_recordSendReqs w now reqsToSend reqsNotProcessed s)
  | fetch now =>
    cases h
    exact hb.grows (grows_fetch now s)
  | pull m =>
    cases h
    exact hb.startPull w m
  | collect c done sendError =>
    dsimp only [step] at h
    split at h
    · rename_i p hp
      split at h
      · rename_i hw
        split at h
        · rename_i hg
          cases h
          exact hb.collect hp hw (fun task ht => (hg.2.2 task ht).1) (hret p hp) sendError
        · cases h
      · cases h
    · cases h
  | timeout c sendError =>
    dsimp only [step] at h
    split at h
    · rename_i p hp
      split at h
      · rename_i hw
        cases h
        have hbatch : p.batch = [] := by
          unfold Pull.batch
          rw [hw]
        refine hb.setPull hp rfl rfl (List.Subset.refl _) ?_ ?_ fun i => ?_
        · rw [Pull.respond_pending]
          exact List.Subset.refl _
        · rw [(Pull.idle_respond _ _ _).batch_eq]
          nofun
        · rw [(Pull.idle_respond _ _ _).batch_eq, hbatch]
      · cases h
    · cases h
  | transferred c retValue sendError =>
    dsimp only [step] at h
    split at h
    · rename_i p hp
      split at h
      · rename_i b hs
        cases h
        have hbatch : p.batch = b.readyReqs := by
          unfold Pull.batch
          rw [hs]
        exact hb.finishBatch hp rfl rfl (List.Subset.refl _) (List.Subset.refl _) (fun i => by rw [hbatch]) retValue
          sendError
      · cases h
    · cases h
  | transferRaised c msg => exact hret.elim

omit [DecidableEq ReqId] [DecidableEq TransferId] in
theorem balanced_initial (heap : Nat → SendBlockMeta ReqId TransferId) : Balanced (Sender.initial heap) :=
  ⟨nofun, nofun, nofun, fun _ h => absurd h (Nat.not_lt_zero _)⟩

/-- As long as nothing raises between the mark and the bookkeeping of a batch, an ended pull has no part in any
counter, and without a batch in flight every request past its deadline expires. -/
theorem sending_restored (w : Worker ReqId TransferId) (heap : Nat → SendBlockMeta ReqId TransferId)
    (es : List (Event ReqId TransferId)) (s : Sender ReqId TransferId)
    (hrun : run w (.initial heap) es = some s) (hret : Along (step w) (Returns w) (.initial heap) es) :
    (∀ i < s.next, (s.heap i).sending = flightCount s.pulls i) ∧
      (∀ p ∈ s.pulls, p.phase = .ended → p.batch = []) ∧
      ((∀ p ∈ s.pulls, p.Idle) → ∀ e ∈ s.reqsNeedSend, ∀ q deadline now, (s.heap e.2).pReqId = some q →
        (s.heap e.2).expireTime = some deadline → deadline < now →
          s.expired now e.2 = true ∧ q ∈ (s.fetchFinishedSendingReqs now).reported ∧
            e ∉ (s.fetchFinishedSendingReqs now).reqsNeedSend) := by
  have hb : Balanced s := run_invariant (balanced_step w) (balanced_initial heap) hret hrun
  refine ⟨hb.sending, fun p _ he => ?_, fun hidle e he q deadline now hq hd hlt => ?_⟩
  · unfold Pull.batch
    rw [he]
  · have hzero : (s.heap e.2).sending = 0 := by
      rw [hb.sending e.2 (hb.entries e he), flightCount_eq_zero]
      · rfl
      · intro p hp task ht
        rw [(hidle p hp).batch_eq] at ht
        cases ht
    have hexp : s.expired now e.2 = true := by
      simp [Sender.expired, hq, hd, hlt, hzero]
    refine ⟨hexp, ?_, ?_⟩
    · simp only [Sender.fetchFinishedSendingReqs, List.mem_append, List.mem_dedup, List.mem_filterMap, List.mem_filter]
      exact .inr (.inr ⟨e, ⟨he, hexp⟩, hq⟩)
    · simp [Sender.fetchFinishedSendingReqs, hexp]

instance (w : Worker ReqId TransferId) (s : Sender ReqId TransferId) :
    (e : Event ReqId TransferId) → Decidable (Returns w s e)
  | .collect c _ _ => inferInstanceAs (Decidable (∀ p ∈ s.pulls[c]?, _ = true))
  | .transferRaised .. => inferInstanceAs (Decidable False)
  | .record .. | .fetch _ | .pull _ | .timeout .. | .transferred .. => inferInstanceAs (Decidable True)

end

/-- Request 1 is pulled and its transfer is under way. -/
def sendingRun : List (Event Nat Nat) :=
  [.record 0 [(1, 7, [])] [], .record 0 [(1, 7, [[3]])] [], .pull pullSeven, .collect 0 [(10, 0)] none]

/-- The transfer fails and so does the response; the request still expires. -/
theorem sending_restored_failed_send :
    ∃ s, run oneDescriptor (.initial noEntry) (sendingRun ++ [.transferred 0 (-1) (some "closed")]) = some s ∧
      (∀ i < s.next, (s.heap i).sending = flightCount s.pulls i) ∧
      (∀ p ∈ s.pulls, p.phase = .ended → p.batch = []) ∧
      ((∀ p ∈ s.pulls, p.Idle) → ∀ e ∈ s.reqsNeedSend, ∀ q deadline now, (s.heap e.2).pReqId = some q →
        (s.heap e.2).expireTime = some deadline → deadline < now →
          s.expired now e.2 = true ∧ q ∈ (s.fetchFinishedSendingReqs now).reported ∧
            e ∉ (s.fetchFinishedSendingReqs now).reqsNeedSend) :=
  ⟨_, rfl, sending_restored oneDescriptor noEntry (sendingRun ++ [.transferred 0 (-1) (some "closed")]) _ rfl
    (by decide +kernel)⟩

/-- The engine call raises: the pull has ended, its count stays, and the request outlives every deadline. -/
theorem sending_leaks_raised_transfer :
    ∃ s, run oneDescriptor (.initial noEntry) (sendingRun ++ [.transferRaised 0 "engine"]) = some s ∧
      (∀ p ∈ s.pulls, p.phase = .ended) ∧ s.reqsNeedSend = [(7, 0)] ∧ (s.heap 0).pReqId = some 1 ∧
      (s.heap 0).expireTime = some 480 ∧ (s.heap 0).sending = 1 ∧
      ∀ now, s.expired now 0 = false ∧ (s.fetchFinishedSendingReqs now).reported = [] := by
  obtain ⟨s, hs, hended, hstored, hid, hexp, hsend, hfin, hrep⟩ : ∃ s, run oneDescriptor (.initial noEntry)
        (sendingRun ++ [.transferRaised 0 "engine"]) = some s ∧ (∀ p ∈ s.pulls, p.phase = .ended) ∧
      s.reqsNeedSend = [(7, 0)] ∧ (s.heap 0).pReqId = some 1 ∧ (s.heap 0).expireTime = some 480 ∧
      (s.heap 0).sending = 1 ∧ s.finishedSendingReqs = [] ∧ s.reported = [] := by
    refine ⟨_, rfl, ?_, rfl, rfl, rfl, rfl, rfl, rfl⟩
    intro p hp
    rw [List.mem_singleton.mp hp]
    rfl
  have hkept : ∀ now, s.expired now 0 = false := fun now => by simp [Sender.expired, hsend]
  refine ⟨s, hs, hended, hstored, hid, hexp, hsend, fun now => ⟨hkept now, ?_⟩⟩
  simp [Sender.fetchFinishedSendingReqs, hstored, hkept now, hfin, hrep]

end VllmHcu.Mooncake
