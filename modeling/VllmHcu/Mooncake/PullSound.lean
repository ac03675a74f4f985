import Mathlib.Data.List.Perm.Basic
import VllmHcu.Lib.Result
import VllmHcu.Mooncake.Sender

/-!
# Outcomes of a pull

Every request of a pull is waited for, in a batch, forgotten or answered, exactly
one of these at any time. When no request is forgotten, the responses of a pull
that has ended answer each of its requests exactly once.
-/

namespace VllmHcu.Mooncake

section
variable {ReqId TransferId : Type}

def XferMetadata.reqIds (m : XferMetadata ReqId TransferId) : List ReqId := m.reqBlocks.map (·.1)

/-- The ids that a sequence of responses names. -/
def answered (rs : List (XferResponse ReqId)) : List ReqId := rs.flatMap fun r => r.okReqs ++ r.errReqs

/-- The outcomes that the consumer takes from the responses: an error fails every id not named so far. -/
def outcomes [DecidableEq ReqId] (m : XferMetadata ReqId TransferId) (rs : List (XferResponse ReqId)) : List ReqId :=
  answered rs ++ if rs.any (·.status = .ERROR) then m.reqIds.filter fun d => d ∉ answered rs else []

def Continuing (rs : List (XferResponse ReqId)) : Prop := ∀ r ∈ rs, r.status = .CONTINUE

/-- `CONTINUE` responses closed by one `FINISH` or one `ERROR`. -/
def Closed (rs : List (XferResponse ReqId)) : Prop :=
  ∃ before last, rs = before ++ [last] ∧ Continuing before ∧ last.status ≠ .CONTINUE

theorem answered_append (rs rs' : List (XferResponse ReqId)) : answered (rs ++ rs') = answered rs ++ answered rs' :=
  List.flatMap_append

theorem answered_singleton (r : XferResponse ReqId) : answered [r] = r.okReqs ++ r.errReqs := by
  rw [answered, List.flatMap_singleton]

/-! ## The invariant of a pull -/

/-- Where the requests of a pull are. -/
inductive PullInv (p : Pull ReqId TransferId) : Prop
  | waiting : p.phase = .waiting → p.pendingReqs ≠ [] → Continuing p.responses →
    (answered p.responses ++ (p.forgotten ++ p.pendingReqs.map (·.1))).Perm p.xferMeta.reqIds → PullInv p
  | sending (b : Batch ReqId) : p.phase = .sending b → Continuing p.responses →
    b.errReqs.Sublist (b.readyReqs.map (·.1)) →
    b.status = (if p.pendingReqs = [] then .FINISH else .CONTINUE) →
    (answered p.responses ++ (p.forgotten ++ (b.readyReqs.map (·.1) ++ p.pendingReqs.map (·.1)))).Perm
      p.xferMeta.reqIds → PullInv p
  | finished (before : List (XferResponse ReqId)) (last : XferResponse ReqId) : p.phase = .ended →
    p.responses = before ++ [last] → Continuing before → last.status = .FINISH →
    (answered p.responses ++ p.forgotten).Perm p.xferMeta.reqIds → PullInv p
  | failed (before : List (XferResponse ReqId)) (last : XferResponse ReqId) (rest : List ReqId) : p.phase = .ended →
    p.responses = before ++ [last] → Continuing before → last.status = .ERROR →
    (answered p.responses ++ rest).Perm p.xferMeta.reqIds → PullInv p
  | empty : p.phase = .ended → p.xferMeta.reqIds = [] → p.responses = [] → p.forgotten = [] → PullInv p

theorem continuing_append {rs : List (XferResponse ReqId)} {r : XferResponse ReqId} (h : Continuing rs)
    (hr : r.status = .CONTINUE) : Continuing (rs ++ [r]) := by
  intro r' hr'
  rcases List.mem_append.mp hr' with hr' | hr'
  · exact h r' hr'
  · rw [List.mem_singleton.mp hr', hr]

theorem PullInv.fail {p : Pull ReqId TransferId} {rest : List ReqId} (hc : Continuing p.responses)
    (hp : (answered p.responses ++ rest).Perm p.xferMeta.reqIds) (msg : String) : PullInv (p.fail msg) := by
  refine .failed p.responses { status := .ERROR, errMsg := some msg } rest rfl rfl hc rfl ?_
  have he : answered (p.fail msg).responses = answered p.responses := by
    rw [Pull.fail, answered_append, answered_singleton]
    exact List.append_nil _
  rw [he]
  exact hp

theorem PullInv.respond {p : Pull ReqId TransferId} {r : XferResponse ReqId} {ids : List ReqId}
    (hc : Continuing p.responses)
    (hr : r.status = if p.pendingReqs = [] then .FINISH else .CONTINUE)
    (hids : (r.okReqs ++ r.errReqs).Perm ids)
    (hp : (answered p.responses ++ (p.forgotten ++ (ids ++ p.pendingReqs.map (·.1)))).Perm p.xferMeta.reqIds)
    (sendError : Option String) : PullInv (p.respond r sendError) := by
  cases sendError with
  | some msg => exact PullInv.fail hc hp msg
  | none =>
    have hans : answered (p.respond r none).responses = answered p.responses ++ (r.okReqs ++ r.errReqs) := by
      rw [Pull.respond, answered_append, answered_singleton]
    by_cases hpend : p.pendingReqs = []
    · rw [if_pos hpend] at hr
      refine .finished p.responses r ?_ rfl hc hr ?_
      · rw [Pull.respond]
        exact if_neg (by rw [hr]; decide)
      · rw [hans]
        refine List.Perm.trans ?_ hp
        rw [hpend, List.map_nil, List.append_nil, List.append_assoc]
        exact ((List.perm_append_comm).trans (hids.append_left _)).append_left _
    · rw [if_neg hpend] at hr
      refine .waiting ?_ hpend (continuing_append hc hr) ?_
      · rw [Pull.respond]
        exact if_pos hr
      · rw [hans]
        refine List.Perm.trans ?_ hp
        rw [List.append_assoc]
        refine List.Perm.append_left _ ?_
        rw [← List.append_assoc, ← List.append_assoc]
        exact ((List.perm_append_comm).trans (hids.append_left _)).append_right _

/-! ## The steps of a pull -/

section
variable [DecidableEq TransferId]

theorem awaitEntries_ids : ∀ (reqs : List (ReqId × TransferId × List (List Int))) (s : Sender ReqId TransferId),
    (s.awaitEntries reqs).2.map (·.1) = reqs.map (·.1)
  | [], _ => rfl
  | (d, t, _) :: rest, s => by
    unfold Sender.awaitEntries
    split
    · exact congrArg (d :: ·) (awaitEntries_ids rest s)
    · exact congrArg (d :: ·) (awaitEntries_ids rest _)

theorem awaitEntries_pulls : ∀ (reqs : List (ReqId × TransferId × List (List Int))) (s : Sender ReqId TransferId),
    (s.awaitEntries reqs).1.pulls = s.pulls
  | [], _ => rfl
  | (d, t, _) :: rest, s => by
    unfold Sender.awaitEntries
    split
    · exact awaitEntries_pulls rest s
    · exact awaitEntries_pulls rest _

theorem markReady_ids (n : Nat) : ∀ (done : List (ReqId × Nat)) (s : Sender ReqId TransferId),
    ((s.markReady n done).2.2 ++ (s.markReady n done).2.1.map (·.1)).Perm (done.map (·.1))
  | [], _ => .refl _
  | (d, i) :: rest, s => by
    unfold Sender.markReady
    split
    · exact (List.perm_middle).trans ((markReady_ids n rest _).cons d)
    · exact (markReady_ids n rest s).cons d

theorem markReady_pulls (n : Nat) : ∀ (done : List (ReqId × Nat)) (s : Sender ReqId TransferId),
    (s.markReady n done).1.pulls = s.pulls
  | [], _ => rfl
  | (d, i) :: rest, s => by
    unfold Sender.markReady
    split
    · exact markReady_pulls n rest _
    · exact markReady_pulls n rest s

omit [DecidableEq TransferId] in
theorem setEntry_transferId (s : Sender ReqId TransferId) (i j : Nat) (m : SendBlockMeta ReqId TransferId)
    (hm : m.transferId = (s.heap i).transferId) : ((s.setEntry i m).heap j).transferId = (s.heap j).transferId := by
  by_cases h : j = i
  · subst h
    rw [Sender.setEntry_heap_self, hm]
  · rw [Sender.setEntry_heap_of_ne _ _ h]

/-- Nothing is forgotten while the transfers of the tasks are stored. -/
theorem markReady_forgotten (n : Nat) : ∀ (done : List (ReqId × Nat)) (s : Sender ReqId TransferId),
    (∀ task ∈ done, (s.stored (s.heap task.2).transferId).isSome = true) → (s.markReady n done).2.2 = []
  | [], _, _ => rfl
  | (d, i) :: rest, s, h => by
    unfold Sender.markReady
    rw [if_pos (h (d, i) (List.mem_cons_self ..))]
    refine markReady_forgotten n rest _ fun task ht => ?_
    rw [setEntry_transferId _ _ _ _ (by dsimp only; split <;> rfl)]
    exact h task (List.mem_cons_of_mem _ ht)

end

variable [DecidableEq ReqId]

theorem buildTransferParams_errReqs {w : Worker ReqId TransferId} {m : XferMetadata ReqId TransferId}
    {heap : Nat → SendBlockMeta ReqId TransferId} : ∀ {ready : List (ReqId × Nat)} {ps : TransferParams ReqId},
    buildTransferParams w m heap ready = .ok ps → ps.errReqs.Sublist (ready.map (·.1))
  | [], ps, h => by
    cases h
    exact List.Sublist.refl _
  | (d, i) :: rest, ps, h => by
    unfold buildTransferParams at h
    dsimp only at h
    split at h
    · cases h
    · exact (buildTransferParams_errReqs h).cons d
    · obtain ⟨ps', h', he⟩ := bind_eq_ok.mp h
      cases he
      exact (buildTransferParams_errReqs h').cons_cons d
    · obtain ⟨ps', h', he⟩ := bind_eq_ok.mp h
      cases he
      exact (buildTransferParams_errReqs h').cons d

theorem batch_ids_perm {ids errs : List ReqId} (hn : ids.Nodup) (h : errs.Sublist ids) :
    (ids.filter (fun d => d ∉ errs) ++ errs).Perm ids := by
  have he : errs.Perm (ids.filter fun d => d ∈ errs) := by
    refine (List.perm_ext_iff_of_nodup (hn.sublist h) (hn.filter _)).mpr fun d => ?_
    rw [List.mem_filter, decide_eq_true_eq]
    exact ⟨fun hd => ⟨h.subset hd, hd⟩, fun hd => hd.2⟩
  refine (he.append_left _).trans (List.perm_append_comm.trans ?_)
  have := List.filter_append_perm (fun d => decide (d ∈ errs)) ids
  simpa [decide_not] using this

variable [DecidableEq TransferId]

theorem completeReq_pulls (errs : List ReqId) (s : Sender ReqId TransferId) (task : ReqId × Nat) :
    (s.completeReq errs task).pulls = s.pulls := by
  unfold Sender.completeReq
  dsimp only
  split
  · rfl
  · split
    · cases (s.heap task.2).pReqId <;> rfl
    · rfl

theorem completeReqs_pulls (errs : List ReqId) : ∀ (ready : List (ReqId × Nat)) (s : Sender ReqId TransferId),
    (s.completeReqs errs ready).pulls = s.pulls
  | [], _ => rfl
  | task :: rest, s => (completeReqs_pulls errs rest _).trans (completeReq_pulls errs s task)

omit [DecidableEq TransferId] in
theorem response_ids {b : Batch ReqId} (retValue : Int) (hs : b.errReqs.Sublist (b.readyReqs.map (·.1)))
    (hn : (b.readyReqs.map (·.1)).Nodup) :
    ((b.response retValue).okReqs ++ (b.response retValue).errReqs).Perm (b.readyReqs.map (·.1)) := by
  have hperm : (b.okReqs ++ b.errReqs).Perm (b.readyReqs.map (·.1)) := batch_ids_perm hn hs
  by_cases hf : retValue = 0
  · simpa [Batch.response, Batch.finalErrReqs, hf] using hperm
  · simpa [Batch.response, Batch.finalErrReqs, hf] using List.perm_append_comm.trans hperm

theorem finishBatch_pulls (s : Sender ReqId TransferId) (c : Nat) (p : Pull ReqId TransferId) (b : Batch ReqId)
    (retValue : Int) (sendError : Option String) :
    (s.finishBatch c p b retValue sendError).pulls = s.pulls.set c (p.respond (b.response retValue) sendError) := by
  rw [Sender.finishBatch, Sender.setPull, completeReqs_pulls]

theorem pending_split {pending done : List (ReqId × Nat)} (hp : pending.Nodup) (hd : done.Nodup)
    (h : ∀ task ∈ done, task ∈ pending) : (done ++ pending.filter fun task => task ∉ done).Perm pending := by
  have he : done.Perm (pending.filter fun task => task ∈ done) := by
    refine (List.perm_ext_iff_of_nodup hd (hp.filter _)).mpr fun task => ?_
    rw [List.mem_filter, decide_eq_true_eq]
    exact ⟨fun ht => ⟨h task ht, ht⟩, fun ht => ht.2⟩
  refine (he.append_right _).trans ?_
  have := List.filter_append_perm (fun task => decide (task ∈ done)) pending
  simpa [decide_not] using this

omit [DecidableEq ReqId] [DecidableEq TransferId] in
theorem PullInv.of_waiting {p : Pull ReqId TransferId} (h : PullInv p) (hw : p.phase = .waiting) :
    p.pendingReqs ≠ [] ∧ Continuing p.responses ∧
      (answered p.responses ++ (p.forgotten ++ p.pendingReqs.map (·.1))).Perm p.xferMeta.reqIds := by
  cases h with
  | waiting _ hne hc hp => exact ⟨hne, hc, hp⟩
  | sending b hb => rw [hw] at hb; cases hb
  | finished _ _ he => rw [hw] at he; cases he
  | failed _ _ _ he => rw [hw] at he; cases he
  | empty he => rw [hw] at he; cases he

omit [DecidableEq ReqId] [DecidableEq TransferId] in
theorem PullInv.of_sending {p : Pull ReqId TransferId} {b : Batch ReqId} (h : PullInv p) (hs : p.phase = .sending b) :
    Continuing p.responses ∧ b.errReqs.Sublist (b.readyReqs.map (·.1)) ∧
      b.status = (if p.pendingReqs = [] then .FINISH else .CONTINUE) ∧
      (answered p.responses ++ (p.forgotten ++ (b.readyReqs.map (·.1) ++ p.pendingReqs.map (·.1)))).Perm
        p.xferMeta.reqIds := by
  cases h with
  | waiting hw => rw [hs] at hw; cases hw
  | sending b' hb hc herr hst hp =>
    rw [hs] at hb
    cases hb
    exact ⟨hc, herr, hst, hp⟩
  | finished _ _ he => rw [hs] at he; cases he
  | failed _ _ _ he => rw [hs] at he; cases he
  | empty he => rw [hs] at he; cases he

omit [DecidableEq ReqId] [DecidableEq TransferId] in
theorem nodup_of_perm_reqIds {m : XferMetadata ReqId TransferId} {a b c : List ReqId}
    (h : (a ++ (b ++ c)).Perm m.reqIds) : c.Nodup :=
  ((h.nodup_iff.mpr m.nodup_reqs).sublist (List.sublist_append_right _ _)).sublist (List.sublist_append_right _ _)

theorem collect_pull (w : Worker ReqId TransferId) (s : Sender ReqId TransferId) (c : Nat) (p : Pull ReqId TransferId)
    (done : List (ReqId × Nat)) (sendError : Option String) :
    ∃ p', (s.collect w c p done sendError).pulls = s.pulls.set c p' ∧ p'.xferMeta = p.xferMeta ∧
      p'.forgotten = p.forgotten ++ (s.markReady p.xferMeta.numTargetRanks done).2.2 ∧
      (PullInv p → p.phase = .waiting → done.Nodup → (∀ task ∈ done, task ∈ p.pendingReqs) → PullInv p') := by
  have hperm : PullInv p → p.phase = .waiting → done.Nodup → (∀ task ∈ done, task ∈ p.pendingReqs) →
      Continuing p.responses ∧ (answered p.responses ++ ((p.forgotten ++
        (s.markReady p.xferMeta.numTargetRanks done).2.2) ++
          ((s.markReady p.xferMeta.numTargetRanks done).2.1.map (·.1) ++
            (p.pendingReqs.filter fun task => task ∉ done).map (·.1)))).Perm p.xferMeta.reqIds := by
    intro hinv hw hd hsub
    obtain ⟨_, hc, hp⟩ := hinv.of_waiting hw
    refine ⟨hc, List.Perm.trans ?_ hp⟩
    have hpn : p.pendingReqs.Nodup := List.Nodup.of_map _ (nodup_of_perm_reqIds hp)
    have hids := (markReady_ids p.xferMeta.numTargetRanks done s).append_right
      ((p.pendingReqs.filter fun task => task ∉ done).map (·.1))
    rw [← List.map_append] at hids
    refine List.Perm.append_left _ ?_
    rw [List.append_assoc, ← List.append_assoc (Sender.markReady _ _ _).2.2]
    exact (hids.trans ((pending_split hpn hd hsub).map _)).append_left _
  let p₁ : Pull ReqId TransferId := { p with
    pendingReqs := p.pendingReqs.filter fun task => task ∉ done
    forgotten := p.forgotten ++ (s.markReady p.xferMeta.numTargetRanks done).2.2 }
  have hpulls : ∀ p', ((s.markReady p.xferMeta.numTargetRanks done).1.setPull c p').pulls = s.pulls.set c p' := by
    intro p'
    exact congrArg (List.set · c p') (markReady_pulls _ done s)
  unfold Sender.collect
  dsimp only
  split
  · rename_i msg hbuild
    refine ⟨p₁.fail msg, hpulls _, rfl, rfl, fun hinv hw hd hsub => ?_⟩
    obtain ⟨hc, hp⟩ := hperm hinv hw hd hsub
    exact PullInv.fail (p := p₁) hc hp msg
  · rename_i ps hbuild
    split
    · refine ⟨p₁.respond _ sendError, (finishBatch_pulls _ _ _ _ _ _).trans (hpulls _), ?_, ?_,
        fun hinv hw hd hsub => ?_⟩
      · cases sendError <;> rfl
      · cases sendError <;> rfl
      · obtain ⟨hc, hp⟩ := hperm hinv hw hd hsub
        have hn := nodup_of_perm_reqIds hp
        exact PullInv.respond (p := p₁) hc rfl (response_ids 0 (buildTransferParams_errReqs hbuild)
          (hn.sublist (List.sublist_append_left _ _))) hp sendError
    · refine ⟨{ p₁ with phase := .sending _ }, hpulls _, rfl, rfl, fun hinv hw hd hsub => ?_⟩
      obtain ⟨hc, hp⟩ := hperm hinv hw hd hsub
      exact .sending _ rfl hc (buildTransferParams_errReqs hbuild) rfl hp

/-! ## Steps and runs -/

theorem recordSends_pulls (w : Worker ReqId TransferId) (now : Nat) :
    ∀ (reqs : List (ReqId × TransferId × List (List Int))) (s : Sender ReqId TransferId),
    (s.recordSends w now reqs).1.pulls = s.pulls
  | [], _ => rfl
  | (d, t, blockIds) :: rest, s => by
    unfold Sender.recordSends
    split
    · rfl
    · rename_i s' h
      rw [recordSends_pulls w now rest]
      unfold Sender.recordSend at h
      split at h
      · split at h
        · cases h
          rfl
        · split at h
          · cases h
          · cases h
            rfl
      · split at h
        · cases h
          rfl
        · cases h
          rfl

omit [DecidableEq ReqId] in
theorem dropNotProcessed_pulls : ∀ (ts : List TransferId) (s : Sender ReqId TransferId),
    (s.dropNotProcessed ts).pulls = s.pulls
  | [], _ => rfl
  | t :: rest, s => by
    unfold Sender.dropNotProcessed
    split
    · exact dropNotProcessed_pulls rest s
    · split
      · rfl
      · exact dropNotProcessed_pulls rest _

/-- What an event does to the pulls. -/
inductive PullStep (s : Sender ReqId TransferId) :
    Event ReqId TransferId → List (Pull ReqId TransferId) → Prop
  | same (e : Event ReqId TransferId) : PullStep s e s.pulls
  | new {m : XferMetadata ReqId TransferId} (p : Pull ReqId TransferId) : p.xferMeta = m → p.forgotten = [] →
    PullInv p → PullStep s (.pull m) (s.pulls ++ [p])
  | collected {c : Nat} {p p' : Pull ReqId TransferId} {done : List (ReqId × Nat)} {sendError : Option String} :
    s.pulls[c]? = some p → p'.forgotten = p.forgotten ++ (s.markReady p.xferMeta.numTargetRanks done).2.2 →
    (PullInv p → PullInv p') → PullStep s (.collect c done sendError) (s.pulls.set c p')
  | moved {e : Event ReqId TransferId} {c : Nat} {p p' : Pull ReqId TransferId} : s.pulls[c]? = some p →
    p'.forgotten = p.forgotten → (PullInv p → PullInv p') → PullStep s e (s.pulls.set c p')

theorem step_pulls {w : Worker ReqId TransferId} {s s' : Sender ReqId TransferId} {e : Event ReqId TransferId}
    (h : step w s e = some s') : PullStep s e s'.pulls := by
  cases e with
  | record now reqsToSend reqsNotProcessed =>
    cases h
    have hp : (s.recordSendReqs w now reqsToSend reqsNotProcessed).pulls = s.pulls := by
      unfold Sender.recordSendReqs
      have hrec := recordSends_pulls w now reqsToSend s
      split
      · rename_i s₁ hs
        rw [hs] at hrec
        rw [dropNotProcessed_pulls, hrec]
      · rename_i s₁ hs
        rw [hs] at hrec
        exact hrec
    rw [hp]
    exact .same _
  | fetch now =>
    cases h
    exact .same _
  | pull m =>
    cases h
    unfold Sender.startPull
    split
    · rename_i msg _
      refine .new _ rfl rfl (.failed [] { status := .ERROR, errMsg := some msg } m.reqIds rfl rfl nofun rfl ?_)
      exact .refl _
    · have hids : (s.awaitEntries m.reqBlocks).2.map (·.1) = m.reqIds := awaitEntries_ids m.reqBlocks s
      dsimp only
      rw [awaitEntries_pulls]
      refine .new _ rfl rfl ?_
      by_cases hnil : (s.awaitEntries m.reqBlocks).2 = []
      · exact .empty (if_pos hnil) (by rw [← hids, hnil]; rfl) rfl rfl
      · refine .waiting (if_neg hnil) hnil nofun ?_
        exact List.Perm.of_eq hids
  | collect c done sendError =>
    dsimp only [step] at h
    split at h
    · rename_i p hp
      split at h
      · rename_i hw
        split at h
        · rename_i hg
          cases h
          obtain ⟨p', hset, _, hforgot, hinv⟩ := collect_pull w s c p done sendError
          rw [hset]
          exact .collected hp hforgot fun hi => hinv hi hw hg.2.1 fun task ht => (hg.2.2 task ht).1
        · cases h
      · cases h
    · cases h
  | timeout c sendError =>
    dsimp only [step] at h
    split at h
    · rename_i p hp
      split at h
      · rename_i hw
        cases h
        refine .moved hp ?_ fun hi => ?_
        · cases sendError <;> rfl
        · obtain ⟨_, hc, hperm⟩ := hi.of_waiting hw
          cases sendError with
          | some msg => exact PullInv.fail hc hperm msg
          | none =>
            refine .finished p.responses _ rfl rfl hc rfl ?_
            rw [Pull.respond, answered_append, answered_singleton, List.append_assoc, List.nil_append]
            exact ((List.perm_append_comm).append_left _).trans hperm
      · cases h
    · cases h
  | transferred c retValue sendError =>
    dsimp only [step] at h
    split at h
    · rename_i p hp
      split at h
      · rename_i b hb
        cases h
        rw [finishBatch_pulls]
        refine .moved hp (by cases sendError <;> rfl) fun hi => ?_
        obtain ⟨hc, herr, hstatus, hperm⟩ := hi.of_sending hb
        have hn := nodup_of_perm_reqIds hperm
        exact PullInv.respond hc hstatus (response_ids retValue herr (hn.sublist (List.sublist_append_left _ _))) hperm
          sendError
      · cases h
    · cases h
  | transferRaised c msg =>
    dsimp only [step] at h
    split at h
    · rename_i p hp
      split at h
      · rename_i b hb
        cases h
        refine .moved hp rfl fun hi => ?_
        obtain ⟨hc, _, _, hperm⟩ := hi.of_sending hb
        exact PullInv.fail hc hperm msg
      · cases h
    · cases h

/-- The transfers of the tasks that pull `c` collects are stored. -/
def CollectsStored (c : Nat) (s : Sender ReqId TransferId) : Event ReqId TransferId → Prop
  | .collect c' done _ => c' = c → ∀ task ∈ done, (s.stored (s.heap task.2).transferId).isSome = true
  | _ => True

instance (c : Nat) (s : Sender ReqId TransferId) : (e : Event ReqId TransferId) → Decidable (CollectsStored c s e)
  | .collect c' done _ =>
    inferInstanceAs (Decidable (c' = c → ∀ task ∈ done, (s.stored (s.heap task.2).transferId).isSome = true))
  | .record .. | .fetch _ | .pull _ | .timeout .. | .transferred .. | .transferRaised .. =>
    inferInstanceAs (Decidable True)

/-- The pulls of a state, with nothing forgotten by pull `c`. -/
def PullsInv (c : Nat) (s : Sender ReqId TransferId) : Prop :=
  (∀ p ∈ s.pulls, PullInv p) ∧ ∀ p, s.pulls[c]? = some p → p.forgotten = []

omit [DecidableEq ReqId] [DecidableEq TransferId] in
theorem pullsInv_set {c c' : Nat} {s : Sender ReqId TransferId} {p p' : Pull ReqId TransferId}
    (hI : PullsInv c s) (hp : s.pulls[c']? = some p) (hinv : PullInv p → PullInv p')
    (hf : c' = c → p.forgotten = [] → p'.forgotten = []) :
    (∀ q ∈ s.pulls.set c' p', PullInv q) ∧ ∀ q, (s.pulls.set c' p')[c]? = some q → q.forgotten = [] := by
  refine ⟨fun q hq => ?_, fun q hq => ?_⟩
  · rcases List.mem_or_eq_of_mem_set hq with hq | hq
    · exact hI.1 q hq
    · subst hq
      exact hinv (hI.1 p (List.mem_of_getElem? hp))
  · by_cases he : c' = c
    · subst he
      rw [List.getElem?_set_self (List.getElem?_eq_some_iff.mp hp).1] at hq
      cases hq
      exact hf rfl (hI.2 p hp)
    · rw [List.getElem?_set_ne he] at hq
      exact hI.2 q hq

theorem pullsInv_step (w : Worker ReqId TransferId) (c : Nat) (s : Sender ReqId TransferId)
    (e : Event ReqId TransferId) (s' : Sender ReqId TransferId) (hI : PullsInv c s) (hc : CollectsStored c s e)
    (h : step w s e = some s') : PullsInv c s' := by
  have hs := step_pulls h
  unfold PullsInv
  generalize s'.pulls = ps at hs ⊢
  cases hs with
  | same _ => exact hI
  | new p _ hf hp =>
    refine ⟨fun q hq => ?_, fun q hq => ?_⟩
    · rcases List.mem_append.mp hq with hq | hq
      · exact hI.1 q hq
      · rw [List.mem_singleton.mp hq]
        exact hp
    · rcases Nat.lt_or_ge c s.pulls.length with hlt | hge
      · rw [List.getElem?_append_left hlt] at hq
        exact hI.2 q hq
      · rw [List.getElem?_append_right hge] at hq
        have hmem := List.mem_of_getElem? hq
        rw [List.mem_singleton.mp hmem]
        exact hf
  | @collected c' p p' done sendError hp hf hinv =>
    refine pullsInv_set hI hp hinv fun he h0 => ?_
    subst he
    rw [hf, h0, markReady_forgotten _ _ _ (hc rfl)]
    rfl
  | moved hp hf hinv => exact pullsInv_set hI hp hinv fun _ h0 => hf.trans h0

omit [DecidableEq TransferId] in
theorem PullInv.outcomes {p : Pull ReqId TransferId} (h : PullInv p) (he : p.phase = .ended) (hf : p.forgotten = []) :
    (p.xferMeta.reqBlocks ≠ [] → Closed p.responses) ∧ (outcomes p.xferMeta p.responses).Perm p.xferMeta.reqIds := by
  cases h with
  | waiting hw => rw [he] at hw; cases hw
  | sending b hb => rw [he] at hb; cases hb
  | finished before last _ hr hc hst hp =>
    refine ⟨fun _ => ⟨before, last, hr, hc, by rw [hst]; decide⟩, ?_⟩
    have hany : p.responses.any (fun r => decide (r.status = .ERROR)) = false := by
      rw [List.any_eq_false, hr]
      intro r hm
      rcases List.mem_append.mp hm with hm | hm
      · rw [hc r hm]
        decide
      · rw [List.mem_singleton.mp hm, hst]
        decide
    rw [Mooncake.outcomes, hany, if_neg (by decide)]
    rw [hf] at hp
    exact hp
  | failed before last rest _ hr hc hst hp =>
    refine ⟨fun _ => ⟨before, last, hr, hc, by rw [hst]; decide⟩, ?_⟩
    have hany : p.responses.any (fun r => decide (r.status = .ERROR)) = true := by
      rw [List.any_eq_true]
      exact ⟨last, by rw [hr]; simp, decide_eq_true hst⟩
    rw [Mooncake.outcomes, hany, if_pos rfl]
    -- the ids not named are those that the error leaves open
    have hn : (answered p.responses ++ rest).Nodup := hp.nodup_iff.mpr p.xferMeta.nodup_reqs
    refine List.Perm.trans (List.Perm.append_left _ ?_) hp
    have hids : p.xferMeta.reqIds.Nodup := p.xferMeta.nodup_reqs
    refine (List.perm_ext_iff_of_nodup (hids.filter _) (List.nodup_append.mp hn).2.1).mpr fun d => ?_
    rw [List.mem_filter, decide_eq_true_eq, ← hp.mem_iff, List.mem_append]
    constructor
    · rintro ⟨hd | hd, hnot⟩
      · exact absurd hd hnot
      · exact hd
    · exact fun hd => ⟨.inr hd, fun ha => (List.nodup_append.mp hn).2.2 d ha d hd rfl⟩
  | empty _ hids hr _ =>
    refine ⟨fun hne => absurd (List.map_eq_nil_iff.mp hids) hne, ?_⟩
    rw [Mooncake.outcomes, hr, hids]
    exact .refl _

/-- In a run where the transfers that a pull collects are stored, each request of the pull has exactly
one outcome once the pull has ended, and its responses are closed by one `FINISH` or `ERROR`. -/
theorem pull_outcomes (w : Worker ReqId TransferId) (heap : Nat → SendBlockMeta ReqId TransferId)
    (es : List (Event ReqId TransferId)) (s : Sender ReqId TransferId) (c : Nat) (p : Pull ReqId TransferId)
    (hrun : run w (.initial heap) es = some s) (hstored : Along (step w) (CollectsStored c) (.initial heap) es)
    (hp : s.pulls[c]? = some p) (hended : p.phase = .ended) :
    (p.xferMeta.reqBlocks ≠ [] → Closed p.responses) ∧
      (outcomes p.xferMeta p.responses).Perm p.xferMeta.reqIds := by
  have hinit : PullsInv c (Sender.initial heap) := ⟨nofun, nofun⟩
  have hI : PullsInv c s := run_invariant (pullsInv_step w c) hinit hstored hrun
  exact (hI.1 p (List.mem_of_getElem? hp)).outcomes hended (hI.2 p hp)

end

/-! ## A pull that loses a request -/

/-- A worker with one descriptor per request. -/
def oneDescriptor : Worker Nat Nat where
  abortRequestTimeout := 480
  regionPlan := fun _ _ _ => .descriptors [(0, 0, 1)]

def noEntry (_ : Nat) : SendBlockMeta Nat Nat := { pReqId := none, transferId := 0 }

/-- Consumer request 10 pulls one block of transfer 7. -/
def pullSeven : XferMetadata Nat Nat := ⟨[(10, 7, [[5]])], 1, by decide⟩

/-- Producer request 1 offers transfer 7, and the pull is served. -/
def servedRun : List (Event Nat Nat) :=
  [.record 0 [(1, 7, [])] [], .record 0 [(1, 7, [[3]])] [], .pull pullSeven, .collect 0 [(10, 0)] none,
    .transferred 0 0 none]

/-- The offer expires between the start of the pull and the first return of its wait. -/
def expiredRun : List (Event Nat Nat) :=
  [.record 0 [(1, 7, [])] [], .record 0 [(1, 7, [[3]])] [], .pull pullSeven, .fetch 481, .collect 0 [(10, 0)] none]

theorem pull_outcomes_served :
    ∃ s p, run oneDescriptor (.initial noEntry) servedRun = some s ∧ s.pulls[0]? = some p ∧ p.phase = .ended ∧
      Closed p.responses ∧ (outcomes p.xferMeta p.responses).Perm p.xferMeta.reqIds := by
  refine ⟨_, _, rfl, rfl, rfl, ?_⟩
  obtain ⟨hclosed, hperm⟩ := pull_outcomes oneDescriptor noEntry servedRun _ 0 _ rfl (by decide) rfl rfl
  exact ⟨hclosed (by decide), hperm⟩

theorem pull_loses_expired :
    ∃ s p, run oneDescriptor (.initial noEntry) expiredRun = some s ∧ s.pulls[0]? = some p ∧ p.phase = .ended ∧
      oneDescriptor.rejectMetadata p.xferMeta = none ∧
      ¬ (outcomes p.xferMeta p.responses).Perm p.xferMeta.reqIds := by
  refine ⟨_, _, rfl, rfl, rfl, rfl, fun h => ?_⟩
  exact absurd h.length_eq (by decide)

end VllmHcu.Mooncake
