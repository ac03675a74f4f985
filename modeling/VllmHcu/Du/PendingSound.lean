import Mathlib.Tactic.Common
import VllmHcu.Du.Pending

/-!
# No tensor is lost or sent twice

At every moment each saved tensor is in the queue, under way, or delivered, and
what was sent is what was delivered, once for each destination. Reading the
requests that can be released fails when there is one.
-/

namespace VllmHcu.Du

namespace Engine

/-- The tensors that left the queue and are not sent yet. -/
def underway (s : Engine) : List (String × Item) :=
  match s.checker with
  | .sending requestId tensors _ _ => tensors.map fun item => (requestId, item)
  | _ => []

def deliveries (s : Engine) : List (String × Item × Dest) :=
  s.delivered.flatMap fun p => sends p.1 p.2 ((s.reqStatus p.1).getD [])

def keys (s : Engine) : List String := s.pendingQueue.map (·.1)

/-- The thread works on requests that are in the queue. -/
def CheckerInv (s : Engine) : Prop :=
  match s.checker with
  | .waiting => True
  | .scanning todo => todo.Nodup ∧ ∀ r ∈ todo, r ∈ s.keys
  | .checked requestId dests todo =>
    (requestId :: todo).Nodup ∧ (∀ r ∈ requestId :: todo, r ∈ s.keys) ∧ s.reqStatus requestId = some dests
  | .sending requestId _ dests todo => todo.Nodup ∧ (∀ r ∈ todo, r ∈ s.keys) ∧ s.reqStatus requestId = some dests
  | .dead => False

structure Inv (s : Engine) : Prop where
  keys : s.keys.Nodup
  conserved : (s.delivered ++ (s.underway ++ flatValues s.pendingQueue)).Perm s.saved
  sent : s.sent.Perm s.deliveries
  known : ∀ p ∈ s.delivered, (s.reqStatus p.1).isSome = true
  worker : ∀ requestId item, s.worker = .saving requestId item false → (s.reqStatus requestId).isSome = true
  checker : s.CheckerInv

section
variable {s : Engine}

/-! ## The worker -/

theorem CheckerInv.of_keys {s' : Engine} (h : s.CheckerInv) (hc : s'.checker = s.checker) (hs : s'.reqStatus = s.reqStatus)
    (hk : ∀ r ∈ s.keys, r ∈ s'.keys) : s'.CheckerInv := by
  unfold CheckerInv at h ⊢
  rw [hc]
  cases hch : s.checker with
  | waiting => trivial
  | scanning todo =>
    rw [hch] at h
    exact ⟨h.1, fun r hr => hk r (h.2 r hr)⟩
  | checked requestId dests todo =>
    rw [hch] at h
    exact ⟨h.1, fun r hr => hk r (h.2.1 r hr), hs ▸ h.2.2⟩
  | sending requestId tensors dests todo =>
    rw [hch] at h
    exact ⟨h.1, fun r hr => hk r (h.2.1 r hr), hs ▸ h.2.2⟩
  | dead =>
    rw [hch] at h
    exact h

theorem Inv.pendingTensor (h : s.Inv) (requestId : String) (item : Item) :
    ({ s with worker := .idle, saved := (requestId, item) :: s.saved } : Engine).pendingTensor requestId item |>.Inv where
  keys := nodup_insertKey requestId _ h.keys
  conserved := by
    have hflat := flatValues_insertKey requestId item s.pendingQueue
    have hunder : (s.underway ++ flatValues (insertKey requestId ((s.pendingQueue.lookup requestId).getD [] ++ [item])
        s.pendingQueue)).Perm ((requestId, item) :: (s.underway ++ flatValues s.pendingQueue)) :=
      (hflat.append_left _).trans List.perm_middle
    exact ((hunder.append_left _).trans List.perm_middle).trans (h.conserved.cons _)
  sent := h.sent
  known := h.known
  worker := nofun
  checker := by
    refine h.checker.of_keys rfl rfl fun r hr => ?_
    exact keys_insertKey.mpr (.inr hr)

theorem Inv.direct (h : s.Inv) {requestId : String} {dests : List Dest} (hs : s.reqStatus requestId = some dests) (item : Item) :
    ({ s with
      worker := .idle
      saved := (requestId, item) :: s.saved
      sent := s.sent ++ sends requestId item dests
      delivered := (requestId, item) :: s.delivered } : Engine).Inv where
  keys := h.keys
  conserved := h.conserved.cons _
  sent := by
    change (s.sent ++ sends requestId item dests).Perm (List.flatMap _ ((requestId, item) :: s.delivered))
    rw [List.flatMap_cons]
    change (s.sent ++ sends requestId item dests).Perm (sends requestId item ((s.reqStatus requestId).getD []) ++ s.deliveries)
    rw [hs, Option.getD_some]
    exact (h.sent.append_right _).trans List.perm_append_comm
  known := by
    intro p hp
    obtain rfl | hp := List.mem_cons.mp hp
    · simp [hs]
    · exact h.known p hp
  worker := nofun
  checker := h.checker.of_keys rfl rfl fun _ => id

theorem Inv.saveRest (h : s.Inv) {requestId : String} {item : Item} {pending : Bool}
    (hw : s.worker = .saving requestId item pending) :
    (s.saveRest requestId item pending).Inv ∧ (s.saveRest requestId item pending).raised = s.raised ∧
      (s.saveRest requestId item pending).released = s.released := by
  cases pending with
  | true => exact ⟨h.pendingTensor requestId item, rfl, rfl⟩
  | false =>
    have hknown := h.worker requestId item hw
    obtain ⟨dests, hs⟩ := Option.isSome_iff_exists.mp hknown
    unfold Engine.saveRest
    dsimp only
    rw [if_neg (by decide), hs]
    exact ⟨h.direct hs item, rfl, rfl⟩

/-- A step of the worker that only moves it on, or edits what can be released. -/
theorem Inv.moveWorker (h : s.Inv) {worker : Worker} {requestsToRelease : List (String × Bool)} {raised : Bool}
    {released : List String}
    (hw : ∀ requestId item, worker = .saving requestId item false → (s.reqStatus requestId).isSome = true) :
    ({ s with worker, requestsToRelease, raised, released } : Engine).Inv :=
  ⟨h.keys, h.conserved, h.sent, h.known, hw, h.checker.of_keys rfl rfl fun _ => id⟩

/-! ## The listener -/

theorem Inv.setStatus (h : s.Inv) {requestId : String} (hnone : s.reqStatus requestId = none) (dests : List Dest) :
    ({ s with reqStatus := Function.update s.reqStatus requestId (some dests) } : Engine).Inv where
  keys := h.keys
  conserved := h.conserved
  sent := by
    have hsame : (List.flatMap (fun p : String × Item =>
        sends p.1 p.2 ((Function.update s.reqStatus requestId (some dests) p.1).getD [])) s.delivered) = s.deliveries := by
      refine List.flatMap_congr fun p hp => ?_
      have hne : p.1 ≠ requestId := by
        intro heq
        have := h.known p hp
        rw [heq, hnone] at this
        cases this
      rw [Function.update_of_ne hne]
    exact h.sent.trans (.of_eq hsame.symm)
  known := fun p hp => isSome_update (h.known p hp)
  worker := fun r item hw => isSome_update (h.worker r item hw)
  checker := by
    have hc := h.checker
    unfold CheckerInv at hc ⊢
    dsimp only
    cases hch : s.checker with
    | waiting => trivial
    | scanning todo =>
      rw [hch] at hc
      exact hc
    | checked r ds todo =>
      rw [hch] at hc
      exact ⟨hc.1, hc.2.1, update_known hnone hc.2.2⟩
    | sending r ts ds todo =>
      rw [hch] at hc
      exact ⟨hc.1, hc.2.1, update_known hnone hc.2.2⟩
    | dead =>
      rw [hch] at hc
      exact hc
where
  isSome_update {r : String} (hr : (s.reqStatus r).isSome = true) :
      (Function.update s.reqStatus requestId (some dests) r).isSome = true := by
    by_cases heq : r = requestId
    · rw [heq, Function.update_self]
      rfl
    · rwa [Function.update_of_ne heq]
  update_known {r : String} {ds : List Dest} (hnone : s.reqStatus requestId = none) (hr : s.reqStatus r = some ds) :
      Function.update s.reqStatus requestId (some dests) r = some ds := by
    have hne : r ≠ requestId := by
      intro heq
      rw [heq, hnone] at hr
      cases hr
    rwa [Function.update_of_ne hne]

/-! ## The thread of the engine -/

theorem Inv.moveChecker (h : s.Inv) {checker : Checker} (hunder : s.underway = [])
    (hnot : ∀ r ts ds todo, checker ≠ .sending r ts ds todo)
    (hc : ({ s with checker } : Engine).CheckerInv) : ({ s with checker } : Engine).Inv where
  keys := h.keys
  conserved := by
    have hempty : ({ s with checker } : Engine).underway = [] := by
      unfold underway
      split
      · rename_i heq
        exact absurd heq (hnot _ _ _ _)
      · rfl
    rw [hempty]
    have := h.conserved
    rwa [hunder] at this
  sent := h.sent
  known := h.known
  worker := h.worker
  checker := hc

theorem underway_of_not_sending (hnot : ∀ r ts ds todo, s.checker ≠ .sending r ts ds todo) : s.underway = [] := by
  unfold underway
  split
  · rename_i heq
    exact absurd heq (hnot _ _ _ _)
  · rfl

theorem Inv.popRequest (h : s.Inv) {requestId : String} {dests : List Dest} {todo : List String}
    (hch : s.checker = .checked requestId dests todo) :
    ∃ tensors, s.pendingQueue.lookup requestId = some tensors ∧ (s.popRequest requestId dests todo).Inv := by
  have hc := h.checker
  unfold CheckerInv at hc
  rw [hch] at hc
  obtain ⟨hnodup, hmem, hs⟩ := hc
  have hunder : s.underway = [] := underway_of_not_sending (by rw [hch]; nofun)
  obtain ⟨tensors, hl⟩ := Option.isSome_iff_exists.mp (lookup_isSome.mpr (hmem requestId List.mem_cons_self))
  refine ⟨tensors, hl, ?_⟩
  unfold Engine.popRequest
  rw [hl]
  refine ⟨nodup_eraseKey requestId h.keys, ?_, h.sent, h.known, h.worker, (List.nodup_cons.mp hnodup).2, fun r hr => ?_, hs⟩
  · have hconserved := h.conserved
    rw [hunder, List.nil_append] at hconserved
    exact ((flatValues_eraseKey hl).symm.append_left _).trans hconserved
  · refine (keys_eraseKey h.keys).mpr ⟨?_, hmem r (List.mem_cons_of_mem _ hr)⟩
    rintro rfl
    exact (List.nodup_cons.mp hnodup).1 hr

theorem Inv.sendTensors (h : s.Inv) {requestId : String} {tensors : List Item} {dests : List Dest} {todo : List String}
    (hch : s.checker = .sending requestId tensors dests todo) :
    ({ s with
      sent := s.sent ++ tensors.flatMap fun item => sends requestId item dests
      delivered := tensors.map (fun item => (requestId, item)) ++ s.delivered
      checker := .scanning todo } : Engine).Inv where
  keys := h.keys
  conserved := by
    have hconserved := h.conserved
    have hunder : s.underway = tensors.map fun item => (requestId, item) := by
      unfold underway
      rw [hch]
    rw [hunder] at hconserved
    refine List.Perm.trans ?_ hconserved
    change (tensors.map (fun item => (requestId, item)) ++ s.delivered ++ ([] ++ flatValues s.pendingQueue)).Perm _
    rw [List.nil_append, ← List.append_assoc]
    exact List.perm_append_comm.append_right _
  sent := by
    have hs := checker_status h hch
    change (s.sent ++ _).Perm (List.flatMap _ (tensors.map (fun item => (requestId, item)) ++ s.delivered))
    rw [List.flatMap_append, List.flatMap_map]
    simp only [hs, Option.getD_some]
    exact (h.sent.append_right _).trans List.perm_append_comm
  known := by
    intro p hp
    obtain hp | hp := List.mem_append.mp hp
    · obtain ⟨item, -, rfl⟩ := List.mem_map.mp hp
      simp [checker_status h hch]
    · exact h.known p hp
  worker := h.worker
  checker := by
    have hc := h.checker
    unfold CheckerInv at hc ⊢
    rw [hch] at hc
    exact ⟨hc.1, hc.2.1⟩
where
  checker_status (h : s.Inv) (hch : s.checker = .sending requestId tensors dests todo) : s.reqStatus requestId = some dests := by
    have hc := h.checker
    unfold CheckerInv at hc
    rw [hch] at hc
    exact hc.2.2

theorem Inv.copyQueue (h : s.Inv) (hw : s.checker = .waiting) :
    ({ s with checker := .scanning (s.pendingQueue.map (·.1)) } : Engine).Inv :=
  h.moveChecker (underway_of_not_sending (by rw [hw]; nofun)) nofun ⟨h.keys, fun _ => id⟩

theorem Inv.checkStatus (h : s.Inv) {s' : Engine} (hs : s.step .checkStatus = some s') :
    s'.Inv ∧ s'.raised = s.raised ∧ s'.released = s.released := by
  have hc := h.checker
  unfold CheckerInv at hc
  simp only [step] at hs
  split at hs
  · rename_i hch
    cases hs
    exact ⟨h.moveChecker (underway_of_not_sending (by rw [hch]; nofun)) nofun trivial, rfl, rfl⟩
  · rename_i requestId todo hch
    rw [hch] at hc
    obtain ⟨hnodup, hmem⟩ := hc
    have hunder : s.underway = [] := underway_of_not_sending (by rw [hch]; nofun)
    split at hs
    · cases hs
      exact ⟨h.moveChecker hunder nofun
        ⟨(List.nodup_cons.mp hnodup).2, fun r hr => hmem r (List.mem_cons_of_mem _ hr)⟩, rfl, rfl⟩
    · rename_i dests hst
      cases hs
      exact ⟨h.moveChecker hunder nofun ⟨hnodup, hmem, hst⟩, rfl, rfl⟩
  · cases hs

/-! ## Runs -/

/-- No request that finished while it was pending has been unpended before `get_finished`. -/
def quiet (s : Engine) : EngineEvent → Bool
  | .getFinished _ => s.requestsToRelease.all (! ·.2)
  | _ => true

theorem getFinished_quiet (hq : s.requestsToRelease.all (! ·.2) = true) (finishedReqIds : List String) :
    s.getFinished finishedReqIds = { s with worker := .finishing finishedReqIds } := by
  have hfind : s.requestsToRelease.find? (·.2) = none := by
    rw [List.find?_eq_none]
    intro p hp
    have := List.all_eq_true.mp hq p hp
    simpa using this
  unfold getFinished
  rw [hfind]

theorem getFinished_raises (hq : ¬ s.requestsToRelease.all (! ·.2) = true) (finishedReqIds : List String) :
    (s.getFinished finishedReqIds).raised = true := by
  unfold getFinished
  cases hfind : s.requestsToRelease.find? (·.2) with
  | some p => rfl
  | none =>
    refine absurd ?_ hq
    rw [List.all_eq_true]
    intro p hp
    have := List.find?_eq_none.mp hfind p hp
    simpa using this

theorem Inv.step (h : s.Inv) {e : EngineEvent} {s' : Engine} (hs : s.step e = some s') :
    s'.Inv ∧ (s.quiet e = true → s'.raised = s.raised ∧ s'.released = s.released) := by
  cases e with
  | saveKvLayer requestId item =>
    simp only [Engine.step] at hs
    split at hs
    · cases hs
      refine ⟨h.moveWorker fun r i heq => ?_, fun _ => ⟨rfl, rfl⟩⟩
      injection heq with hr hi hp
      rw [← hr]
      simpa [Option.isNone_eq_false_iff] using hp
    · cases hs
  | saveRest =>
    simp only [Engine.step] at hs
    split at hs
    · rename_i requestId item pending hw
      cases hs
      obtain ⟨hinv, hsame⟩ := h.saveRest hw
      exact ⟨hinv, fun _ => hsame⟩
    · cases hs
  | reqToTransfer requestId dests =>
    simp only [Engine.step] at hs
    split at hs
    · rename_i hnone
      cases hs
      exact ⟨h.setStatus hnone dests, fun _ => ⟨rfl, rfl⟩⟩
    · cases hs
  | reqNotToTransfer requestId =>
    simp only [Engine.step] at hs
    split at hs
    · rename_i hnone
      cases hs
      exact ⟨h.setStatus hnone [], fun _ => ⟨rfl, rfl⟩⟩
    · cases hs
  | copyQueue =>
    simp only [Engine.step] at hs
    split at hs
    · rename_i hw
      cases hs
      exact ⟨h.copyQueue hw.1, fun _ => ⟨rfl, rfl⟩⟩
    · cases hs
  | checkStatus =>
    obtain ⟨hinv, hsame⟩ := h.checkStatus hs
    exact ⟨hinv, fun _ => hsame⟩
  | popRequest =>
    simp only [Engine.step] at hs
    split at hs
    · rename_i hch
      cases hs
      obtain ⟨tensors, hl, hinv⟩ := h.popRequest hch
      refine ⟨hinv, fun _ => ?_⟩
      unfold Engine.popRequest
      rw [hl]
      exact ⟨rfl, rfl⟩
    · cases hs
  | sendTensors =>
    simp only [Engine.step] at hs
    split at hs
    · rename_i hch
      cases hs
      exact ⟨h.sendTensors hch, fun _ => ⟨rfl, rfl⟩⟩
    · cases hs
  | getFinished finishedReqIds =>
    simp only [Engine.step] at hs
    split at hs
    · cases hs
      refine ⟨?_, fun hq => ?_⟩
      · unfold Engine.getFinished
        split
        · exact h.moveWorker h.worker
        · exact h.moveWorker nofun
      · rw [getFinished_quiet hq]
        exact ⟨rfl, rfl⟩
    · cases hs
  | finishRequest =>
    simp only [Engine.step] at hs
    split at hs
    · cases hs
      exact ⟨h.moveWorker nofun, fun _ => ⟨rfl, rfl⟩⟩
    · split at hs
      · cases hs
        exact ⟨h.moveWorker nofun, fun _ => ⟨rfl, rfl⟩⟩
      · cases hs
        exact ⟨h.moveWorker nofun, fun _ => ⟨rfl, rfl⟩⟩
    · cases hs

end

/-! ## The queue is emptied -/

def isChecker : EngineEvent → Bool
  | .copyQueue => true
  | .checkStatus => true
  | .popRequest => true
  | .sendTensors => true
  | _ => false

/-- Some steps of the engine's thread alone lead from `s` to `s'`. -/
structure Advances (s s' : Engine) : Prop where
  run : ∃ es, (∀ e ∈ es, isChecker e = true) ∧ runFrom step s es = some s'
  inv : s'.Inv
  status : s'.reqStatus = s.reqStatus
  saved : s'.saved = s.saved
  keys : ∀ k ∈ s'.keys, k ∈ s.keys

theorem Advances.refl {s : Engine} (h : s.Inv) : Advances s s := ⟨⟨[], nofun, rfl⟩, h, rfl, rfl, fun _ => id⟩

theorem Advances.trans {s s₁ s₂ : Engine} (h : Advances s s₁) (h' : Advances s₁ s₂) : Advances s s₂ where
  run := by
    obtain ⟨es, hes, hrun⟩ := h.run
    obtain ⟨es', hes', hrun'⟩ := h'.run
    refine ⟨es ++ es', fun e he => ?_, runFrom_append hrun hrun'⟩
    obtain he | he := List.mem_append.mp he
    · exact hes e he
    · exact hes' e he
  inv := h'.inv
  status := h'.status.trans h.status
  saved := h'.saved.trans h.saved
  keys := fun k hk => h.keys k (h'.keys k hk)

theorem Advances.of_step {s s' : Engine} (h : s.Inv) {e : EngineEvent} (he : isChecker e = true) (hs : s.step e = some s')
    (hstatus : s'.reqStatus = s.reqStatus) (hsaved : s'.saved = s.saved) (hkeys : ∀ k ∈ s'.keys, k ∈ s.keys) :
    Advances s s' := by
  refine ⟨⟨[e], fun e' he' => ?_, ?_⟩, (h.step hs).1, hstatus, hsaved, hkeys⟩
  · rwa [List.mem_singleton.mp he']
  · rw [runFrom, hs]
    rfl

section
variable {s : Engine}

theorem advances_sending (h : s.Inv) {requestId : String} {tensors : List Item} {dests : List Dest} {todo : List String}
    (hch : s.checker = .sending requestId tensors dests todo) :
    ∃ s', Advances s s' ∧ s'.checker = .scanning todo ∧ s'.keys = s.keys := by
  have hs : s.step .sendTensors = some { s with
      sent := s.sent ++ tensors.flatMap fun item => sends requestId item dests
      delivered := tensors.map (fun item => (requestId, item)) ++ s.delivered
      checker := .scanning todo } := by simp only [step, hch]
  exact ⟨_, .of_step h rfl hs rfl rfl fun _ => id, rfl, rfl⟩

theorem advances_checked (h : s.Inv) {requestId : String} {dests : List Dest} {todo : List String}
    (hch : s.checker = .checked requestId dests todo) :
    ∃ s', Advances s s' ∧ s'.checker = .scanning todo ∧ requestId ∉ s'.keys := by
  obtain ⟨tensors, hl, -⟩ := h.popRequest hch
  have hpop : s.step .popRequest = some (s.popRequest requestId dests todo) := by simp only [step, hch]
  have hkeys : ∀ k, k ∈ (s.popRequest requestId dests todo).keys ↔ k ≠ requestId ∧ k ∈ s.keys := by
    intro k
    unfold Engine.popRequest
    rw [hl]
    exact keys_eraseKey h.keys
  have hsame : (s.popRequest requestId dests todo).reqStatus = s.reqStatus ∧
      (s.popRequest requestId dests todo).saved = s.saved ∧
      (s.popRequest requestId dests todo).checker = .sending requestId tensors dests todo := by
    unfold Engine.popRequest
    rw [hl]
    exact ⟨rfl, rfl, rfl⟩
  have hadv : Advances s (s.popRequest requestId dests todo) :=
    .of_step h rfl hpop hsame.1 hsame.2.1 fun k hk => ((hkeys k).mp hk).2
  obtain ⟨s', hadv', hscan, hk'⟩ := advances_sending hadv.inv hsame.2.2
  refine ⟨s', hadv.trans hadv', hscan, fun hmem => ?_⟩
  rw [hk'] at hmem
  exact ((hkeys requestId).mp hmem).1 rfl

/-- A pass over the copied requests sends those whose destinations are known. -/
theorem advances_scanning : ∀ {todo : List String} {s : Engine}, s.Inv → s.checker = .scanning todo →
    ∃ s', Advances s s' ∧ s'.checker = .waiting ∧ ∀ k ∈ s'.keys, k ∈ todo → s.reqStatus k = none
  | [], s, h, hch => by
    have hs : s.step .checkStatus = some { s with checker := .waiting } := by simp only [step, hch]
    exact ⟨_, .of_step h rfl hs rfl rfl fun _ => id, rfl, nofun⟩
  | requestId :: todo, s, h, hch => by
    cases hst : s.reqStatus requestId with
    | none =>
      have hadv : Advances s { s with checker := .scanning todo } :=
        .of_step h (e := .checkStatus) rfl (by simp only [step, hch, hst]) rfl rfl fun _ => id
      obtain ⟨s', hadv', hw, hrest⟩ := advances_scanning hadv.inv rfl
      refine ⟨s', hadv.trans hadv', hw, fun k hk hmem => ?_⟩
      obtain rfl | hmem := List.mem_cons.mp hmem
      · exact hst
      · exact hrest k hk hmem
    | some dests =>
      have hadv : Advances s { s with checker := .checked requestId dests todo } :=
        .of_step h (e := .checkStatus) rfl (by simp only [step, hch, hst]) rfl rfl fun _ => id
      obtain ⟨s₁, hadv₁, hscan, hgone⟩ := advances_checked hadv.inv rfl
      obtain ⟨s', hadv', hw, hrest⟩ := advances_scanning hadv₁.inv hscan
      refine ⟨s', (hadv.trans hadv₁).trans hadv', hw, fun k hk hmem => ?_⟩
      obtain rfl | hmem := List.mem_cons.mp hmem
      · exact absurd (hadv'.keys _ hk) hgone
      · have := hrest k hk hmem
        rwa [hadv₁.status] at this

theorem advances_waiting (h : s.Inv) : ∃ s', Advances s s' ∧ s'.checker = .waiting := by
  have hc := h.checker
  unfold CheckerInv at hc
  cases hch : s.checker with
  | waiting => exact ⟨s, .refl h, hch⟩
  | scanning todo =>
    obtain ⟨s', hadv, hw, -⟩ := advances_scanning h hch
    exact ⟨s', hadv, hw⟩
  | checked requestId dests todo =>
    obtain ⟨s₁, hadv₁, hscan, -⟩ := advances_checked h hch
    obtain ⟨s', hadv, hw, -⟩ := advances_scanning hadv₁.inv hscan
    exact ⟨s', hadv₁.trans hadv, hw⟩
  | sending requestId tensors dests todo =>
    obtain ⟨s₁, hadv₁, hscan, -⟩ := advances_sending h hch
    obtain ⟨s', hadv, hw, -⟩ := advances_scanning hadv₁.inv hscan
    exact ⟨s', hadv₁.trans hadv, hw⟩
  | dead =>
    rw [hch] at hc
    exact hc.elim

/-- The thread empties the queue of the requests whose destinations are known. -/
theorem drains (h : s.Inv) : ∃ s', Advances s s' ∧ s'.underway = [] ∧ ∀ k ∈ s'.keys, s.reqStatus k = none := by
  obtain ⟨s₁, hadv₁, hw⟩ := advances_waiting h
  by_cases hempty : s₁.pendingQueue = []
  · refine ⟨s₁, hadv₁, underway_of_not_sending (by rw [hw]; nofun), fun k hk => ?_⟩
    unfold Engine.keys at hk
    rw [hempty] at hk
    cases hk
  · have hcopy : Advances s₁ { s₁ with checker := .scanning s₁.keys } :=
      .of_step hadv₁.inv (e := .copyQueue) rfl (by simp only [step]; rw [if_pos ⟨hw, hempty⟩]; rfl) rfl rfl fun _ => id
    obtain ⟨s', hadv', hw', hall⟩ := advances_scanning hcopy.inv rfl
    refine ⟨s', (hadv₁.trans hcopy).trans hadv', underway_of_not_sending (by rw [hw']; nofun), fun k hk => ?_⟩
    have hmem : k ∈ s₁.keys := hadv'.keys k hk
    have := hall k hk hmem
    rwa [show ({ s₁ with checker := .scanning s₁.keys } : Engine).reqStatus = s₁.reqStatus from rfl, hadv₁.status] at this

theorem delivered_count (h : s.Inv) (hunder : s.underway = []) {p : String × Item} (hkeys : p.1 ∉ s.keys) :
    s.delivered.count p = s.saved.count p := by
  have hconserved := h.conserved
  rw [hunder, List.nil_append] at hconserved
  rw [← hconserved.count_eq p, List.count_append]
  have hnot : p ∉ flatValues s.pendingQueue := by
    intro hp
    obtain ⟨q, hq, hp⟩ := List.mem_flatMap.mp hp
    obtain ⟨item, -, rfl⟩ := List.mem_map.mp hp
    exact hkeys (List.mem_map.mpr ⟨q, hq, rfl⟩)
  rw [List.count_eq_zero_of_not_mem hnot, Nat.add_zero]

end

end Engine

/-- In a run in which `get_finished` never meets a request to release: each saved tensor is in the queue, under way or
delivered, what was delivered was sent once to each destination, nothing has failed, and the engine's thread alone can
deliver every saved tensor whose destinations are known. -/
theorem pending_exact (events : List EngineEvent) (s : Engine) (hrun : runFrom Engine.step {} events = some s)
    (hquiet : Along Engine.step (fun s e => s.quiet e = true) {} events) :
    (s.delivered ++ (s.underway ++ flatValues s.pendingQueue)).Perm s.saved ∧
    s.sent.Perm (s.delivered.flatMap fun p => Engine.sends p.1 p.2 ((s.reqStatus p.1).getD [])) ∧
    s.checker ≠ .dead ∧ s.raised = false ∧ s.released = [] ∧
    (∀ ids, (s.getFinished ids).raised = false ↔ s.requestsToRelease.all (! ·.2) = true) ∧
    ∃ es s', (∀ e ∈ es, Engine.isChecker e = true) ∧ runFrom Engine.step s es = some s' ∧ s'.saved = s.saved ∧
      s'.reqStatus = s.reqStatus ∧
      s'.sent.Perm (s'.delivered.flatMap fun p => Engine.sends p.1 p.2 ((s'.reqStatus p.1).getD [])) ∧
      ∀ p, (s.reqStatus p.1).isSome = true → s'.delivered.count p = s.saved.count p := by
  have hinit : Engine.Inv {} := ⟨List.nodup_nil, .refl _, .refl _, nofun, nofun, trivial⟩
  obtain ⟨h, hraised, hreleased⟩ := run_invariant
    (I := fun s : Engine => s.Inv ∧ s.raised = false ∧ s.released = [])
    (fun s e s' hs hq hstep => by
      obtain ⟨hinv, hsame⟩ := hs.1.step hstep
      obtain ⟨hr, hl⟩ := hsame hq
      exact ⟨hinv, hr.trans hs.2.1, hl.trans hs.2.2⟩) ⟨hinit, rfl, rfl⟩ hquiet hrun
  obtain ⟨s', hadv, hunder, hkeys⟩ := Engine.drains h
  obtain ⟨es, hes, hrun'⟩ := hadv.run
  refine ⟨h.conserved, h.sent, ?_, hraised, hreleased, fun ids => ?_, es, s', hes, hrun', hadv.saved, hadv.status,
    hadv.inv.sent, fun p hp => ?_⟩
  · intro hdead
    have hc := h.checker
    unfold Engine.CheckerInv at hc
    rw [hdead] at hc
    exact hc
  · constructor
    · intro hr
      by_contra hq
      rw [Engine.getFinished_raises hq] at hr
      cases hr
    · intro hq
      rw [Engine.getFinished_quiet hq]
      exact hraised
  · rw [Engine.delivered_count hadv.inv hunder, hadv.saved]
    intro hk
    rw [hkeys p.1 hk] at hp
    cases hp

/-- A layer is saved before the router has answered, and another one after. -/
def lateAnswer : List EngineEvent := [
  .saveKvLayer "a" ⟨"l0", 0⟩, .saveRest, .reqToTransfer "a" [⟨"pd", "d", 1⟩], .copyQueue, .checkStatus, .popRequest,
  .sendTensors, .saveKvLayer "a" ⟨"l1", 1⟩, .saveRest, .getFinished ["a"]]

theorem pending_exact_lateAnswer : ∃ s, runFrom Engine.step {} lateAnswer = some s ∧
    s.sent = [("a", ⟨"l0", 0⟩, ⟨"pd", "d", 1⟩), ("a", ⟨"l1", 1⟩, ⟨"pd", "d", 1⟩)] ∧ s.raised = false := by
  have hmap : (runFrom Engine.step {} lateAnswer).map (·.sent) =
      some [("a", ⟨"l0", 0⟩, ⟨"pd", "d", 1⟩), ("a", ⟨"l1", 1⟩, ⟨"pd", "d", 1⟩)] := by decide +kernel
  obtain ⟨s, hs, hsent⟩ := Option.map_eq_some_iff.mp hmap
  obtain ⟨-, -, -, hraised, -⟩ := pending_exact lateAnswer s hs (by decide +kernel)
  exact ⟨s, hs, hsent, hraised⟩

/-- A request finishes while its tensor waits; once the tensor is sent, the next `get_finished` raises. -/
theorem release_raises : ∃ s, runFrom Engine.step {} [
      .saveKvLayer "a" ⟨"l0", 0⟩, .saveRest, .getFinished ["a"], .finishRequest, .finishRequest,
      .reqToTransfer "a" [⟨"pd", "d", 1⟩], .copyQueue, .checkStatus, .popRequest, .sendTensors, .getFinished []] = some s ∧
    s.raised = true := by
  have hmap : (runFrom Engine.step {} [
      .saveKvLayer "a" ⟨"l0", 0⟩, .saveRest, .getFinished ["a"], .finishRequest, .finishRequest,
      .reqToTransfer "a" [⟨"pd", "d", 1⟩], .copyQueue, .checkStatus, .popRequest, .sendTensors, .getFinished []]).map (·.raised) =
      some true := by decide +kernel
  exact Option.map_eq_some_iff.mp hmap

end VllmHcu.Du
