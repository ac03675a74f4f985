import Mathlib.Data.List.Nodup
import Mathlib.Tactic.Common
import VllmHcu.Du.Producer

/-!
# Every completed prompt is handed on once

Between steps the connector remembers the blocks and the prompt of exactly the
requests that are not finished and whose prompt is not computed. It loses a
request whose prompt is completed in a step that gives it no new block.
-/

namespace VllmHcu.Du

open SchedulerOutput DuSwiftConnectorDp

/-- A request whose last prompt token is scheduled comes with block ids in that step. -/
def bringsBlocks (s : Producer) : ProducerEvent → Bool
  | .build out => out.scheduledCachedReqs.all fun r =>
    match s.requests r.reqId with
    | none => true
    | some q => q.completed || out.cachedTokens r < q.prompt.length || r.newBlockIds.isSome
  | _ => true

/-- What the connector remembers of a request. -/
def remembered (q : Request) : Option (List Nat × Option (List Nat)) :=
  if q.completed || q.status = .finished then none else some (q.blocks, some q.prompt)

def Tracks (c : DuSwiftConnectorDp) (requests : String → Option Request) : Prop :=
  c.isProducer = true ∧ ∀ id, c.chunkedPrefill id = (requests id).bind remembered

section
variable (out : SchedulerOutput) {c : DuSwiftConnectorDp} {requests : String → Option Request}

theorem tracks_update (h : Tracks c requests) (id : String) {q : Request} {v : Option (List Nat × Option (List Nat))}
    (hv : v = remembered q) :
    Tracks { c with chunkedPrefill := Function.update c.chunkedPrefill id v } (Function.update requests id (some q)) := by
  refine ⟨h.1, fun id' => ?_⟩
  dsimp only
  by_cases hid : id' = id
  · rw [hid, Function.update_self, Function.update_self, hv]
    rfl
  · rw [Function.update_of_ne hid, Function.update_of_ne hid]
    exact h.2 id'

theorem tracks_same (h : Tracks c requests) {id : String} {q : Request}
    (hq : c.chunkedPrefill id = remembered q) : Tracks c (Function.update requests id (some q)) := by
  have := tracks_update h id hq
  rwa [Function.update_eq_self] at this

theorem buildNew_spec (h : Tracks c requests) {r : NewRequestData} (hnew : requests r.reqId = none) (sent : List ReqMeta) :
    ∃ c', buildNew out c sent r = (c', sent ++ (out.newCompletion r).toList) ∧ Tracks c' (out.advanceNew requests r) := by
  unfold buildNew newCompletion advanceNew
  dsimp only
  rw [if_pos h.1]
  by_cases hlt : out.newTokens r < (r.promptTokenIds.getD []).length
  · have hcomp : (out.newRequest r).completed = false := by
      simp only [newRequest, decide_eq_false_iff_not]
      omega
    have hprompt : r.promptTokenIds = some (out.newRequest r).prompt := by
      cases hp : r.promptTokenIds with
      | none => simp [hp] at hlt
      | some prompt => simp [newRequest, hp]
    rw [if_pos hlt, hcomp]
    refine ⟨_, by simp; rfl, tracks_update h r.reqId ?_⟩
    have hrem : remembered (out.newRequest r) = some ((out.newRequest r).blocks, some (out.newRequest r).prompt) := by
      simp only [remembered, hcomp]
      rfl
    rw [hrem, ← hprompt]
    rfl
  · have hcomp : (out.newRequest r).completed = true := by
      simp only [newRequest, decide_eq_true_eq]
      omega
    rw [if_neg hlt, hcomp]
    refine ⟨c, rfl, tracks_same h ?_⟩
    rw [h.2, hnew]
    simp [remembered, hcomp]

theorem advanceNew_frame {rs : List NewRequestData} {id : String} (hid : id ∉ rs.map (·.reqId)) :
    rs.foldl out.advanceNew requests id = requests id := by
  induction rs generalizing requests with
  | nil => rfl
  | cons r rs ih =>
    rw [List.map_cons, List.mem_cons, not_or] at hid
    rw [List.foldl_cons, ih hid.2]
    unfold advanceNew
    rw [Function.update_of_ne hid.1]

theorem foldl_buildNew : ∀ {rs : List NewRequestData} {c : DuSwiftConnectorDp} {requests : String → Option Request}
    (sent : List ReqMeta), Tracks c requests → (rs.map (·.reqId)).Nodup → (∀ r ∈ rs, requests r.reqId = none) →
    ∃ c' : DuSwiftConnectorDp, rs.foldl (fun p r => buildNew out p.1 p.2 r) (c, sent) = (c', sent ++ rs.filterMap out.newCompletion) ∧
      Tracks c' (rs.foldl out.advanceNew requests)
  | [], c, requests, sent, h, _, _ => ⟨c, by simp, h⟩
  | r :: rs, c, requests, sent, h, hnodup, hnew => by
    obtain ⟨hr, hnodup⟩ := List.nodup_cons.mp hnodup
    obtain ⟨c₁, heq₁, h₁⟩ := buildNew_spec out h (hnew r List.mem_cons_self) sent
    have hnew₁ : ∀ r' ∈ rs, out.advanceNew requests r r'.reqId = none := by
      intro r' hr'
      have hne : r'.reqId ≠ r.reqId := fun heq => hr (List.mem_map.mpr ⟨r', hr', heq⟩)
      unfold advanceNew
      rw [Function.update_of_ne hne]
      exact hnew r' (List.mem_cons_of_mem r hr')
    obtain ⟨c', heq, h'⟩ := foldl_buildNew (sent ++ (out.newCompletion r).toList) h₁ hnodup hnew₁
    refine ⟨c', ?_, h'⟩
    rw [List.foldl_cons, heq₁, heq, List.append_assoc]
    congr 2
    cases hcomp : out.newCompletion r with
    | none => simp [hcomp]
    | some m => simp [hcomp]

/-- A cached request as the scheduler promises it. -/
def ValidCached (out : SchedulerOutput) (r : CachedRequest) (q : Request) : Prop :=
  if out.resumed r then q.status = .preempted ∧ r.newBlockIds.isSome = true else q.status = .running

theorem ValidCached.not_finished {out : SchedulerOutput} {r : CachedRequest} {q : Request} (h : ValidCached out r q) : q.status ≠ .finished := by
  unfold ValidCached at h
  split at h
  · rw [h.1]
    decide
  · rw [h]
    decide

theorem buildCached_spec (h : Tracks c requests) {r : CachedRequest} {q : Request} (hq : requests r.reqId = some q)
    (hvalid : ValidCached out r q)
    (hblocks : q.completed = true ∨ out.cachedTokens r < q.prompt.length ∨ r.newBlockIds.isSome = true)
    (sent : List ReqMeta) :
    ∃ c', buildCached out c sent r = some (c', sent ++ (out.cachedCompletion requests r).toList) ∧
      Tracks c' (out.advanceCached requests r) := by
  have hget := h.2 r.reqId
  rw [hq, Option.bind_some] at hget
  unfold advanceCached cachedCompletion
  rw [hq, Option.bind_some, Option.map_some]
  by_cases hcomp : q.completed = true
  · -- handed on before
    have hnone : c.chunkedPrefill r.reqId = none := by
      rw [hget]
      simp [remembered, hcomp]
    unfold buildCached
    rw [hnone]
    refine ⟨c, by simp [hcomp], tracks_same h ?_⟩
    rw [hnone]
    simp [remembered, cachedRequest, hcomp]
  · have hsome : c.chunkedPrefill r.reqId = some (q.blocks, some q.prompt) := by
      rw [hget]
      simp [remembered, hcomp, hvalid.not_finished]
    unfold buildCached
    rw [hsome]
    dsimp only
    cases hnew : r.newBlockIds with
    | none =>
      -- the request goes on in the blocks it has
      have hrun : out.resumed r = false := by
        unfold ValidCached at hvalid
        by_contra hres
        rw [if_pos (by simpa using hres), hnew] at hvalid
        simp at hvalid
      have hlt : out.cachedTokens r < q.prompt.length := by
        rcases hblocks with hb | hb | hb
        · exact absurd hb hcomp
        · exact hb
        · simp [hnew] at hb
      have hnot : ¬ q.prompt.length ≤ out.cachedTokens r := by omega
      refine ⟨c, by simp [hcomp, cachedRequest, hnot], tracks_same h ?_⟩
      rw [hsome]
      simp [remembered, cachedRequest, hcomp, hnot, hrun, hnew]
    | some newBlockIds =>
      dsimp only
      have hall : (if out.resumed r = true then firstGroup newBlockIds else q.blocks ++ firstGroup newBlockIds) =
          (out.cachedRequest r q).blocks := by
        simp only [cachedRequest, hnew, Option.elim_some]
        split
        · rw [List.nil_append]
        · rfl
      rw [hall]
      by_cases hlt : out.cachedTokens r < q.prompt.length
      · have hnot : ¬ q.prompt.length ≤ out.cachedTokens r := by omega
        rw [if_pos hlt]
        refine ⟨_, by simp [hcomp, cachedRequest, hnot]; rfl, tracks_update h r.reqId ?_⟩
        simp [remembered, cachedRequest, hcomp, hnot]
      · have hle : q.prompt.length ≤ out.cachedTokens r := by omega
        rw [if_neg hlt]
        refine ⟨_, by simp [hcomp, cachedRequest, hle]; rfl, tracks_update h r.reqId ?_⟩
        simp [remembered, cachedRequest, hle]

theorem buildCachedReqs_spec : ∀ {rs : List CachedRequest} {c : DuSwiftConnectorDp} {requests : String → Option Request}
    (sent : List ReqMeta), Tracks c requests → (rs.map (·.reqId)).Nodup →
    (∀ r ∈ rs, ∃ q, requests r.reqId = some q ∧ ValidCached out r q ∧
      (q.completed = true ∨ out.cachedTokens r < q.prompt.length ∨ r.newBlockIds.isSome = true)) →
    ∃ c', buildCachedReqs out c sent rs = some (c', sent ++ rs.filterMap (out.cachedCompletion requests)) ∧
      Tracks c' (rs.foldl out.advanceCached requests)
  | [], c, requests, sent, h, _, _ => ⟨c, by simp [buildCachedReqs], h⟩
  | r :: rs, c, requests, sent, h, hnodup, hvalid => by
    obtain ⟨hr, hnodup⟩ := List.nodup_cons.mp hnodup
    obtain ⟨q, hq, hv, hb⟩ := hvalid r List.mem_cons_self
    obtain ⟨c₁, heq₁, h₁⟩ := buildCached_spec out h hq hv hb sent
    have hsame : ∀ r' ∈ rs, out.advanceCached requests r r'.reqId = requests r'.reqId := by
      intro r' hr'
      have hne : r'.reqId ≠ r.reqId := fun heq => hr (List.mem_map.mpr ⟨r', hr', heq⟩)
      unfold advanceCached
      rw [Function.update_of_ne hne]
    obtain ⟨c', heq, h'⟩ := buildCachedReqs_spec (sent ++ (out.cachedCompletion requests r).toList) h₁ hnodup
      fun r' hr' => by
        rw [hsame r' hr']
        exact hvalid r' (List.mem_cons_of_mem r hr')
    have hrest : rs.filterMap (out.cachedCompletion (out.advanceCached requests r)) =
        rs.filterMap (out.cachedCompletion requests) := by
      refine List.filterMap_congr fun r' hr' => ?_
      unfold cachedCompletion
      rw [hsame r' hr']
    refine ⟨c', ?_, h'⟩
    unfold buildCachedReqs
    rw [if_pos h.1, heq₁, Option.bind_some]
    dsimp only
    rw [heq, hrest, List.append_assoc]
    congr 3
    cases hcomp : out.cachedCompletion requests r with
    | none => simp [hcomp]
    | some m => simp [hcomp]

/-! ## Steps -/

theorem valid_spec {out : SchedulerOutput} (h : out.valid requests = true) :
    (out.scheduledNewReqs.map (·.reqId)).Nodup ∧ (out.scheduledCachedReqs.map (·.reqId)).Nodup ∧
      (∀ id, id ∈ out.scheduledCachedReqs.map (·.reqId) → id ∉ out.scheduledNewReqs.map (·.reqId)) ∧
      (∀ r ∈ out.scheduledNewReqs, requests r.reqId = none) ∧
      ∀ r ∈ out.scheduledCachedReqs, ∃ q, requests r.reqId = some q ∧ ValidCached out r q := by
  unfold valid at h
  simp only [Bool.and_eq_true, decide_eq_true_eq, List.all_eq_true, Option.isNone_iff_eq_none] at h
  obtain ⟨⟨hnodup, hnew⟩, hcached⟩ := h
  obtain ⟨h₁, h₂, h₃⟩ := List.nodup_append.mp hnodup
  refine ⟨h₁, h₂, fun id hid hm => h₃ id hm id hid rfl, hnew, fun r hr => ?_⟩
  have hv := hcached r hr
  cases hq : requests r.reqId with
  | none =>
    rw [hq] at hv
    cases hv
  | some q =>
    rw [hq] at hv
    refine ⟨q, rfl, ?_⟩
    unfold ValidCached
    dsimp only at hv
    split at hv
    · rename_i hres
      rw [if_pos hres]
      simpa using hv
    · rename_i hres
      rw [if_neg hres]
      simpa using hv

theorem buildConnectorMeta_spec {out : SchedulerOutput} (h : Tracks c requests) (hvalid : out.valid requests = true)
    (hblocks : ∀ r ∈ out.scheduledCachedReqs, ∀ q, requests r.reqId = some q →
      q.completed = true ∨ out.cachedTokens r < q.prompt.length ∨ r.newBlockIds.isSome = true) :
    ∃ c', c.buildConnectorMeta out = some (c', out.completions requests) ∧ Tracks c' (out.advance requests) := by
  obtain ⟨hnew, hcached, hdisj, hfresh, hval⟩ := valid_spec hvalid
  obtain ⟨c₁, heq₁, h₁⟩ := foldl_buildNew out [] h hnew hfresh
  have hsame : ∀ r ∈ out.scheduledCachedReqs, out.scheduledNewReqs.foldl out.advanceNew requests r.reqId = requests r.reqId :=
    fun r hr => advanceNew_frame out (hdisj _ (List.mem_map_of_mem hr))
  obtain ⟨c', heq, h'⟩ := buildCachedReqs_spec out (out.scheduledNewReqs.filterMap out.newCompletion) h₁ hcached
    fun r hr => by
      obtain ⟨q, hq, hv⟩ := hval r hr
      exact ⟨q, (hsame r hr).trans hq, hv, hblocks r hr q hq⟩
  have hrest : out.scheduledCachedReqs.filterMap (out.cachedCompletion (out.scheduledNewReqs.foldl out.advanceNew requests)) =
      out.scheduledCachedReqs.filterMap (out.cachedCompletion requests) := by
    refine List.filterMap_congr fun r hr => ?_
    unfold cachedCompletion
    rw [hsame r hr]
  refine ⟨{ c' with requestsNeedLoad := fun _ => none }, ?_, h'.1, h'.2⟩
  unfold buildConnectorMeta completions
  simp only [heq₁, List.nil_append, heq, hrest, Option.map_some]

/-! ## How often a request is handed on -/

def timesDone : Option Request → Nat
  | some q => if q.completed then 1 else 0
  | none => 0

/-- A request has been handed on once when its prompt is computed, and not before. -/
def Logged (sent : List ReqMeta) (requests : String → Option Request) : Prop :=
  ∀ id, sent.countP (fun m => m.requestId = id) = timesDone (requests id)

theorem logged_append {sent : List ReqMeta} (h : Logged sent requests) {m : Option ReqMeta} {id : String} {q : Request}
    (hid : ∀ x ∈ m, x.requestId = id) (hcount : timesDone (requests id) + m.toList.length = timesDone (some q)) :
    Logged (sent ++ m.toList) (Function.update requests id (some q)) := by
  intro id'
  have hold := h id'
  rw [List.countP_append]
  by_cases heq : id' = id
  · subst heq
    rw [Function.update_self, ← hcount, hold]
    congr 1
    cases m with
    | none => rfl
    | some x => simp [hid x rfl]
  · rw [Function.update_of_ne heq, hold]
    cases m with
    | none => rfl
    | some x =>
      have hne : ¬ x.requestId = id' := fun hx => heq (hx.symm.trans (hid x rfl))
      simp [hne]

theorem logged_new {sent : List ReqMeta} (h : Logged sent requests) {r : NewRequestData}
    (hnew : requests r.reqId = none) :
    Logged (sent ++ (out.newCompletion r).toList) (out.advanceNew requests r) := by
  refine logged_append h (fun x hx => ?_) ?_
  · unfold newCompletion at hx
    split at hx
    · cases hx
      rfl
    · cases hx
  · rw [hnew]
    cases hc : (out.newRequest r).completed with
    | true => simp [newCompletion, timesDone, hc]
    | false => simp [newCompletion, timesDone, hc]

theorem logged_cached {sent : List ReqMeta} (h : Logged sent requests) {r : CachedRequest} {q : Request}
    (hq : requests r.reqId = some q) :
    Logged (sent ++ (out.cachedCompletion requests r).toList) (out.advanceCached requests r) := by
  unfold advanceCached
  rw [hq, Option.map_some]
  refine logged_append h (fun x hx => ?_) ?_
  · unfold cachedCompletion at hx
    rw [hq, Option.bind_some] at hx
    split at hx
    · cases hx
      rfl
    · cases hx
  · rw [hq]
    unfold cachedCompletion
    rw [hq, Option.bind_some]
    cases hc : q.completed with
    | true => simp [timesDone, cachedRequest, hc]
    | false =>
      cases hc' : (out.cachedRequest r q).completed with
      | true => simp [timesDone, hc, hc']
      | false => simp [timesDone, hc, hc']

theorem logged_newReqs : ∀ {rs : List NewRequestData} {sent : List ReqMeta} {requests : String → Option Request},
    Logged sent requests → (rs.map (·.reqId)).Nodup → (∀ r ∈ rs, requests r.reqId = none) →
    Logged (sent ++ rs.filterMap out.newCompletion) (rs.foldl out.advanceNew requests)
  | [], sent, requests, h, _, _ => by simpa using h
  | r :: rs, sent, requests, h, hnodup, hnew => by
    obtain ⟨hr, hnodup⟩ := List.nodup_cons.mp hnodup
    have h₁ := logged_newReqs (logged_new out h (hnew r List.mem_cons_self)) hnodup fun r' hr' => by
      have hne : r'.reqId ≠ r.reqId := fun heq => hr (List.mem_map.mpr ⟨r', hr', heq⟩)
      unfold advanceNew
      rw [Function.update_of_ne hne]
      exact hnew r' (List.mem_cons_of_mem r hr')
    rw [List.append_assoc] at h₁
    rw [List.foldl_cons, List.filterMap_cons]
    cases hcomp : out.newCompletion r with
    | none => simpa [hcomp] using h₁
    | some m => simpa [hcomp] using h₁

theorem logged_cachedReqs : ∀ {rs : List CachedRequest} {sent : List ReqMeta} {requests : String → Option Request}
    (base : String → Option Request), Logged sent requests → (rs.map (·.reqId)).Nodup →
    (∀ r ∈ rs, base r.reqId = requests r.reqId ∧ ∃ q, requests r.reqId = some q) →
    Logged (sent ++ rs.filterMap (out.cachedCompletion base)) (rs.foldl out.advanceCached requests)
  | [], sent, requests, base, h, _, _ => by simpa using h
  | r :: rs, sent, requests, base, h, hnodup, hval => by
    obtain ⟨hr, hnodup⟩ := List.nodup_cons.mp hnodup
    obtain ⟨hbase, q, hq⟩ := hval r List.mem_cons_self
    have h₁ := logged_cachedReqs base (logged_cached out h hq) hnodup fun r' hr' => by
      have hne : r'.reqId ≠ r.reqId := fun heq => hr (List.mem_map.mpr ⟨r', hr', heq⟩)
      unfold advanceCached
      rw [Function.update_of_ne hne]
      exact hval r' (List.mem_cons_of_mem r hr')
    have hsame : out.cachedCompletion base r = out.cachedCompletion requests r := by
      unfold cachedCompletion
      rw [hbase]
    rw [List.append_assoc, ← hsame] at h₁
    rw [List.foldl_cons, List.filterMap_cons]
    cases hcomp : out.cachedCompletion base r with
    | none => simpa [hcomp] using h₁
    | some m => simpa [hcomp] using h₁

theorem logged_step {out : SchedulerOutput} {sent : List ReqMeta} (h : Logged sent requests) (hvalid : out.valid requests = true) :
    Logged (sent ++ out.completions requests) (out.advance requests) := by
  obtain ⟨hnew, hcached, hdisj, hfresh, hval⟩ := valid_spec hvalid
  have h₁ := logged_newReqs out h hnew hfresh
  have hframe : ∀ r ∈ out.scheduledCachedReqs,
      requests r.reqId = out.scheduledNewReqs.foldl out.advanceNew requests r.reqId :=
    fun r hr => (advanceNew_frame out (hdisj _ (List.mem_map_of_mem hr))).symm
  have h₂ := logged_cachedReqs out requests h₁ hcached fun r hr => by
    obtain ⟨q, hq, -⟩ := hval r hr
    exact ⟨hframe r hr, q, by rw [← hframe r hr, hq]⟩
  rw [List.append_assoc] at h₂
  exact h₂

end

/-! ## Runs -/

structure ProducerInv (s : Producer) : Prop where
  tracks : Tracks s.conn s.requests
  logged : Logged s.sent s.requests

theorem bringsBlocks_spec {s : Producer} {out : SchedulerOutput} (h : bringsBlocks s (.build out) = true) :
    ∀ r ∈ out.scheduledCachedReqs, ∀ q, s.requests r.reqId = some q →
      q.completed = true ∨ out.cachedTokens r < q.prompt.length ∨ r.newBlockIds.isSome = true := by
  intro r hr q hq
  simp only [bringsBlocks, List.all_eq_true] at h
  have hb := h r hr
  rw [hq] at hb
  simpa [or_assoc] using hb

theorem ProducerInv.step {s s' : Producer} {e : ProducerEvent} (h : ProducerInv s) (hblocks : bringsBlocks s e = true)
    (hstep : s.step e = some s') : ProducerInv s' := by
  cases e with
  | build out =>
    simp only [Producer.step] at hstep
    split at hstep
    · rename_i hvalid
      obtain ⟨c', heq, h'⟩ := buildConnectorMeta_spec h.tracks hvalid (bringsBlocks_spec hblocks)
      rw [heq] at hstep
      cases hstep
      exact ⟨h', logged_step h.logged hvalid⟩
    · cases hstep
  | preempt id =>
    simp only [Producer.step] at hstep
    split at hstep
    · rename_i q hq
      split at hstep
      · rename_i hrun
        cases hstep
        refine ⟨tracks_same h.tracks ?_, ?_⟩
        · rw [h.tracks.2, hq]
          simp [remembered, hrun]
        · have := @logged_append _ _ h.logged none id { q with status := .preempted } nofun (by rw [hq]; rfl)
          simpa using this
      · cases hstep
    · cases hstep
  | finish id =>
    simp only [Producer.step] at hstep
    split at hstep
    · rename_i q hq
      split at hstep
      · cases hstep
      · cases hstep
        refine ⟨tracks_update h.tracks id ?_, ?_⟩
        · simp [remembered]
        · have := @logged_append _ _ h.logged none id { q with status := .finished } nofun (by rw [hq]; rfl)
          simpa using this
    · cases hstep

/-- In a run in which every step that completes a prompt brings block ids, each step hands on exactly the requests whose
prompt it completes, with all of their blocks, so that over the run each completed request is handed on once. -/
theorem completed_once (events : List ProducerEvent) (s : Producer)
    (hrun : runFrom Producer.step {} events = some s)
    (hblocks : Along Producer.step (fun s e => bringsBlocks s e = true) {} events) :
    (∀ id, s.sent.countP (fun m => m.requestId = id) =
      if (s.requests id).any (·.completed) then 1 else 0) ∧
    ∀ out, out.valid s.requests = true → bringsBlocks s (.build out) = true →
      ∃ conn, s.conn.buildConnectorMeta out = some (conn, out.completions s.requests) := by
  have hinit : ProducerInv {} := ⟨⟨rfl, fun _ => rfl⟩, fun _ => rfl⟩
  have h := run_invariant (fun s e s' hs hb hstep => hs.step hb hstep) hinit hblocks hrun
  refine ⟨fun id => ?_, fun out hvalid hb => ?_⟩
  · rw [h.logged id]
    cases s.requests id with
    | none => rfl
    | some q => rfl
  · obtain ⟨c', heq, -⟩ := buildConnectorMeta_spec h.tracks hvalid (bringsBlocks_spec hb)
    exact ⟨c', heq⟩

/-- A prompt of four tokens in two chunks, with a block for each. -/
def twoChunks : List ProducerEvent := [
  .build ⟨[⟨"a", some [1, 2, 3, 4], [[7]], 0⟩], [], [], fun _ => 2⟩,
  .build ⟨[], [⟨"a", some [[8]], 2⟩], [], fun _ => 2⟩]

theorem completed_once_twoChunks : ∃ s, runFrom Producer.step {} twoChunks = some s ∧ s.sent = [⟨"a", [7, 8], 4⟩] ∧
    s.sent.countP (fun m => m.requestId = "a") = 1 := by
  have hmap : (runFrom Producer.step {} twoChunks).map (fun s => (s.sent, (s.requests "a").any (·.completed))) =
      some ([⟨"a", [7, 8], 4⟩], true) := by decide +kernel
  obtain ⟨s, hs, hval⟩ := Option.map_eq_some_iff.mp hmap
  obtain ⟨hsent, hdone⟩ := Prod.mk.inj hval
  obtain ⟨hcount, -⟩ := completed_once twoChunks s hs (by decide +kernel)
  refine ⟨s, hs, hsent, ?_⟩
  rw [hcount "a", hdone]
  rfl

/-- The second chunk fits in the block that the request has, and the request is never handed on. -/
theorem completed_never_sent : ∃ s, runFrom Producer.step {} [
      .build ⟨[⟨"a", some [1, 2, 3, 4], [[7]], 0⟩], [], [], fun _ => 2⟩,
      .build ⟨[], [⟨"a", none, 2⟩], [], fun _ => 2⟩] = some s ∧
    (s.requests "a").any (·.completed) = true ∧ s.sent = [] := by
  have hmap : (runFrom Producer.step {} [
      .build ⟨[⟨"a", some [1, 2, 3, 4], [[7]], 0⟩], [], [], fun _ => 2⟩,
      .build ⟨[], [⟨"a", none, 2⟩], [], fun _ => 2⟩]).map
      (fun s => (s.sent, (s.requests "a").any (·.completed))) = some ([], true) := by decide +kernel
  obtain ⟨s, hs, hval⟩ := Option.map_eq_some_iff.mp hmap
  obtain ⟨hsent, hdone⟩ := Prod.mk.inj hval
  exact ⟨s, hs, hdone, hsent⟩

end VllmHcu.Du
