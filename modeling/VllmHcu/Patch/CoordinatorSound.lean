import VllmHcu.Patch.Coordinator
import VllmHcu.Patch.RegistrySound

/-!
# Payloads are called once

`begin` answers true once for a patch, so that a payload that is called after it
is called once. The one path that does not look at the answer is the creation of
a replacement: there a payload is resolved again where the patch was applied
after the check.
-/

namespace VllmHcu.Patch

/-! ## Frames -/

/-- The ids that a function may hand to the registry. -/
def Frame.ids : Frame → List String
  | .registeredCallback id => [id]
  | .registeredAgain id => [id]
  | .registeredArmed id => [id]
  | .registeredReplacement id => [id]
  | .replacementAgain id => [id]
  | .applyCallback id => [id]
  | .callback id => [id]
  | .moduleLoaded todo _ => todo
  | .moduleLoadFailed _ todo => todo
  | .loadFailedMark _ id todo => id :: todo
  | .create _ => []
  | .createBegin id => [id]
  | .createResolve id => [id]
  | .replacementLoaded _ => []
  | .replacementMark id _ => [id]
  | .replaceLoaded id => [id]
  | .replaceResolve id => [id]
  | .replaceMark id => [id]
  | .delegateExec _ => []
  | .install _ => []
  | .installActive _ todo => todo
  | .lateFail id _ => [id]
  | .drain todo => todo
  | .drainArmed id todo => id :: todo
  | .findSpec _ _ _ _ _ => []

/-- A `find_spec` that began after a failure has still to come to the entry that failed. -/
def FindOk (reg : PatchRegistry) : Frame → Prop
  | .findSpec _ stage all todo sawFailed =>
    sawFailed = true → (∃ id ∈ all, reg.life id = some .failed) ∧
      (stage = .applied ∨ stage = .applying ∨ stage = .failed ∧ ∃ id ∈ todo, reg.life id = some .failed)
  | _ => True

structure FrameOk (reg : PatchRegistry) (f : Frame) : Prop where
  stripped : ∀ id ∈ f.ids, strip id = id
  find : FindOk reg f

theorem failed_final : PatchStatus.final .failed := .inr (.inr rfl)

theorem failed_stays {reg reg' : PatchRegistry} (hmoves : ∀ k, Moves (reg.life k) (reg'.life k)) {id : String}
    (h : reg.life id = some .failed) : reg'.life id = some .failed := by
  have hm := hmoves id
  rw [h] at hm
  exact hm.of_final failed_final

theorem FrameOk.moves {reg reg' : PatchRegistry} (hmoves : ∀ k, Moves (reg.life k) (reg'.life k)) {f : Frame}
    (h : FrameOk reg f) : FrameOk reg' f := by
  refine ⟨h.stripped, ?_⟩
  have hfind := h.find
  cases f with
  | findSpec name stage all todo sawFailed =>
    intro hsaw
    obtain ⟨⟨id, hid, hl⟩, hstage⟩ := hfind hsaw
    refine ⟨⟨id, hid, failed_stays hmoves hl⟩, ?_⟩
    rcases hstage with h | h | ⟨h, id, hid, hl⟩
    · exact .inl h
    · exact .inr (.inl h)
    · exact .inr (.inr ⟨h, id, hid, failed_stays hmoves hl⟩)
  | _ => exact hfind

theorem unwind_ok {reg : PatchRegistry} {frames : List Frame} (h : ∀ f ∈ frames, FrameOk reg f) :
    ∀ f ∈ unwind frames, FrameOk reg f := by
  induction frames with
  | nil => exact nofun
  | cons f rest ih =>
    have hrest : ∀ g ∈ rest, FrameOk reg g := fun g hg => h g (List.mem_cons_of_mem _ hg)
    cases f with
    | moduleLoaded todo error =>
      intro g hg
      rcases List.mem_cons.mp hg with rfl | hg
      · have := h _ List.mem_cons_self
        exact ⟨this.stripped, trivial⟩
      · exact hrest g hg
    | _ =>
      simp only [unwind]
      split
      · exact h
      · exact ih hrest

namespace Coordinator

variable {s s' : Coordinator} {thread : Nat} {id : String}

theorem status?_eq (s : Coordinator) (id : String) : s.status? id = s.reg.life id := rfl

/-! ## The invariant -/

def isReplacement (m : String) (e : Entry) : Bool := e.moduleName = m && e.action = .replacement

structure Inv (s : Coordinator) : Prop where
  reg : RegistryInv s.reg
  stripped : ∀ e ∈ s.entries, strip e.patchId = e.patchId
  single : ∀ m, s.entries.countP (isReplacement m) ≤ 1
  calls : s.calls.Nodup
  called : ∀ id ∈ s.calls, s.reg.life id ≠ none ∧ s.reg.life id ≠ some .armed
  resolutions : s.resolutions.Nodup
  resolved : ∀ id ∈ s.resolutions, s.reg.life id ≠ none ∧ s.reg.life id ≠ some .armed
  frames : ∀ t, ∀ f ∈ s.threads t, FrameOk s.reg f
  leak : s.leak = false

theorem Inv.setStack (h : Inv s) {frames : List Frame} (hf : ∀ f ∈ frames, FrameOk s.reg f) : Inv (s.setStack thread frames) := by
  refine ⟨h.reg, h.stripped, h.single, h.calls, h.called, h.resolutions, h.resolved, fun t f hmem => ?_, h.leak⟩
  simp only [Coordinator.setStack] at hmem ⊢
  by_cases ht : t = thread
  · subst ht
    rw [Function.update_self] at hmem
    exact hf f hmem
  · rw [Function.update_of_ne ht] at hmem
    exact h.frames t f hmem

theorem Inv.raise (h : Inv s) {rest : List Frame} (hf : ∀ f ∈ rest, FrameOk s.reg f) : Inv (s.raise thread rest) :=
  h.setStack (unwind_ok hf)

theorem Inv.push (h : Inv s) {rest : List Frame} (hf : ∀ f ∈ rest, FrameOk s.reg f) {f : Frame}
    (hids : ∀ id ∈ f.ids, strip id = id) (hfind : FindOk s.reg f) : Inv (s.setStack thread (f :: rest)) := by
  refine h.setStack fun g hg => ?_
  rcases List.mem_cons.mp hg with rfl | hg
  · exact ⟨hids, hfind⟩
  · exact hf g hg

theorem Inv.withLoaders (h : Inv s) (resolved : List String) (loaders : List (String × LoaderKind)) :
    Inv { s with resolved, loaders } :=
  ⟨h.reg, h.stripped, h.single, h.calls, h.called, h.resolutions, h.resolved, h.frames, h.leak⟩

theorem mem_idsWith {name : String} {action : ImportAction} (h : Inv s) (hid : id ∈ s.idsWith name action) :
    strip id = id := by
  obtain ⟨e, he, rfl⟩ := List.mem_map.mp hid
  exact h.stripped e (List.mem_filter.mp he).1

/-! ## Registry calls -/

/-- A call for a stripped id keeps the invariant, whatever its outcome. -/
theorem Inv.registry (h : Inv s) (hid : strip id = id) {c : RegistryCall} {reg : PatchRegistry} {out : Outcome}
    (hp : s.reg.perform thread id c = some (reg, out)) :
    Inv { s with reg } ∧ (∀ k, Moves (s.reg.life k) (reg.life k)) ∧
      (out = .claimed true → s.reg.life id = some .armed ∧ reg.life id = some .applying) := by
  have heff := PatchRegistry.perform_effect h.reg (by simp [PatchRegistry.keyed, hid]) hp
  have hmoves := heff.moves_all
  rw [hid] at heff
  refine ⟨⟨heff.inv, h.stripped, h.single, h.calls, fun k hk => ?_, h.resolutions, fun k hk => ?_, fun t f hf => ?_, h.leak⟩,
    hmoves, heff.claim⟩
  · obtain ⟨hn, ha⟩ := h.called k hk
    exact (hmoves k).not_armed hn ha
  · obtain ⟨hn, ha⟩ := h.resolved k hk
    exact (hmoves k).not_armed hn ha
  · exact (h.frames t f hf).moves hmoves

theorem begin_outcome {reg reg' : PatchRegistry} {out : Outcome} (hid : strip id = id)
    (hp : reg.perform thread id .begin = some (reg', out)) :
    (∃ e, out = .raised e) ∨ out = .claimed true ∨
      out = .claimed false ∧ (reg.life id = some .applied ∨ reg.life id = some .skipped) := by
  simp only [PatchRegistry.perform] at hp
  split at hp
  · cases hp
  case h_2 ok reg₁ hb =>
    cases hp
    cases ok with
    | true => exact .inr (.inl rfl)
    | false =>
      refine .inr (.inr ⟨rfl, ?_⟩)
      obtain ⟨key, hkey, hb⟩ := bind_eq_ok.mp hb
      obtain rfl := PatchRegistry.validatePatchId_eq_ok hkey
      rw [hid] at hb
      split at hb
      · cases hb
      case h_2 r hr =>
        have hlife : reg.life id = some r.status := by simp [PatchRegistry.life, hr]
        split at hb
        · split at hb <;> cases hb
        · cases hb
        case h_3 hs =>
          rw [hlife, hs]
          exact .inl rfl
        case h_4 hs =>
          rw [hlife, hs]
          exact .inr rfl
        · cases hb
  · cases hp
    exact .inl ⟨_, rfl⟩

theorem Inv.stack (h : Inv s) {f : Frame} {rest : List Frame} (hstack : s.threads thread = f :: rest) :
    FrameOk s.reg f ∧ ∀ g ∈ rest, FrameOk s.reg g := by
  have hf := h.frames thread
  rw [hstack] at hf
  exact ⟨hf f List.mem_cons_self, fun g hg => hf g (List.mem_cons_of_mem _ hg)⟩

/-- A critical section of the registry: what follows keeps the invariant where it does so after the call. -/
theorem Inv.perform (h : Inv s) (hid : strip id = id) {c : RegistryCall} {next : Coordinator → Outcome → Coordinator}
    (hp : s.perform thread id c next = some s')
    (hnext : ∀ reg out, s.reg.perform thread id c = some (reg, out) → Inv { s with reg } →
      (out = .claimed true → s.reg.life id = some .armed ∧ reg.life id = some .applying) → Inv (next { s with reg } out)) :
    Inv s' := by
  obtain ⟨⟨reg, out⟩, hperform, rfl⟩ := Option.map_eq_some_iff.mp hp
  obtain ⟨hinv, -, hclaim⟩ := h.registry hid hperform
  exact hnext reg out hperform hinv hclaim

theorem Inv.raisedOr {out : Outcome} {raised ok : Coordinator} (h : Inv raised) (h' : Inv ok) :
    Inv (Coordinator.raisedOr out raised ok) := by
  unfold Coordinator.raisedOr
  split
  · exact h
  · exact h'

/-- A claim is the first one, so that the payload was not called before. -/
theorem Inv.logCall (h : Inv s) {reg : PatchRegistry} (h' : Inv { s with reg })
    (hclaim : s.reg.life id = some .armed ∧ reg.life id = some .applying) :
    Inv { s with reg, calls := id :: s.calls } := by
  have hnew : id ∉ s.calls := fun hmem => (h.called id hmem).2 hclaim.1
  refine ⟨h'.reg, h'.stripped, h'.single, List.nodup_cons.mpr ⟨hnew, h'.calls⟩, fun k hk => ?_, h'.resolutions, h'.resolved,
    h'.frames, h'.leak⟩
  rcases List.mem_cons.mp hk with rfl | hk
  · rw [hclaim.2]
    exact ⟨nofun, nofun⟩
  · exact h'.called k hk

theorem Inv.logResolution (h : Inv s) {reg : PatchRegistry} (h' : Inv { s with reg })
    (hclaim : s.reg.life id = some .armed ∧ reg.life id = some .applying) :
    Inv { s with reg, resolutions := id :: s.resolutions } := by
  have hnew : id ∉ s.resolutions := fun hmem => (h.resolved id hmem).2 hclaim.1
  refine ⟨h'.reg, h'.stripped, h'.single, h'.calls, h'.called, List.nodup_cons.mpr ⟨hnew, h'.resolutions⟩, fun k hk => ?_,
    h'.frames, h'.leak⟩
  rcases List.mem_cons.mp hk with rfl | hk
  · rw [hclaim.2]
    exact ⟨nofun, nofun⟩
  · exact h'.resolved k hk

/-! ## `find_spec` -/

section
variable {rest : List Frame} {name : String} {stage : FindStage} {all todo : List String} {sawFailed : Bool}

/-- A `find_spec` that saw a failure blocks before it comes to a loader. -/
theorem findOk_leak (h : Inv s) (hok : FindOk s.reg (.findSpec name stage all todo sawFailed))
    (hstage : stage = .active ∨ stage = .callbacks) : (s.leak || sawFailed) = false := by
  rw [h.leak]
  cases sawFailed with
  | false => rfl
  | true =>
    obtain ⟨-, hs | hs | ⟨hs, -⟩⟩ := hok rfl
    · rw [hs] at hstage
      exact hstage.elim nofun nofun
    · rw [hs] at hstage
      exact hstage.elim nofun nofun
    · rw [hs] at hstage
      exact hstage.elim nofun nofun

theorem Inv.withLeak (h : Inv s) {loaders : List (String × LoaderKind)} {leak : Bool} (hleak : leak = false) :
    Inv { s with loaders, leak } :=
  ⟨h.reg, h.stripped, h.single, h.calls, h.called, h.resolutions, h.resolved, h.frames, hleak⟩

theorem Inv.findStep (h : Inv s) (hstack : s.threads thread = .findSpec name stage all todo sawFailed :: rest) :
    Inv (s.findStep thread rest name stage all todo sawFailed) := by
  obtain ⟨⟨-, hfind⟩, hrest⟩ := h.stack hstack
  have hpop : Inv (s.setStack thread rest) := h.setStack hrest
  unfold Coordinator.findStep
  split
  case h_1 id todo =>
    split
    case h_1 hgo =>
      -- the entry that failed is not passed over
      refine h.push hrest nofun fun hsaw => ?_
      obtain ⟨hall, hstage⟩ := hfind hsaw
      refine ⟨hall, ?_⟩
      rcases hstage with hs | hs | ⟨hs, k, hk, hl⟩
      · exact .inl hs
      · exact .inr (.inl hs)
      · refine .inr (.inr ⟨hs, k, (List.mem_cons.mp hk).resolve_left ?_, hl⟩)
        rintro rfl
        rw [hs] at hgo
        simp [found, status?_eq, hl] at hgo
    · exact hpop
    case h_3 kind hfound =>
      refine hpop.withLeak (findOk_leak h hfind ?_)
      cases stage with
      | applied => simp only [found] at hfound; split at hfound <;> cases hfound
      | applying => simp only [found] at hfound; split at hfound <;> cases hfound
      | failed => simp only [found] at hfound; split at hfound <;> cases hfound
      | active => exact .inl rfl
      | callbacks => exact .inr rfl
  case h_2 =>
    cases stage with
    | applied =>
      refine h.push hrest nofun fun hsaw => ?_
      exact ⟨(hfind hsaw).1, .inr (.inl rfl)⟩
    | applying =>
      refine h.push hrest nofun fun hsaw => ?_
      exact ⟨(hfind hsaw).1, .inr (.inr ⟨rfl, (hfind hsaw).1⟩)⟩
    | failed =>
      refine h.push hrest nofun fun hsaw => ?_
      obtain ⟨-, hs | hs | ⟨-, k, hk, -⟩⟩ := hfind hsaw
      · cases hs
      · cases hs
      · cases hk
    | active =>
      refine h.push hrest nofun fun hsaw => ?_
      obtain ⟨-, hs | hs | ⟨hs, -⟩⟩ := hfind hsaw <;> cases hs
    | callbacks => exact hpop.withLeak (findOk_leak h hfind (.inr rfl))

end

/-! ## Steps -/

/-- Ids are given without spaces around them, and a replacement is not applied between the check of `_create_replacement`
and its `begin`. -/
def ready (s : Coordinator) (e : Nat × CoordinatorEvent) : Bool :=
  match e.2 with
  | .registerCallback patchId _ _ _ _ => strip patchId = patchId
  | .registerReplacement patchId _ _ _ _ _ => strip patchId = patchId
  | .step _ =>
    match s.threads e.1 with
    | .createBegin id :: _ => s.reg.life id ≠ some .applied && s.reg.life id ≠ some .skipped
    | _ => true
  | _ => true

section
variable {f : Frame} {rest : List Frame}

/-- The reload guard is installed, and the callbacks of the module are run. -/
theorem Inv.guarded (h : Inv s) (hrest : ∀ g ∈ rest, FrameOk s.reg g) (name : String) :
    Inv { s.setStack thread (.moduleLoaded (s.idsWith name .callback) false :: rest) with
      loaders := (name, .replacement) :: s.loaders } := by
  have hpush : Inv (s.setStack thread (.moduleLoaded (s.idsWith name .callback) false :: rest)) :=
    h.push hrest (fun k hk => mem_idsWith h hk) trivial
  exact hpush.withLeak h.leak

theorem Inv.applyCallback (h : Inv s) (hstack : s.threads thread = .applyCallback id :: rest) {loaded : Bool}
    (hstep : s.frameStep thread (.applyCallback id) rest loaded = some s') : Inv s' := by
  have hid : strip id = id := (h.stack hstack).1.stripped id (List.mem_singleton_self id)
  simp only [Coordinator.frameStep] at hstep
  refine h.perform hid hstep fun reg out _ h' hclaim => ?_
  have hrest := (h'.stack hstack).2
  split
  case h_1 =>
    exact (h.logCall h' (hclaim rfl)).push hrest (fun k hk => by rwa [List.mem_singleton.mp hk]) trivial
  · exact h'.setStack hrest
  · exact h'.raise hrest

theorem Inv.replaceLoaded (h : Inv s) (hstack : s.threads thread = .replaceLoaded id :: rest) {loaded : Bool}
    (hstep : s.frameStep thread (.replaceLoaded id) rest loaded = some s') : Inv s' := by
  have hid : strip id = id := (h.stack hstack).1.stripped id (List.mem_singleton_self id)
  simp only [Coordinator.frameStep] at hstep
  refine h.perform hid hstep fun reg out _ h' hclaim => ?_
  have hrest := (h'.stack hstack).2
  split
  case h_1 =>
    exact (h.logResolution h' (hclaim rfl)).push hrest (fun k hk => by rwa [List.mem_singleton.mp hk]) trivial
  · exact h'.setStack hrest
  · exact h'.raise hrest

/-- The creation of a replacement, where `begin` does not find it applied. -/
theorem Inv.createBegin (h : Inv s) (hstack : s.threads thread = .createBegin id :: rest) {loaded : Bool}
    (hready : s.ready (thread, .step loaded) = true)
    (hstep : s.frameStep thread (.createBegin id) rest loaded = some s') : Inv s' := by
  have hid : strip id = id := (h.stack hstack).1.stripped id (List.mem_singleton_self id)
  simp only [ready, hstack, Bool.and_eq_true, decide_eq_true_eq] at hready
  simp only [Coordinator.frameStep] at hstep
  refine h.perform hid hstep fun reg out hp h' hclaim => ?_
  have hrest := (h'.stack hstack).2
  obtain ⟨e, rfl⟩ | rfl | ⟨rfl, hl⟩ := begin_outcome hid hp
  · exact h'.raise hrest
  · exact (h.logResolution h' (hclaim rfl)).push hrest (fun k hk => by rwa [List.mem_singleton.mp hk]) trivial
  · exact (hl.elim hready.1 hready.2).elim

theorem Inv.frameStep (h : Inv s) (hstack : s.threads thread = f :: rest) {loaded : Bool}
    (hready : s.ready (thread, .step loaded) = true) (hstep : s.frameStep thread f rest loaded = some s') : Inv s' := by
  obtain ⟨⟨hids, -⟩, hrest⟩ := h.stack hstack
  have hpop : Inv (s.setStack thread rest) := h.setStack hrest
  have hraise : Inv (s.raise thread rest) := h.raise hrest
  -- a function called on top of `g`, or in the place of the one on top
  have hcall : ∀ {g : Frame}, (∀ k ∈ g.ids, strip k = k) → FindOk s.reg g → ∀ x ∈ g :: rest, FrameOk s.reg x := by
    intro g hg hfind x hx
    rcases List.mem_cons.mp hx with rfl | hx
    · exact ⟨hg, hfind⟩
    · exact hrest x hx
  cases f with
  | registeredCallback id =>
    cases hstep
    split
    · exact h.push hrest hids trivial
    · exact hpop
  | registeredAgain id =>
    cases hstep
    split
    · exact hraise
    · exact h.push hrest hids trivial
  | registeredArmed id =>
    cases hstep
    split
    · exact h.push hrest hids trivial
    · exact hpop
  | registeredReplacement id =>
    simp only [Coordinator.frameStep] at hstep
    split at hstep
    · cases hstep
      exact hpop
    split at hstep
    · cases hstep
      exact h.push hrest hids trivial
    · cases hstep
      exact h.push hrest hids trivial
  | replacementAgain id =>
    cases hstep
    split
    · exact hraise
    · exact hpop
  | applyCallback id => exact h.applyCallback hstack hstep
  | moduleLoaded todo error =>
    cases todo with
    | nil =>
      cases hstep
      split
      · exact hraise
      · exact hpop
    | cons id todo =>
      cases hstep
      have hnext := hcall (g := .moduleLoaded todo error) (fun k hk => hids k (List.mem_cons_of_mem _ hk)) trivial
      split
      · exact h.push hnext (fun k hk => hids k (by rw [List.mem_singleton.mp hk]; exact List.mem_cons_self)) trivial
      · exact h.setStack hnext
  | moduleLoadFailed error todo =>
    cases todo with
    | nil =>
      cases hstep
      exact hraise
    | cons id todo =>
      cases hstep
      split
      · exact h.push hrest hids trivial
      · exact h.push hrest (fun k hk => hids k (List.mem_cons_of_mem _ hk)) trivial
  | loadFailedMark error id todo =>
    simp only [Coordinator.frameStep] at hstep
    refine h.perform (hids id List.mem_cons_self) hstep fun reg out _ h' _ => ?_
    have hrest' := (h'.stack hstack).2
    exact (h'.raise hrest').raisedOr (h'.push hrest' (fun k hk => hids k (List.mem_cons_of_mem _ hk)) trivial)
  | create name =>
    simp only [Coordinator.frameStep] at hstep
    split at hstep
    · cases hstep
      exact hraise
    case h_2 id hhead =>
      cases hstep
      split
      · split
        · exact hpop
        · exact hraise
      · refine h.push hrest (fun k hk => ?_) trivial
        rw [List.mem_singleton.mp hk]
        exact mem_idsWith h (List.mem_of_mem_head? hhead)
  | createBegin id => exact h.createBegin hstack hready hstep
  | replacementLoaded name =>
    simp only [Coordinator.frameStep] at hstep
    split at hstep
    · cases hstep
      exact hraise
    case h_2 id hhead =>
      cases hstep
      split
      · refine h.push hrest (fun k hk => ?_) trivial
        rw [List.mem_singleton.mp hk]
        exact mem_idsWith h (List.mem_of_mem_head? hhead)
      · exact h.guarded hrest name
  | replacementMark id name =>
    simp only [Coordinator.frameStep] at hstep
    refine h.perform (hids id List.mem_cons_self) hstep fun reg out _ h' _ => ?_
    have hrest' := (h'.stack hstack).2
    exact (h'.raise hrest').raisedOr (h'.guarded hrest' _)
  | replaceLoaded id => exact h.replaceLoaded hstack hstep
  | replaceMark id =>
    simp only [Coordinator.frameStep] at hstep
    refine h.perform (hids id List.mem_cons_self) hstep fun reg out _ h' _ => ?_
    have hrest' := (h'.stack hstack).2
    exact (h'.raise hrest').raisedOr (h'.guarded hrest' _)
  | install names =>
    cases names with
    | nil =>
      cases hstep
      exact hpop
    | cons name names =>
      cases hstep
      have hnext := hcall (g := .install names) nofun trivial
      split
      · exact h.push hnext (fun k hk => mem_idsWith h hk) trivial
      · exact h.setStack hnext
  | installActive name todo =>
    cases todo with
    | nil =>
      cases hstep
      exact h.push hrest (fun k hk => mem_idsWith h hk) trivial
    | cons id todo =>
      have hone : ∀ k ∈ [id], strip k = k := fun k hk => hids k (by rw [List.mem_singleton.mp hk]; exact List.mem_cons_self)
      simp only [Coordinator.frameStep] at hstep
      split at hstep
      · split at hstep
        · cases hstep
          exact h.push hrest hone trivial
        · cases hstep
          exact h.push hrest hone trivial
      · cases hstep
        exact h.push hrest (fun k hk => hids k (List.mem_cons_of_mem _ hk)) trivial
  | lateFail id message =>
    simp only [Coordinator.frameStep] at hstep
    refine h.perform (hids id List.mem_cons_self) hstep fun reg out _ h' _ => ?_
    exact h'.raise (h'.stack hstack).2
  | drain todo =>
    cases todo with
    | nil =>
      cases hstep
      exact hpop
    | cons id todo =>
      cases hstep
      split
      · exact hraise
      · exact h.push hrest hids trivial
  | drainArmed id todo =>
    cases hstep
    have hnext := hcall (g := .drain todo) (fun k hk => hids k (List.mem_cons_of_mem _ hk)) trivial
    split
    · exact h.push hnext (fun k hk => hids k (by rw [List.mem_singleton.mp hk]; exact List.mem_cons_self)) trivial
    · exact h.setStack hnext
  | findSpec name stage all todo sawFailed =>
    cases hstep
    exact h.findStep hstack
  | callback id => cases hstep
  | createResolve id => cases hstep
  | replaceResolve id => cases hstep
  | delegateExec name => cases hstep

theorem Inv.payloadEnd (h : Inv s) (hstack : s.threads thread = f :: rest) {e : CoordinatorEvent}
    (hstep : s.payloadEnd thread f rest e = some s') : Inv s' := by
  obtain ⟨⟨hids, -⟩, hrest⟩ := h.stack hstack
  cases e with
  | returns =>
    cases f with
    | callback id =>
      simp only [Coordinator.payloadEnd] at hstep
      refine h.perform (hids id List.mem_cons_self) hstep fun reg out _ h' _ => ?_
      have hrest' := (h'.stack hstack).2
      exact (h'.raise hrest').raisedOr (h'.setStack hrest')
    | createResolve id =>
      cases hstep
      exact (h.setStack hrest).withLoaders _ _
    | replaceResolve id =>
      cases hstep
      have hpush : Inv (s.setStack thread (.replaceMark id :: rest)) := h.push hrest hids trivial
      exact hpush.withLoaders _ _
    | delegateExec name =>
      cases hstep
      exact h.push hrest (fun k hk => mem_idsWith h hk) trivial
    | _ => cases hstep
  | unavailable reason =>
    cases f with
    | callback id =>
      simp only [Coordinator.payloadEnd] at hstep
      refine h.perform (hids id List.mem_cons_self) hstep fun reg out _ h' _ => ?_
      have hrest' := (h'.stack hstack).2
      exact (h'.raise hrest').raisedOr (h'.setStack hrest')
    | _ => cases hstep
  | raises typeName message =>
    cases f with
    | callback id =>
      simp only [Coordinator.payloadEnd] at hstep
      refine h.perform (hids id List.mem_cons_self) hstep fun reg out _ h' _ => ?_
      exact h'.raise (h'.stack hstack).2
    | createResolve id =>
      simp only [Coordinator.payloadEnd] at hstep
      refine h.perform (hids id List.mem_cons_self) hstep fun reg out _ h' _ => ?_
      exact h'.raise (h'.stack hstack).2
    | replaceResolve id =>
      simp only [Coordinator.payloadEnd] at hstep
      refine h.perform (hids id List.mem_cons_self) hstep fun reg out _ h' _ => ?_
      exact h'.raise (h'.stack hstack).2
    | delegateExec name =>
      cases hstep
      exact h.push hrest (fun k hk => mem_idsWith h hk) trivial
    | _ => cases hstep
  | _ => cases hstep

end

/-! ## Calls of the coordinator -/

theorem Inv.withFeature (h : Inv s) (id : String) (featureEnabled : Bool) :
    Inv { s with entries := s.entries.map fun x => if x.patchId = id then { x with featureEnabled } else x } := by
  refine ⟨h.reg, fun e he => ?_, fun m => ?_, h.calls, h.called, h.resolutions, h.resolved, h.frames, h.leak⟩
  · obtain ⟨x, hx, rfl⟩ := List.mem_map.mp he
    have := h.stripped x hx
    split
    · exact this
    · exact this
  · rw [List.countP_map]
    refine Nat.le_trans (Nat.le_of_eq (List.countP_congr fun x _ => ?_)) (h.single m)
    simp only [Function.comp, isReplacement]
    split <;> rfl

theorem Inv.addEntry (h : Inv s) {e : Entry} (hid : strip e.patchId = e.patchId)
    (hnew : ¬(e.action = .replacement && s.entries.any fun x => x.moduleName = e.moduleName && x.action = .replacement) = true) :
    Inv { s with entries := s.entries ++ [e] } := by
  refine ⟨h.reg, fun x hx => ?_, fun m => ?_, h.calls, h.called, h.resolutions, h.resolved, h.frames, h.leak⟩
  · rcases List.mem_append.mp hx with hx | hx
    · exact h.stripped x hx
    · rw [List.mem_singleton.mp hx]
      exact hid
  · rw [List.countP_append]
    by_cases he : isReplacement m e = true
    · obtain ⟨hm, ha⟩ := Bool.and_eq_true_iff.mp he
      have hnone : s.entries.countP (isReplacement m) = 0 := by
        refine List.countP_eq_zero.mpr fun x hx hr => hnew ?_
        refine Bool.and_eq_true_iff.mpr ⟨ha, List.any_eq_true.mpr ⟨x, hx, ?_⟩⟩
        rw [of_decide_eq_true hm]
        exact hr
      have := List.countP_le_length (p := isReplacement m) (l := [e])
      simp only [List.length_singleton] at this
      omega
    · rw [List.countP_cons_of_neg he, List.countP_nil]
      exact h.single m

theorem Inv.register (h : Inv s) (thread : Nat) {e : Entry} (hid : strip e.patchId = e.patchId) : Inv (s.register thread e).1 := by
  unfold Coordinator.register
  split
  · split
    · exact h
    split
    · exact h
    split
    · exact h
    simp only
    split
    case h_1 reg r hp =>
      obtain ⟨h', -, -⟩ := h.registry hid hp
      exact h'.withFeature _ _
    · exact h.withFeature _ _
  · split
    · exact h
    case isFalse hnew =>
      split
      case h_1 reg r hp =>
        obtain ⟨h', -, -⟩ := h.registry hid hp
        split
        case h_1 reg' r' hp' =>
          obtain ⟨h'', -, -⟩ := h'.registry hid hp'
          exact h''.addEntry hid hnew
        · exact h'
      · exact h

theorem Inv.start (h : Inv s) {e : CoordinatorEvent} (hready : s.ready (thread, e) = true)
    (hstep : s.start thread e = some s') : Inv s' := by
  have hcall : ∀ {s : Coordinator}, Inv s → ∀ g : Frame, (∀ k ∈ g.ids, strip k = k) → FindOk s.reg g →
      Inv (s.setStack thread (g :: s.threads thread)) := fun hs g hids hfind => hs.push (hs.frames thread) hids hfind
  cases e with
  | registerCallback patchId moduleName targets payload featureEnabled =>
    have hid : strip patchId = patchId := of_decide_eq_true hready
    have hreg := h.register thread
      (e := ⟨patchId, moduleName, targets, .callback, payload, featureEnabled, .fail⟩) hid
    have hone : ∀ k ∈ [patchId], strip k = k := fun k hk => by rwa [List.mem_singleton.mp hk]
    simp only [Coordinator.start] at hstep
    split at hstep
    case h_1 heq =>
      cases hstep
      rwa [heq] at hreg
    case h_2 heq =>
      cases hstep
      rw [heq] at hreg
      exact hcall hreg _ hone trivial
    case h_3 heq =>
      cases hstep
      rw [heq] at hreg
      exact hcall hreg _ hone trivial
  | registerReplacement patchId moduleName targets payload featureEnabled latePolicy =>
    have hid : strip patchId = patchId := of_decide_eq_true hready
    have hreg := h.register thread
      (e := ⟨patchId, moduleName, targets, .replacement, payload, featureEnabled, latePolicy⟩) hid
    have hone : ∀ k ∈ [patchId], strip k = k := fun k hk => by rwa [List.mem_singleton.mp hk]
    simp only [Coordinator.start] at hstep
    split at hstep
    case h_1 heq =>
      cases hstep
      rwa [heq] at hreg
    case h_2 heq =>
      cases hstep
      rw [heq] at hreg
      exact hcall hreg _ hone trivial
    case h_3 heq =>
      cases hstep
      rw [heq] at hreg
      exact hcall hreg _ hone trivial
  | install =>
    simp only [Coordinator.start] at hstep
    split at hstep
    · cases hstep
      exact h
    · cases hstep
      have := hcall h (.install s.moduleNames) nofun trivial
      exact ⟨this.reg, this.stripped, this.single, this.calls, this.called, this.resolutions, this.resolved, this.frames,
        this.leak⟩
  | findSpec name reload =>
    cases hstep
    refine hcall h _ nofun fun hsaw => ?_
    obtain ⟨k, hk, hl⟩ := List.any_eq_true.mp hsaw
    refine ⟨⟨k, hk, of_decide_eq_true hl⟩, ?_⟩
    cases reload with
    | true => exact .inl rfl
    | false => exact .inr (.inl rfl)
  | createModule name =>
    simp only [Coordinator.start] at hstep
    split at hstep <;> cases hstep
    exact hcall h _ nofun trivial
  | execReplacement name =>
    simp only [Coordinator.start] at hstep
    split at hstep <;> cases hstep
    exact hcall h _ nofun trivial
  | execPostLoad name =>
    simp only [Coordinator.start] at hstep
    split at hstep <;> cases hstep
    exact hcall h _ nofun trivial
  | drainReadyCallbacks =>
    cases hstep
    refine hcall h _ (fun k hk => ?_) trivial
    obtain ⟨e, he, rfl⟩ := List.mem_map.mp hk
    exact h.stripped e (List.mem_filter.mp he).1
  | step loaded => cases hstep
  | returns => cases hstep
  | unavailable reason => cases hstep
  | raises typeName message => cases hstep

theorem Inv.step (h : Inv s) {e : Nat × CoordinatorEvent} (hready : s.ready e = true) (hstep : s.step e = some s') :
    Inv s' := by
  unfold Coordinator.step at hstep
  split at hstep
  · exact h.start hready hstep
  case h_2 f rest hstack =>
    split at hstep
    · cases hstart : s.start e.1 e.2 with
      | some s₁ =>
        rw [hstart] at hstep
        cases hstep
        exact h.start hready hstart
      | none =>
        rw [hstart] at hstep
        exact h.payloadEnd hstack hstep
    · split at hstep
      case h_1 loaded heq =>
        refine h.frameStep hstack ?_ hstep
        rw [← heq]
        exact hready
      · cases hstep

end Coordinator

/-- In a run in which ids have no spaces around them and no replacement is applied between the check of its creation and
`begin`: every callback is called at most once and every replacement resolved at most once, a module has at most one
replacement that is active, and a `find_spec` that begins after an entry of its module has failed blocks. -/
theorem payloads_once (events : List (Nat × CoordinatorEvent)) (s : Coordinator)
    (hrun : runFrom Coordinator.step {} events = some s)
    (hready : Along Coordinator.step (fun s e => s.ready e = true) {} events) :
    s.calls.Nodup ∧ s.resolutions.Nodup ∧
    (∀ m, s.entries.countP (fun e => Coordinator.isReplacement m e &&
      (s.status? e.patchId = some .armed || s.status? e.patchId = some .applied)) ≤ 1) ∧
    s.leak = false := by
  have hinit : Coordinator.Inv {} :=
    ⟨⟨fun _ => ⟨nofun, nofun⟩, nofun⟩, nofun, fun _ => Nat.zero_le _, List.nodup_nil, nofun, List.nodup_nil, nofun,
      fun _ => nofun, rfl⟩
  have h := run_invariant (fun s e s' hs hr hstep => hs.step hr hstep) hinit hready hrun
  refine ⟨h.calls, h.resolutions, fun m => ?_, h.leak⟩
  refine Nat.le_trans (List.countP_mono_left fun e _ he => ?_) (h.single m)
  exact (Bool.and_eq_true_iff.mp he).1

def steps (thread n : Nat) (loaded : Bool) : List (Nat × CoordinatorEvent) := List.replicate n (thread, .step loaded)

/-- A module is imported as its replacement, and a callback of it fails, so that the next import is blocked. -/
def replacedOnce : List (Nat × CoordinatorEvent) :=
  [(0, .registerReplacement "r" "m" ["m"] 0 true .fail)] ++ steps 0 1 false ++
  [(0, .registerCallback "c" "m" ["m"] 1 true)] ++ steps 0 1 false ++
  [(1, .findSpec "m" false)] ++ steps 1 7 false ++ [(1, .createModule "m")] ++ steps 1 2 false ++
  [(1, .returns), (1, .execReplacement "m")] ++ steps 1 4 false ++ [(1, .raises "ValueError" "")] ++ steps 1 1 false ++
  [(0, .findSpec "m" false)] ++ steps 0 5 false

theorem payloads_once_replacedOnce : ∃ s, runFrom Coordinator.step {} replacedOnce = some s ∧ s.resolutions = ["r"] ∧
    s.calls = ["c"] ∧ s.status? "c" = some .failed ∧ s.calls.Nodup ∧ s.resolutions.Nodup ∧ s.leak = false := by
  have hmap : (runFrom Coordinator.step {} replacedOnce).map (fun s => (s.resolutions, s.calls, s.status? "c")) =
      some (["r"], ["c"], some .failed) := by decide +kernel
  obtain ⟨s, hs, hval⟩ := Option.map_eq_some_iff.mp hmap
  simp only [Prod.mk.injEq] at hval
  obtain ⟨hr, hc, hf⟩ := hval
  obtain ⟨hcalls, hresolutions, -, hleak⟩ := payloads_once replacedOnce s hs (by decide +kernel)
  exact ⟨s, hs, hr, hc, hf, hcalls, hresolutions, hleak⟩

/-- `install` replaces a loaded module while another thread, which has evicted it, creates the replacement: the check finds
the patch armed, `begin` answers false, and the payload is resolved a second time. -/
theorem resolved_twice : ∃ s, runFrom Coordinator.step {} (
      [(0, .registerReplacement "r" "m" ["m"] 0 true .replace)] ++ steps 0 1 false ++
      [(0, .install)] ++ steps 0 2 true ++
      [(1, .findSpec "m" false)] ++ steps 1 5 false ++ [(1, .createModule "m")] ++ steps 1 1 false ++
      steps 0 1 false ++ [(0, .returns)] ++ steps 0 1 false ++ steps 1 1 false) = some s ∧
    s.resolutions = ["r", "r"] ∧ ¬s.resolutions.Nodup := by
  have hmap : (runFrom Coordinator.step {} (
      [(0, .registerReplacement "r" "m" ["m"] 0 true .replace)] ++ steps 0 1 false ++
      [(0, .install)] ++ steps 0 2 true ++
      [(1, .findSpec "m" false)] ++ steps 1 5 false ++ [(1, .createModule "m")] ++ steps 1 1 false ++
      steps 0 1 false ++ [(0, .returns)] ++ steps 0 1 false ++ steps 1 1 false)).map (·.resolutions) =
      some ["r", "r"] := by decide +kernel
  obtain ⟨s, hs, hval⟩ := Option.map_eq_some_iff.mp hmap
  exact ⟨s, hs, hval, by rw [hval]; decide⟩

end VllmHcu.Patch
