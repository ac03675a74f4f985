import Mathlib.Data.List.Nodup
import VllmHcu.Patch.Coordinator
import VllmHcu.Patch.RegistrySound

/-!
# Refused flags

The entry is written before the registry is asked, so that a refused flag stays
in the entry. Where every flag that is set is accepted, or is the flag of the
entry already, the entry and the record agree in every state.
-/

namespace VllmHcu.Patch

/-! ## Calls of the registry -/

namespace PatchRegistry

section
variable {reg reg' : PatchRegistry} {patchId : String}

theorem setFeatureEnabled_taken (h : reg.takesFeature patchId = true) (enabled : Bool) :
    ∃ record : PatchRecord, record.featureEnabled = enabled ∧
      reg.setFeatureEnabled patchId enabled = .ok (record, reg.setRecord patchId record) := by
  unfold takesFeature at h
  split at h
  case h_1 record hrecord =>
    refine ⟨{ record with featureEnabled := enabled }, rfl, ?_⟩
    simp only [Bool.or_eq_true, decide_eq_true_eq, or_assoc] at h
    unfold setFeatureEnabled
    rw [hrecord]
    exact if_pos h
  · cases h

theorem setFeatureEnabled_refused (h : reg.takesFeature patchId = false) (enabled : Bool) :
    ∃ e, reg.setFeatureEnabled patchId enabled = .error e := by
  unfold takesFeature at h
  unfold setFeatureEnabled
  split at h
  case h_1 record hrecord =>
    refine ⟨.featureState record.status, ?_⟩
    simp only [Bool.or_eq_false_iff, decide_eq_false_iff_not, and_assoc] at h
    rw [hrecord]
    exact if_neg (by simpa using h)
  case h_2 e hrecord =>
    rw [hrecord]
    exact ⟨e, rfl⟩

end

end PatchRegistry

/-- The flag of the record is in use. -/
def PatchRecord.live (record : PatchRecord) : Prop := record.status = .armed ∨ record.status = .applied

/-- No record is lost, and one that is in use afterwards is as it was, or was marked with the flag that the call gives. -/
def Keeps (patchId : String) (c : RegistryCall) (reg reg' : PatchRegistry) : Prop :=
  ∀ k record, reg.records k = some record → ∃ record', reg'.records k = some record' ∧
    (record'.live → record' = record ∨ k = patchId ∧ c = .markApplied record'.featureEnabled)

section
variable {reg reg' : PatchRegistry} {patchId key : String} {c : RegistryCall}

theorem Keeps.refl : Keeps patchId c reg reg := fun _ record h => ⟨record, h, fun _ => .inl rfl⟩

theorem Keeps.update {record : PatchRecord} {owners : String → Option Nat}
    (h : record.live → key = patchId ∧ c = .markApplied record.featureEnabled) :
    Keeps patchId c reg ⟨Function.update reg.records key (some record), owners⟩ := by
  intro k old hold
  by_cases hk : k = key
  · subst hk
    exact ⟨record, Function.update_self .., fun hlive => .inr (h hlive)⟩
  · exact ⟨old, by simpa [Function.update_of_ne hk] using hold, fun _ => .inl rfl⟩

theorem Keeps.settle {x : Except RegistryError (PatchRecord × PatchRegistry)} {out : Outcome}
    (hp : some (reg.settle x) = some (reg', out)) (hx : ∀ record reg', x = .ok (record, reg') → Keeps patchId c reg reg') :
    Keeps patchId c reg reg' := by
  cases x with
  | error e =>
    cases hp
    exact .refl
  | ok p =>
    cases hp
    exact hx p.1 p.2 rfl

namespace PatchRegistry

theorem declare_keeps {targets : List String} {record : PatchRecord} (h : reg.declare patchId targets = .ok (record, reg')) :
    Keeps patchId c reg reg' := by
  obtain ⟨key, -, h⟩ := bind_eq_ok.mp h
  obtain ⟨targets, -, h⟩ := bind_eq_ok.mp h
  split at h
  · split at h
    · cases h
      exact .refl
    · cases h
  case h_2 hnone =>
    cases h
    -- a new record takes the place of no other
    intro k old hold
    have hk : k ≠ key := fun heq => by
      rw [heq, hnone] at hold
      cases hold
    exact ⟨old, by simpa [setRecord, Function.update_of_ne hk] using hold, fun _ => .inl rfl⟩

theorem begin_keeps {thread : Nat} {ok : Bool} (h : reg.begin thread patchId = .ok (some (ok, reg'))) :
    Keeps patchId c reg reg' := by
  obtain ⟨key, -, h⟩ := bind_eq_ok.mp h
  split at h
  · cases h
  split at h
  · split at h <;> cases h
  · cases h
  · cases h
    exact .refl
  · cases h
    exact .refl
  · cases h
    exact .update fun hlive => by simp [PatchRecord.live] at hlive

theorem markApplied_keeps {featureEnabled : Bool} {record : PatchRecord}
    (h : reg.markApplied patchId featureEnabled = .ok (record, reg')) :
    Keeps patchId (.markApplied featureEnabled) reg reg' := by
  obtain ⟨old, -, h⟩ := bind_eq_ok.mp h
  split at h
  · cases h
    exact .refl
  split at h
  · cases h
  · cases h
    exact .update fun _ => ⟨rfl, rfl⟩

theorem markSkipped_keeps {reason : Option String} {record : PatchRecord}
    (h : reg.markSkipped patchId reason = .ok (record, reg')) : Keeps patchId c reg reg' := by
  obtain ⟨old, -, h⟩ := bind_eq_ok.mp h
  split at h
  · cases h
    exact .refl
  split at h
  · cases h
  · cases h
    exact .update fun hlive => by simp [PatchRecord.live] at hlive

theorem markFailed_keeps {error : Failure} {record : PatchRecord}
    (h : reg.markFailed patchId error = .ok (record, reg')) : Keeps patchId c reg reg' := by
  obtain ⟨reason, -, h⟩ := bind_eq_ok.mp h
  obtain ⟨old, -, h⟩ := bind_eq_ok.mp h
  split at h
  · cases h
    exact .refl
  split at h
  · cases h
  · cases h
    exact .update fun hlive => by simp [PatchRecord.live] at hlive

theorem perform_keeps {thread : Nat} {out : Outcome} (hc : ∀ enabled, c ≠ .setFeatureEnabled enabled)
    (hp : reg.perform thread patchId c = some (reg', out)) : Keeps patchId c reg reg' := by
  cases c with
  | declare targets => exact .settle hp fun _ _ => declare_keeps
  | begin =>
    simp only [perform] at hp
    split at hp
    · cases hp
    case h_2 hb =>
      cases hp
      exact begin_keeps hb
    · cases hp
      exact .refl
  | markApplied featureEnabled => exact .settle hp fun _ _ => markApplied_keeps
  | markSkipped reason => exact .settle hp fun _ _ => markSkipped_keeps
  | markFailed error => exact .settle hp fun _ _ => markFailed_keeps
  | setFeatureEnabled enabled => exact absurd rfl (hc enabled)
  | get =>
    cases hp
    exact .refl

end PatchRegistry

end

namespace Coordinator

variable {s s' : Coordinator} {thread : Nat} {patchId : String} {enabled : Bool}

/-! ## Calls that raise -/

theorem entry?_mem {e : Entry} (he : s.entry? patchId = some e) : e ∈ s.entries ∧ e.patchId = patchId :=
  ⟨List.mem_of_find?_eq_some he, by simpa using List.find?_some he⟩

theorem entry?_of_mem (hdistinct : (s.entries.map (·.patchId)).Nodup) {e : Entry} (he : e ∈ s.entries) :
    s.entry? e.patchId = some e := by
  have hsome : (s.entry? e.patchId).isSome := List.find?_isSome.mpr ⟨e, he, by simp⟩
  obtain ⟨e', he'⟩ := Option.isSome_iff_exists.mp hsome
  obtain ⟨hmem, hid⟩ := entry?_mem he'
  rw [he', List.inj_on_of_nodup_map hdistinct hmem he hid]

@[simp] theorem setEntryFeature_reg (s : Coordinator) (patchId : String) (enabled : Bool) :
    (s.setEntryFeature patchId enabled).reg = s.reg := rfl

/-- Writing the flag of an entry changes nothing where the entry has the flag. -/
theorem setEntryFeature_entries_iff (hdistinct : (s.entries.map (·.patchId)).Nodup) {e : Entry}
    (he : s.entry? patchId = some e) : (s.setEntryFeature patchId enabled).entries = s.entries ↔ e.featureEnabled = enabled := by
  obtain ⟨hmem, hid⟩ := entry?_mem he
  have hmap := List.map_inj_left (l := s.entries) (g := id)
    (f := fun x => if x.patchId = patchId then { x with featureEnabled := enabled } else x)
  rw [List.map_id] at hmap
  refine hmap.trans ⟨fun h => ?_, fun h x hx => ?_⟩
  · have hsame := h e hmem
    rw [if_pos hid] at hsame
    exact (congrArg Entry.featureEnabled hsame).symm
  · split
    case isTrue hx' =>
      have hxe := entry?_of_mem hdistinct hx
      rw [hx', he] at hxe
      cases hxe
      rw [← h]
      rfl
    · rfl

/-- The call raises, or leaves the entries and the registry as they were. -/
def Atomic {α : Type} (s : Coordinator) (result : Coordinator × Option α) : Prop :=
  result.2 = none → result.1.entries = s.entries ∧ result.1.reg = s.reg

theorem setFeatureEnabled_atomic_iff (hdistinct : (s.entries.map (·.patchId)).Nodup) :
    s.Atomic (s.setFeatureEnabled thread patchId enabled) ↔ s.accepts patchId enabled = true := by
  unfold accepts setFeatureEnabled
  cases he : s.entry? patchId with
  | none => simp [Atomic]
  | some e =>
    cases ht : s.reg.takesFeature patchId with
    | true =>
      obtain ⟨record, -, htaken⟩ := PatchRegistry.setFeatureEnabled_taken ht enabled
      have hperform : (s.setEntryFeature patchId enabled).reg.perform thread patchId (.setFeatureEnabled enabled) =
          some (s.reg.setRecord patchId record, .record (some record)) := by
        simp [PatchRegistry.perform, PatchRegistry.settle, setEntryFeature, htaken]
      simp only [hperform]
      simp [Atomic]
    | false =>
      obtain ⟨error, hrefused⟩ := PatchRegistry.setFeatureEnabled_refused ht enabled
      have hperform : (s.setEntryFeature patchId enabled).reg.perform thread patchId (.setFeatureEnabled enabled) =
          some (s.reg, .raised error) := by
        simp [PatchRegistry.perform, PatchRegistry.settle, setEntryFeature, hrefused]
      have hentries := @setEntryFeature_entries_iff s patchId enabled hdistinct e he
      simp only [hperform]
      simp [Atomic, hentries, setEntryFeature_reg]

/-- A registration that is made again with another flag sets the flag as `set_feature_enabled` does. -/
theorem register_again {e existing : Entry} (he : s.entry? e.patchId = some existing)
    (hflag : existing.featureEnabled ≠ e.featureEnabled) :
    s.register thread e = if s.conflicts e then (s, none)
      else ((s.setFeatureEnabled thread e.patchId e.featureEnabled).1,
        (s.setFeatureEnabled thread e.patchId e.featureEnabled).2.map fun _ => false) := by
  unfold register conflicts setFeatureEnabled
  rw [he]
  simp only [Option.any_some, Bool.or_eq_true, decide_eq_true_eq]
  by_cases hsame : existing.same e = true
  · by_cases hfailed : s.status? e.patchId = some .failed
    · simp [hsame, hfailed]
    · simp only [hsame, hfailed, hflag, Bool.not_true, or_self, if_false, Bool.false_eq_true]
      rw [setEntryFeature_reg]
      cases s.reg.perform thread e.patchId (.setFeatureEnabled e.featureEnabled) with
      | none => rfl
      | some p =>
        obtain ⟨reg, out⟩ := p
        cases out with
        | raised error => rfl
        | record record => rfl
        | claimed ok => rfl
  · simp [hsame]

theorem register_atomic_iff (hdistinct : (s.entries.map (·.patchId)).Nodup) {e existing : Entry}
    (he : s.entry? e.patchId = some existing) (hflag : existing.featureEnabled ≠ e.featureEnabled) :
    s.Atomic (s.register thread e) ↔ s.conflicts e = true ∨ s.reg.takesFeature e.patchId = true := by
  have haccepts : s.accepts e.patchId e.featureEnabled = s.reg.takesFeature e.patchId := by
    simp [accepts, he, hflag]
  rw [register_again he hflag, ← haccepts, ← @setFeatureEnabled_atomic_iff s thread _ _ hdistinct]
  by_cases hc : s.conflicts e = true
  · simp [hc, Atomic]
  · simp [hc, Atomic]

/-! ## Steps -/

structure Agree (s : Coordinator) : Prop where
  distinct : (s.entries.map (·.patchId)).Nodup
  recorded : ∀ e ∈ s.entries, ∃ record, s.reg.records e.patchId = some record ∧
    (record.live → record.featureEnabled = e.featureEnabled)

/-- What a step does that sets no flag: it leaves the entries, and calls the registry at most once; a mark is given the
flag of the entry. -/
inductive Writes (s : Coordinator) (thread : Nat) (s' : Coordinator) : Prop
  | nothing (hentries : s'.entries = s.entries) (hreg : s'.reg = s.reg)
  | call (id : String) (c : RegistryCall) (out : Outcome) (hentries : s'.entries = s.entries)
      (hperform : s.reg.perform thread id c = some (s'.reg, out)) (hset : ∀ enabled, c ≠ .setFeatureEnabled enabled)
      (hmark : ∀ flag, c = .markApplied flag → flag = (s.entry? id).any (·.featureEnabled))

theorem Agree.writes (h : Agree s) (hw : Writes s thread s') : Agree s' := by
  cases hw with
  | nothing hentries hreg => exact ⟨hentries ▸ h.distinct, by rw [hentries, hreg]; exact h.recorded⟩
  | call id c out hentries hperform hset hmark =>
    refine ⟨hentries ▸ h.distinct, fun e he => ?_⟩
    rw [hentries] at he
    obtain ⟨record, hrecord, hflag⟩ := h.recorded e he
    obtain ⟨record', hrecord', hkept⟩ := PatchRegistry.perform_keeps hset hperform _ _ hrecord
    refine ⟨record', hrecord', fun hlive => ?_⟩
    obtain rfl | ⟨hid, hc⟩ := hkept hlive
    · exact hflag hlive
    · rw [hmark _ hc, ← hid, entry?_of_mem h.distinct he]
      rfl

theorem setStack_writes (frames : List Frame) : Writes s thread (s.setStack thread frames) := .nothing rfl rfl

theorem raise_writes (rest : List Frame) : Writes s thread (s.raise thread rest) := .nothing rfl rfl

theorem perform_writes {id : String} {c : RegistryCall} {next : Coordinator → Outcome → Coordinator}
    (hp : s.perform thread id c next = some s') (hset : ∀ enabled, c ≠ .setFeatureEnabled enabled)
    (hmark : ∀ flag, c = .markApplied flag → flag = (s.entry? id).any (·.featureEnabled))
    (hnext : ∀ s out, (next s out).entries = s.entries ∧ (next s out).reg = s.reg) : Writes s thread s' := by
  obtain ⟨⟨reg, out⟩, hperform, rfl⟩ := Option.map_eq_some_iff.mp hp
  obtain ⟨hentries, hreg⟩ := hnext { s with reg } out
  refine .call id c out hentries ?_ hset hmark
  rw [hreg]
  exact hperform

theorem raisedOr_same {t raised ok : Coordinator} {out : Outcome} (hraised : raised.entries = t.entries ∧ raised.reg = t.reg)
    (hok : ok.entries = t.entries ∧ ok.reg = t.reg) :
    (raisedOr out raised ok).entries = t.entries ∧ (raisedOr out raised ok).reg = t.reg := by
  cases out with
  | raised error => exact hraised
  | record record => exact hok
  | claimed ok' => exact hok

theorem findStep_writes {rest : List Frame} {name : String} {stage : FindStage} {all todo : List String} {sawFailed : Bool} :
    Writes s thread (s.findStep thread rest name stage all todo sawFailed) := by
  unfold findStep
  split
  · split
    · exact setStack_writes _
    · exact setStack_writes _
    · exact .nothing rfl rfl
  · split
    · exact setStack_writes _
    · exact .nothing rfl rfl

theorem frameStep_writes {f : Frame} {rest : List Frame} {loaded : Bool} (hstep : s.frameStep thread f rest loaded = some s') :
    Writes s thread s' := by
  cases f with
  | registeredCallback id =>
    cases hstep
    exact setStack_writes _
  | registeredAgain id =>
    cases hstep
    split
    · exact raise_writes _
    · exact setStack_writes _
  | registeredArmed id =>
    cases hstep
    exact setStack_writes _
  | registeredReplacement id =>
    simp only [frameStep] at hstep
    split at hstep
    · cases hstep
      exact setStack_writes _
    · split at hstep
      · cases hstep
        exact setStack_writes _
      · cases hstep
        exact setStack_writes _
  | replacementAgain id =>
    cases hstep
    split
    · exact raise_writes _
    · exact setStack_writes _
  | applyCallback id =>
    simp only [frameStep] at hstep
    refine perform_writes hstep nofun nofun (fun t out => ?_)
    cases out with
    | raised error => exact ⟨rfl, rfl⟩
    | record record => exact ⟨rfl, rfl⟩
    | claimed ok => cases ok <;> exact ⟨rfl, rfl⟩
  | moduleLoaded todo error =>
    cases todo with
    | nil =>
      cases hstep
      split
      · exact raise_writes _
      · exact setStack_writes _
    | cons id todo =>
      cases hstep
      exact setStack_writes _
  | moduleLoadFailed error todo =>
    cases todo with
    | nil =>
      cases hstep
      exact raise_writes _
    | cons id todo =>
      cases hstep
      exact setStack_writes _
  | loadFailedMark error id todo =>
    simp only [frameStep] at hstep
    exact perform_writes hstep nofun nofun (fun t out => raisedOr_same ⟨rfl, rfl⟩ ⟨rfl, rfl⟩)
  | create name =>
    simp only [frameStep] at hstep
    split at hstep
    · cases hstep
      exact raise_writes _
    · cases hstep
      split
      · split
        · exact setStack_writes _
        · exact raise_writes _
      · exact setStack_writes _
  | createBegin id =>
    simp only [frameStep] at hstep
    exact perform_writes hstep nofun nofun (fun t out => raisedOr_same ⟨rfl, rfl⟩ ⟨rfl, rfl⟩)
  | replacementLoaded name =>
    simp only [frameStep] at hstep
    split at hstep
    · cases hstep
      exact raise_writes _
    · cases hstep
      split
      · exact setStack_writes _
      · exact .nothing rfl rfl
  | replacementMark id name =>
    simp only [frameStep] at hstep
    refine perform_writes hstep nofun (fun flag hflag => ?_) (fun t out => raisedOr_same ⟨rfl, rfl⟩ ⟨rfl, rfl⟩)
    cases hflag
    rfl
  | replaceLoaded id =>
    simp only [frameStep] at hstep
    refine perform_writes hstep nofun nofun (fun t out => ?_)
    cases out with
    | raised error => exact ⟨rfl, rfl⟩
    | record record => exact ⟨rfl, rfl⟩
    | claimed ok => cases ok <;> exact ⟨rfl, rfl⟩
  | replaceMark id =>
    simp only [frameStep] at hstep
    refine perform_writes hstep nofun (fun flag hflag => ?_) (fun t out => raisedOr_same ⟨rfl, rfl⟩ ⟨rfl, rfl⟩)
    cases hflag
    rfl
  | install names =>
    cases names with
    | nil =>
      cases hstep
      exact setStack_writes _
    | cons name names =>
      cases hstep
      exact setStack_writes _
  | installActive name todo =>
    cases todo with
    | nil =>
      cases hstep
      exact setStack_writes _
    | cons id todo =>
      simp only [frameStep] at hstep
      split at hstep
      · split at hstep
        · cases hstep
          exact setStack_writes _
        · cases hstep
          exact setStack_writes _
      · cases hstep
        exact setStack_writes _
  | lateFail id message =>
    simp only [frameStep] at hstep
    exact perform_writes hstep nofun nofun (fun t out => ⟨rfl, rfl⟩)
  | drain todo =>
    cases todo with
    | nil =>
      cases hstep
      exact setStack_writes _
    | cons id todo =>
      cases hstep
      split
      · exact raise_writes _
      · exact setStack_writes _
  | drainArmed id todo =>
    cases hstep
    exact setStack_writes _
  | findSpec name stage all todo sawFailed =>
    cases hstep
    exact findStep_writes
  | callback id => cases hstep
  | createResolve id => cases hstep
  | replaceResolve id => cases hstep
  | delegateExec name => cases hstep

theorem payloadEnd_writes {f : Frame} {rest : List Frame} {e : CoordinatorEvent}
    (hstep : s.payloadEnd thread f rest e = some s') : Writes s thread s' := by
  cases e with
  | returns =>
    cases f with
    | callback id =>
      simp only [payloadEnd] at hstep
      refine perform_writes hstep nofun (fun flag hflag => ?_) (fun t out => raisedOr_same ⟨rfl, rfl⟩ ⟨rfl, rfl⟩)
      cases hflag
      rfl
    | createResolve id =>
      cases hstep
      exact .nothing rfl rfl
    | replaceResolve id =>
      cases hstep
      exact .nothing rfl rfl
    | delegateExec name =>
      cases hstep
      exact setStack_writes _
    | _ => cases hstep
  | unavailable reason =>
    cases f with
    | callback id =>
      simp only [payloadEnd] at hstep
      exact perform_writes hstep nofun nofun (fun t out => raisedOr_same ⟨rfl, rfl⟩ ⟨rfl, rfl⟩)
    | _ => cases hstep
  | raises typeName message =>
    cases f with
    | callback id =>
      simp only [payloadEnd] at hstep
      exact perform_writes hstep nofun nofun (fun t out => ⟨rfl, rfl⟩)
    | createResolve id =>
      simp only [payloadEnd] at hstep
      exact perform_writes hstep nofun nofun (fun t out => ⟨rfl, rfl⟩)
    | replaceResolve id =>
      simp only [payloadEnd] at hstep
      exact perform_writes hstep nofun nofun (fun t out => ⟨rfl, rfl⟩)
    | delegateExec name =>
      cases hstep
      exact setStack_writes _
    | _ => cases hstep
  | _ => cases hstep

/-! ## Flags that are set -/

theorem setRecord_of_perform {reg reg' : PatchRegistry} {record : Option PatchRecord}
    (hp : reg.perform thread patchId (.setFeatureEnabled enabled) = some (reg', .record record)) :
    ∃ r : PatchRecord, r.featureEnabled = enabled ∧ reg' = reg.setRecord patchId r := by
  simp only [PatchRegistry.perform] at hp
  cases ht : reg.takesFeature patchId with
  | true =>
    obtain ⟨r, hr, htaken⟩ := PatchRegistry.setFeatureEnabled_taken ht enabled
    rw [htaken] at hp
    cases hp
    exact ⟨r, hr, rfl⟩
  | false =>
    obtain ⟨e, hrefused⟩ := PatchRegistry.setFeatureEnabled_refused ht enabled
    rw [hrefused] at hp
    cases hp

theorem Agree.setBoth (h : Agree s) {record : PatchRecord} (hflag : record.featureEnabled = enabled) :
    Agree { s.setEntryFeature patchId enabled with reg := s.reg.setRecord patchId record } := by
  refine ⟨?_, fun e he => ?_⟩
  · have hids : (s.setEntryFeature patchId enabled).entries.map (·.patchId) = s.entries.map (·.patchId) := by
      rw [setEntryFeature, List.map_map]
      refine List.map_congr_left fun x _ => ?_
      simp only [Function.comp]
      split <;> rfl
    exact hids ▸ h.distinct
  · obtain ⟨x, hx, rfl⟩ := List.mem_map.mp he
    split
    case isTrue hid =>
      rw [hid]
      exact ⟨record, Function.update_self .., fun _ => hflag⟩
    case isFalse hid =>
      obtain ⟨r, hr, hrflag⟩ := h.recorded x hx
      exact ⟨r, by simpa [PatchRegistry.setRecord, Function.update_of_ne hid] using hr, hrflag⟩

theorem Agree.setFeatureEnabled (h : Agree s) (haccepts : s.accepts patchId enabled = true) :
    Agree (s.setFeatureEnabled thread patchId enabled).1 := by
  unfold Coordinator.setFeatureEnabled
  cases he : s.entry? patchId with
  | none => exact h
  | some e =>
    simp only [setEntryFeature_reg]
    split
    case h_1 reg record hp =>
      obtain ⟨r, hflag, rfl⟩ := setRecord_of_perform hp
      exact h.setBoth hflag
    case h_2 hp =>
      -- the registry has refused, so that the entry has the flag already
      have hrefused : s.reg.takesFeature patchId = false := by
        by_contra ht
        obtain ⟨r, -, htaken⟩ := PatchRegistry.setFeatureEnabled_taken (by simpa using ht) enabled
        exact hp _ _ (by rw [PatchRegistry.perform, htaken]; rfl)
      have hflag : e.featureEnabled = enabled := by simpa [accepts, he, hrefused] using haccepts
      exact h.writes (.nothing ((setEntryFeature_entries_iff h.distinct he).mpr hflag) rfl : Writes s thread _)

theorem Agree.addEntry (h : Agree s) {e : Entry} (hnew : s.entry? e.patchId = none) {record : PatchRecord}
    (hflag : record.featureEnabled = e.featureEnabled) :
    Agree { s with reg := s.reg.setRecord e.patchId record, entries := s.entries ++ [e] } := by
  have hne : ∀ x ∈ s.entries, x.patchId ≠ e.patchId := by simpa using List.find?_eq_none.mp hnew
  refine ⟨?_, fun x hx => ?_⟩
  · simp only [List.map_append, List.map_cons, List.map_nil, List.nodup_append]
    refine ⟨h.distinct, List.nodup_singleton _, fun a ha b hb => ?_⟩
    obtain ⟨x, hx, rfl⟩ := List.mem_map.mp ha
    rw [List.mem_singleton.mp hb]
    exact hne x hx
  · obtain hx | hx := List.mem_append.mp hx
    · obtain ⟨r, hr, hrflag⟩ := h.recorded x hx
      exact ⟨r, by simpa [PatchRegistry.setRecord, Function.update_of_ne (hne x hx)] using hr, hrflag⟩
    · rw [List.mem_singleton.mp hx]
      exact ⟨record, Function.update_self .., fun _ => hflag⟩

theorem register_known {e existing : Entry} (he : s.entry? e.patchId = some existing)
    (hflag : existing.featureEnabled = e.featureEnabled) : (s.register thread e).1 = s := by
  unfold register
  rw [he]
  simp only [hflag, if_true]
  split
  · rfl
  · split <;> rfl

theorem Agree.register (h : Agree s) {e : Entry} (hok : (s.conflicts e || s.accepts e.patchId e.featureEnabled) = true) :
    Agree (s.register thread e).1 := by
  cases he : s.entry? e.patchId with
  | some existing =>
    by_cases hflag : existing.featureEnabled = e.featureEnabled
    · rw [register_known he hflag]
      exact h
    · rw [register_again he hflag]
      split
      · exact h
      case isFalse hc => exact h.setFeatureEnabled (by simpa [hc] using hok)
  | none =>
    unfold Coordinator.register
    rw [he]
    simp only
    split
    · exact h
    split
    case h_1 reg r hp =>
      have hdeclared : Agree { s with reg } := h.writes (.call e.patchId (.declare e.targets) _ rfl hp nofun nofun)
      split
      case h_1 reg' r' hp' =>
        obtain ⟨record, hflag, rfl⟩ := setRecord_of_perform hp'
        exact hdeclared.addEntry he hflag
      · exact hdeclared
    · exact h

theorem Agree.setStack (h : Agree s) (frames : List Frame) : Agree (s.setStack thread frames) :=
  h.writes (setStack_writes frames)

theorem Agree.start (h : Agree s) {e : CoordinatorEvent} (hok : s.settles (thread, .coordinator e) = true)
    (hstep : s.start thread e = some s') : Agree s' := by
  cases e with
  | registerCallback patchId moduleName targets payload featureEnabled =>
    have hreg := @Agree.register s thread h _ hok
    simp only [Coordinator.start] at hstep
    split at hstep
    case h_1 heq =>
      cases hstep
      rwa [heq] at hreg
    case h_2 heq =>
      cases hstep
      rw [heq] at hreg
      exact hreg.setStack _
    case h_3 heq =>
      cases hstep
      rw [heq] at hreg
      exact hreg.setStack _
  | registerReplacement patchId moduleName targets payload featureEnabled latePolicy =>
    have hreg := @Agree.register s thread h _ hok
    simp only [Coordinator.start] at hstep
    split at hstep
    case h_1 heq =>
      cases hstep
      rwa [heq] at hreg
    case h_2 heq =>
      cases hstep
      rw [heq] at hreg
      exact hreg.setStack _
    case h_3 heq =>
      cases hstep
      rw [heq] at hreg
      exact hreg.setStack _
  | install =>
    simp only [Coordinator.start] at hstep
    split at hstep
    · cases hstep
      exact h
    · cases hstep
      have hpush := @Agree.setStack s thread h (.install s.moduleNames :: s.threads thread)
      exact ⟨hpush.distinct, hpush.recorded⟩
  | findSpec name reload =>
    cases hstep
    exact h.setStack _
  | createModule name =>
    simp only [Coordinator.start] at hstep
    split at hstep <;> cases hstep
    exact h.setStack _
  | execReplacement name =>
    simp only [Coordinator.start] at hstep
    split at hstep <;> cases hstep
    exact h.setStack _
  | execPostLoad name =>
    simp only [Coordinator.start] at hstep
    split at hstep <;> cases hstep
    exact h.setStack _
  | drainReadyCallbacks =>
    cases hstep
    exact h.setStack _
  | step loaded => cases hstep
  | returns => cases hstep
  | unavailable reason => cases hstep
  | raises typeName message => cases hstep

theorem Agree.step (h : Agree s) {e : Nat × FeatureEvent} (hok : s.settles e = true) (hstep : s.featureStep e = some s') :
    Agree s' := by
  obtain ⟨thread, e⟩ := e
  cases e with
  | setFeatureEnabled patchId enabled =>
    simp only [featureStep] at hstep
    split at hstep <;> cases hstep
    exact h.setFeatureEnabled hok
  | coordinator c =>
    simp only [featureStep] at hstep
    unfold Coordinator.step at hstep
    split at hstep
    · exact h.start hok hstep
    case h_2 f rest hstack =>
      split at hstep
      · cases hstart : s.start thread c with
        | some s₁ =>
          simp only [hstart] at hstep
          cases hstep
          exact h.start hok hstart
        | none =>
          simp only [hstart] at hstep
          exact h.writes (payloadEnd_writes hstep)
      · split at hstep
        · exact h.writes (frameStep_writes hstep)
        · cases hstep

end Coordinator

/-- A call of `set_feature_enabled`, or of `_register` for a registration that is made again with another flag, raises
without an effect if and only if it raises before the entry is written or its flag is accepted; and where every flag that
is set is accepted, the flag of an entry is that of its record while the record is armed or applied. -/
theorem feature_flags_iff (s : Coordinator) (thread : Nat) :
    (∀ (patchId : String) (enabled : Bool), (s.entries.map (·.patchId)).Nodup →
      (s.Atomic (s.setFeatureEnabled thread patchId enabled) ↔ s.accepts patchId enabled = true)) ∧
    (∀ e existing : Entry, (s.entries.map (·.patchId)).Nodup → s.entry? e.patchId = some existing →
      existing.featureEnabled ≠ e.featureEnabled →
      (s.Atomic (s.register thread e) ↔ s.conflicts e = true ∨ s.reg.takesFeature e.patchId = true)) ∧
    ∀ events : List (Nat × FeatureEvent), runFrom Coordinator.featureStep {} events = some s →
      Along Coordinator.featureStep (fun s e => s.settles e = true) {} events →
      ∀ e ∈ s.entries, ∃ record, s.reg.get e.patchId = some record ∧
        (record.status = .armed ∨ record.status = .applied → record.featureEnabled = e.featureEnabled) := by
  refine ⟨fun patchId enabled hdistinct => s.setFeatureEnabled_atomic_iff hdistinct,
    fun e existing hdistinct he hflag => s.register_atomic_iff hdistinct he hflag, fun events hrun hsettles => ?_⟩
  have hinit : Coordinator.Agree {} := ⟨List.nodup_nil, nofun⟩
  exact (run_invariant (fun s e s' hs hok hstep => hs.step hok hstep) hinit hsettles hrun).recorded

-- The flag is set before and after the callback.
def flagSetTwice : List (Nat × FeatureEvent) :=
  [(0, .coordinator (.registerCallback "c" "m" ["m"] 0 false)), (1, .setFeatureEnabled "c" true),
    (0, .coordinator (.step true)), (0, .coordinator (.step true)), (0, .coordinator .returns),
    (1, .setFeatureEnabled "c" false)]

theorem feature_flags_settled : ∃ s, runFrom Coordinator.featureStep {} flagSetTwice = some s ∧
    (s.reg.get "c").map (fun r => (r.status, r.featureEnabled)) = some (.applied, false) ∧
    ∀ e ∈ s.entries, ∃ record, s.reg.get e.patchId = some record ∧
      (record.status = .armed ∨ record.status = .applied → record.featureEnabled = e.featureEnabled) := by
  have hmap : (runFrom Coordinator.featureStep {} flagSetTwice).map
      (fun s => (s.reg.get "c").map fun r => (r.status, r.featureEnabled)) = some (some (.applied, false)) := by decide +kernel
  obtain ⟨s, hs, hval⟩ := Option.map_eq_some_iff.mp hmap
  exact ⟨s, hs, hval, (feature_flags_iff s 0).2.2 flagSetTwice hs (by decide +kernel)⟩

/-- A callback is registered for a module that is loaded, and begins. -/
def callbackBegins : List (Nat × FeatureEvent) :=
  [(0, .coordinator (.registerCallback "c" "m" ["m"] 0 false)), (0, .coordinator (.step true)), (0, .coordinator (.step true))]

/-- While the callback runs the call raises, and the entry has the new flag all the same; when the callback returns, the
record takes it from there. -/
theorem refused_flag_stays : ∃ s s', runFrom Coordinator.featureStep {} callbackBegins = some s ∧
    runFrom Coordinator.featureStep s [(1, .setFeatureEnabled "c" true), (0, .coordinator .returns)] = some s' ∧
    (s.setFeatureEnabled 1 "c" true).2 = none ∧ (s.entry? "c").map (·.featureEnabled) = some false ∧
    (Coordinator.entry? (s.setFeatureEnabled 1 "c" true).1 "c").map (·.featureEnabled) = some true ∧
    (s'.reg.get "c").map (fun r => (r.status, r.featureEnabled)) = some (.applied, true) ∧
    ¬s.Atomic (s.setFeatureEnabled 1 "c" true) := by
  have hmap : (runFrom Coordinator.featureStep {} callbackBegins).bind (fun s =>
      (runFrom Coordinator.featureStep s [(1, .setFeatureEnabled "c" true), (0, .coordinator .returns)]).map fun s' =>
        ((s.setFeatureEnabled 1 "c" true).2, (s.entry? "c").map (·.featureEnabled),
          (Coordinator.entry? (s.setFeatureEnabled 1 "c" true).1 "c").map (·.featureEnabled),
          (s'.reg.get "c").map fun r => (r.status, r.featureEnabled))) =
      some (none, some false, some true, some (.applied, true)) := by decide +kernel
  obtain ⟨s, hs, hmap⟩ := Option.bind_eq_some_iff.mp hmap
  obtain ⟨s', hs', hval⟩ := Option.map_eq_some_iff.mp hmap
  simp only [Prod.mk.injEq] at hval
  obtain ⟨hraises, hbefore, hafter, hrecord⟩ := hval
  refine ⟨s, s', hs, hs', hraises, hbefore, hafter, hrecord, fun hatomic => ?_⟩
  have hsame := (hatomic hraises).1
  unfold Coordinator.entry? at hbefore hafter
  rw [hsame, hbefore] at hafter
  cases hafter

end VllmHcu.Patch
