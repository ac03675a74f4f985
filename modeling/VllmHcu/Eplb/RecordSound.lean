import Mathlib.Logic.Function.Basic
import Mathlib.Tactic.Common
import VllmHcu.Eplb.Record

/-!
# What is recorded can be loaded

Every call leaves a file that the recorder accepts, whatever calls came before
it, and the loader accepts the entry of every model whose record is a proposal.
-/

namespace VllmHcu.Eplb

/-! ## Checks -/

namespace Json

theorem int?_eq_some {j : Json} {n : Int} : j.int? = some n ↔ j = .int n := by
  cases j <;> simp [int?]

theorem str?_eq_some {j : Json} {s : String} : j.str? = some s ↔ j = .str s := by
  cases j <;> simp [str?]

theorem arr?_eq_some {j : Json} {items : List Json} : j.arr? = some items ↔ j = .arr items := by
  cases j <;> simp [arr?]

end Json

theorem integer_eq_ok {owner name : String} {value : Json} {minimum n : Int} :
    integer owner value name minimum = .ok n ↔ value = .int n ∧ minimum ≤ n := by
  unfold integer
  simp only [bind_eq_ok, expect_eq_ok, ensure_eq_ok, pure_eq_ok, Json.int?_eq_some]
  exact ⟨fun ⟨m, hv, _, hm, he⟩ => he ▸ ⟨hv, hm⟩, fun ⟨hv, hm⟩ => ⟨n, hv, (), hm, rfl⟩⟩

theorem expertId_eq_ok {numLogicalExperts : Int} {value : Json} {n : Int} (h : expertId numLogicalExperts value = .ok n) :
    value = .int n := by
  unfold expertId at h
  simp only [bind_eq_ok, expect_eq_ok, ensure_eq_ok, pure_eq_ok, Json.int?_eq_some] at h
  obtain ⟨m, hv, -, -, rfl⟩ := h
  exact hv

theorem eq_map_of_forall₂ {β : Type} {f : β → Json} {l : List Json} {r : List β}
    (h : List.Forall₂ (fun a b => a = f b) l r) : l = r.map f := by
  induction h with
  | nil => rfl
  | cons ha _ ih => rw [List.map_cons, ha, ih]

theorem mapRow_eq_ok {logical physical : Int} {row : Json} {ids : List Int} (h : mapRow logical physical row = .ok ids) :
    row = .arr (ids.map .int) := by
  unfold mapRow at h
  simp only [bind_eq_ok, expect_eq_ok, ensure_eq_ok, pure_eq_ok, Json.arr?_eq_some] at h
  obtain ⟨items, rfl, -, -, ids', hids, -, -, rfl⟩ := h
  have := ((mapM_eq_ok _).mp hids).imp fun _ _ => expertId_eq_ok
  rw [eq_map_of_forall₂ this]

theorem make_eq_ok {modelKey modelName recordKind : String} {source : Source} {rows : List Json}
    {logical physical redundant : Int} {plan : StaticEplbPlan} :
    StaticEplbPlan.make modelKey modelName source recordKind rows logical physical redundant = .ok plan ↔
      (modelKey ≠ "" ∧ modelName ≠ "" ∧ isRecordKind recordKind = true ∧ 1 ≤ logical ∧ 1 ≤ physical ∧ 0 ≤ redundant ∧
        logical + redundant = physical ∧ rows ≠ []) ∧ (source.isAbsolute = true ∧ source.isDigest = true) ∧
      ∃ mapValues, rows.mapM (mapRow logical physical) = .ok mapValues ∧
        ⟨modelKey, modelName, source.path, source.sha256, recordKind, mapValues, logical, physical, redundant⟩ = plan := by
  unfold StaticEplbPlan.make
  simp only [bind_eq_ok, ensure_eq_ok, pure_eq_ok, integer_eq_ok]
  constructor
  · rintro ⟨_, hk, _, hn, _, ha, _, hd, _, hr, _, ⟨h₁, hl⟩, _, ⟨h₂, hp⟩, _, ⟨h₃, hre⟩, _, hsum, _, hrows, hmap⟩
    cases h₁
    cases h₂
    cases h₃
    exact ⟨⟨hk, hn, hr, hl, hp, hre, hsum, hrows⟩, ⟨ha, hd⟩, hmap⟩
  · rintro ⟨⟨hk, hn, hr, hl, hp, hre, hsum, hrows⟩, ⟨ha, hd⟩, hmap⟩
    exact ⟨(), hk, (), hn, (), ha, (), hd, (), hr, _, ⟨rfl, hl⟩, _, ⟨rfl, hp⟩, _, ⟨rfl, hre⟩, (), hsum, (), hrows, hmap⟩

/-! ## Entries -/

/-- What the recorder has checked of a call. -/
structure ValidCall (call : RecordCall) (t : MapTensor) (kind name : String) (logical redundant : Int)
    (mapValues : List (List Int)) : Prop where
  tensor : call.physicalToLogicalMap = .tensor t
  recordKind : call.recordKind = .str kind
  modelName : call.modelName = .str name
  modelClass : call.modelClass = .str call.modelKey
  numLogical : call.numLogicalExperts = .int logical
  numRedundant : call.numRedundantExperts = .int redundant
  counts : call.modelKey ≠ "" ∧ name ≠ "" ∧ isRecordKind kind = true ∧ 1 ≤ logical ∧ 1 ≤ (t.cols : Int) ∧ 0 ≤ redundant ∧
    logical + redundant = t.cols ∧ t.rows.map Json.arr ≠ []
  rows : (t.rows.map Json.arr).mapM (mapRow logical t.cols) = .ok mapValues

def entryFields (call : RecordCall) (t : MapTensor) : List (String × Json) := [
  ("record_kind", call.recordKind),
  ("model_name", call.modelName),
  ("model_class", call.modelClass),
  ("num_moe_layers", .int t.rows.length),
  ("num_logical_experts", call.numLogicalExperts),
  ("num_physical_experts", .int t.cols),
  ("num_redundant_experts", call.numRedundantExperts),
  ("physical_to_logical_map", .arr (t.rows.map .arr))]

theorem lookup_entryFields (call : RecordCall) (t : MapTensor) :
    (entryFields call t).lookup "record_kind" = some call.recordKind ∧
    (entryFields call t).lookup "model_name" = some call.modelName ∧
    (entryFields call t).lookup "model_class" = some call.modelClass ∧
    (entryFields call t).lookup "num_moe_layers" = some (.int t.rows.length) ∧
    (entryFields call t).lookup "num_logical_experts" = some call.numLogicalExperts ∧
    (entryFields call t).lookup "num_physical_experts" = some (.int t.cols) ∧
    (entryFields call t).lookup "num_redundant_experts" = some call.numRedundantExperts ∧
    (entryFields call t).lookup "physical_to_logical_map" = some (.arr (t.rows.map .arr)) := by
  unfold entryFields
  refine ⟨?_, ?_, ?_, ?_, ?_, ?_, ?_, ?_⟩ <;> simp [List.lookup_cons]

theorem validateModelEntry_spec {call : RecordCall} {t : MapTensor} (ht : call.physicalToLogicalMap = .tensor t)
    (h : validateModelEntry call.modelKey (call.entry t) = .ok ()) :
    ∃ kind name logical redundant mapValues, ValidCall call t kind name logical redundant mapValues := by
  obtain ⟨h₁, h₂, h₃, h₄, h₅, h₆, h₇, h₈⟩ := lookup_entryFields call t
  unfold validateModelEntry at h
  simp only [bind_eq_ok, expect_eq_ok, ensure_eq_ok, pure_eq_ok, strictCount, integer_eq_ok] at h
  obtain ⟨_, -, fields, hfields, _, -, kind, hkind, _, -, name, hname, _, -, modelClass, hclass, _, rfl, h⟩ := h
  obtain ⟨numLayers, -, logical, ⟨hlog, -⟩, physical, ⟨hphys, -⟩, redundant, ⟨hred, -⟩, rows, hrows, -, -, plan, hplan, -⟩ := h
  obtain rfl : entryFields call t = fields := Option.some.inj hfields
  rw [getField, h₁, Option.getD_some, Json.str?_eq_some] at hkind
  rw [getField, h₂, Option.getD_some, Json.str?_eq_some] at hname
  rw [getField, h₃, Option.getD_some, Json.str?_eq_some] at hclass
  rw [getField, h₅, Option.getD_some] at hlog
  rw [getField, h₆, Option.getD_some, Json.int.injEq] at hphys
  rw [getField, h₇, Option.getD_some] at hred
  rw [getField, h₈, Option.getD_some] at hrows
  cases hphys
  cases hrows
  obtain ⟨hcounts, -, mapValues, hmap, -⟩ := make_eq_ok.mp hplan
  exact ⟨kind, name, logical, redundant, mapValues, ht, hkind, hname, hclass, hlog, hred, hcounts, hmap⟩

theorem parsePlan_entry {call : RecordCall} {t : MapTensor} {kind name : String} {logical redundant : Int}
    {mapValues : List (List Int)} (h : ValidCall call t kind name logical redundant mapValues) {payload modelMaps : List (String × Json)}
    (hver : getField payload "version" = .int 2) (hfmt : getField payload "format" = .str offlineEplbFormat)
    (hmaps : getField payload "model_maps" = .obj modelMaps) (hentry : modelMaps.lookup call.modelKey = some (call.entry t))
    {source : Source} (habs : source.isAbsolute = true) (hdig : source.isDigest = true) {requireProposal : Bool}
    (hprop : requireProposal = true → kind = "proposal") :
    parsePlan (.obj payload) source call.modelKey name (t.rows.length, t.cols) logical redundant requireProposal =
      .ok ⟨call.modelKey, name, source.path, source.sha256, kind, mapValues, logical, t.cols, redundant⟩ := by
  obtain ⟨h₁, h₂, h₃, h₄, h₅, h₆, h₇, h₈⟩ := lookup_entryFields call t
  obtain ⟨hkey, hname, hkind, hcounts⟩ := h.counts
  rw [h.recordKind] at h₁
  rw [h.modelName] at h₂
  rw [h.modelClass] at h₃
  rw [h.numLogical] at h₅
  rw [h.numRedundant] at h₇
  unfold parsePlan
  simp only [bind_eq_ok, expect_eq_ok, ensure_eq_ok, requiredField, expectMetadata, make_eq_ok]
  refine ⟨payload, rfl, (), by rw [hver]; rfl, (), by rw [hfmt]; rfl, modelMaps, by rw [hmaps]; rfl, _, hentry,
    entryFields call t, rfl, _, h₁, kind, rfl, (), hkind, (), hprop, _, h₂, name, rfl, (), hname, (), rfl, (), ?_,
    _, h₈, _, rfl, (), ?_, h.counts, ⟨habs, hdig⟩, mapValues, h.rows, rfl⟩
  · refine forM_eq_ok.mpr fun p hp => ?_
    simp only [bind_eq_ok, expect_eq_ok, ensure_eq_ok]
    simp only [List.mem_cons, List.not_mem_nil, or_false] at hp
    obtain rfl | rfl | rfl | rfl | rfl := hp
    · exact ⟨_, h₃, by simp [sameValue]⟩
    · exact ⟨_, h₄, by simp [sameValue]⟩
    · exact ⟨_, h₅, by simp [sameValue]⟩
    · exact ⟨_, h₆, by simp [sameValue]⟩
    · exact ⟨_, h₇, by simp [sameValue]⟩
  · simp [Json.arr?]

theorem loadStaticEplbPlan_entry {call : RecordCall} {t : MapTensor} {kind name : String} {logical redundant : Int}
    {mapValues : List (List Int)} (h : ValidCall call t kind name logical redundant mapValues) {raw : Json}
    {sourceOf : Json → Source} {plan : StaticEplbPlan} {requireProposal : Bool}
    (hparse : parsePlan raw (sourceOf raw) call.modelKey name (t.rows.length, t.cols) logical redundant requireProposal = .ok plan) :
    loadStaticEplbPlan sourceOf (some raw) call.modelKey name (t.rows.length, t.cols) logical redundant requireProposal =
      .ok plan := by
  obtain ⟨hkey, hname, -, hlog, hcols, hred, hsum, hrows⟩ := h.counts
  have hlayers : 1 ≤ (t.rows.length : Int) := by
    have : t.rows.length ≠ 0 := by
      intro h0
      rw [List.length_eq_zero_iff] at h0
      simp [h0] at hrows
    omega
  unfold loadStaticEplbPlan
  simp only [bind_eq_ok, expect_eq_ok, ensure_eq_ok, integer_eq_ok]
  exact ⟨(), hkey, (), hname, _, ⟨rfl, hlayers⟩, _, ⟨rfl, hcols⟩, _, ⟨rfl, hlog⟩, _, ⟨rfl, hred⟩, (), hsum, raw, rfl, hparse⟩

theorem ValidCall.mapValues_eq {call : RecordCall} {t : MapTensor} {kind name : String} {logical redundant : Int}
    {mapValues : List (List Int)} (h : ValidCall call t kind name logical redundant mapValues) :
    t.rows = mapValues.map fun row => row.map Json.int := by
  have hrows := eq_map_of_forall₂ (((mapM_eq_ok _).mp h.rows).imp fun _ _ => mapRow_eq_ok)
  have hinj : Function.Injective Json.arr := fun _ _ => Json.arr.inj
  apply List.map_injective_iff.mpr hinj
  rw [hrows, List.map_map]
  rfl

/-! ## The file -/

def payloadFields (modelMaps : List (String × Json)) : List (String × Json) :=
  [("version", .int 2), ("format", .str offlineEplbFormat), ("model_maps", .obj modelMaps)]

theorem getField_payload (modelMaps : List (String × Json)) :
    getField (payloadFields modelMaps) "version" = .int 2 ∧
    getField (payloadFields modelMaps) "format" = .str offlineEplbFormat ∧
    getField (payloadFields modelMaps) "model_maps" = .obj modelMaps := by
  unfold payloadFields getField
  refine ⟨?_, ?_, ?_⟩ <;> simp [List.lookup_cons]

def ValidMaps (modelMaps : List (String × Json)) : Prop := ∀ p ∈ modelMaps, validateModelEntry p.1 p.2 = .ok ()

theorem validateRecordPayload_payload {modelMaps : List (String × Json)} (h : ValidMaps modelMaps) :
    validateRecordPayload (.obj (payloadFields modelMaps)) = .ok (payloadFields modelMaps, modelMaps) := by
  obtain ⟨hver, hfmt, hmaps⟩ := getField_payload modelMaps
  unfold validateRecordPayload
  simp only [bind_eq_ok, expect_eq_ok, ensure_eq_ok, pure_eq_ok]
  exact ⟨_, rfl, (), by rw [hver]; rfl, (), by rw [hfmt]; rfl, modelMaps, by rw [hmaps]; rfl, (), forM_eq_ok.mpr h, rfl⟩

/-- What a call makes of the maps: an initial map does not replace a proposal. -/
def recorded (modelMaps : List (String × Json)) (call : RecordCall) (t : MapTensor) : List (String × Json) :=
  if (modelMaps.lookup call.modelKey).any isProposal && call.recordKind.str? = some "initial" then modelMaps
  else insertKey call.modelKey (call.entry t) modelMaps

def accepted (call : RecordCall) (t : MapTensor) : Prop :=
  call.physicalToLogicalMap = .tensor t ∧ validateModelEntry call.modelKey (call.entry t) = .ok ()

theorem recorded_valid {modelMaps : List (String × Json)} (h : ValidMaps modelMaps) {call : RecordCall} {t : MapTensor}
    (hacc : accepted call t) : ValidMaps (recorded modelMaps call t) := by
  unfold recorded
  split
  · exact h
  · intro p hp
    obtain rfl | hp := mem_insertKey hp
    · exact hacc.2
    · exact h p hp

theorem recordOfflineExpertMap_accepted {modelMaps : List (String × Json)} (h : ValidMaps modelMaps) {call : RecordCall}
    {t : MapTensor} (hacc : accepted call t) :
    recordOfflineExpertMap (some (.obj (payloadFields modelMaps))) call =
      .ok (some (.obj (payloadFields (recorded modelMaps call t)))) := by
  have hvalid := recorded_valid h hacc
  unfold recordOfflineExpertMap recorded at *
  rw [hacc.1]
  simp only [Option.getD_some, validateRecordPayload_payload h, hacc.2, bind, Except.bind]
  split
  · rfl
  · rename_i hnot
    rw [if_neg hnot] at hvalid
    have hmerged : insertKey "model_maps" (.obj (insertKey call.modelKey (call.entry t) modelMaps)) (payloadFields modelMaps) =
        payloadFields (insertKey call.modelKey (call.entry t) modelMaps) := by
      simp [payloadFields, insertKey]
    rw [hmerged, validateRecordPayload_payload hvalid]
    rfl

theorem recordOfflineExpertMap_rejected (file : Option Json) {call : RecordCall} (h : ∀ t, ¬ accepted call t) :
    ∃ e, recordOfflineExpertMap file call = .error e := by
  unfold recordOfflineExpertMap
  cases hmap : call.physicalToLogicalMap with
  | notTensor => exact ⟨_, rfl⟩
  | otherDims => exact ⟨_, rfl⟩
  | tensor t =>
    cases hval : validateModelEntry call.modelKey (call.entry t) with
    | ok u => exact absurd ⟨hmap, hval⟩ (h t)
    | error e => exact ⟨e, by simp [hval, bind, Except.bind]⟩

/-! ## Sessions -/

/-- The map of a call that the recorder accepts. -/
def acceptedMap (call : RecordCall) : Option MapTensor :=
  match call.physicalToLogicalMap with
  | .tensor t =>
    match validateModelEntry call.modelKey (call.entry t) with
    | .ok _ => some t
    | .error _ => none
  | _ => none

theorem acceptedMap_eq_some {call : RecordCall} {t : MapTensor} : acceptedMap call = some t ↔ accepted call t := by
  unfold acceptedMap accepted
  cases hmap : call.physicalToLogicalMap with
  | notTensor => simp
  | otherDims => simp
  | tensor t' =>
    dsimp only
    cases hval : validateModelEntry call.modelKey (call.entry t') with
    | ok u =>
      constructor
      · intro h
        cases h
        exact ⟨rfl, hval⟩
      · rintro ⟨ht, -⟩
        cases ht
        rfl
    | error e =>
      refine ⟨nofun, fun ⟨ht, hv⟩ => ?_⟩
      cases ht
      rw [hval] at hv
      cases hv

structure Session where
  file : Option Json
  -- by model, the last call whose map was accepted and recorded
  last : String → Option (RecordCall × MapTensor)

namespace Session

def keep (last : String → Option (RecordCall × MapTensor)) (call : RecordCall) :
    String → Option (RecordCall × MapTensor) :=
  match acceptedMap call with
  | none => last
  | some t =>
    -- an initial map after a proposal is passed over
    if (last call.modelKey).any (fun p => p.1.recordKind.str? = some "proposal") && call.recordKind.str? = some "initial" then
      last
    else Function.update last call.modelKey (some (call, t))

def record (s : Session) (call : RecordCall) : Session where
  file :=
    match recordOfflineExpertMap s.file call with
    | .ok file => file
    | .error _ => s.file
  last := keep s.last call

def modelEntry (s : Session) (key : String) : Option Json :=
  (s.file.bind Json.obj?).bind fun fields => (getField fields "model_maps").obj?.bind (·.lookup key)

structure Inv (s : Session) (modelMaps : List (String × Json)) : Prop where
  file : s.file = some (.obj (payloadFields modelMaps))
  valid : ValidMaps modelMaps
  entries : ∀ key, modelMaps.lookup key = (s.last key).map fun p => p.1.entry p.2
  last : ∀ key call t, s.last key = some (call, t) → accepted call t ∧ call.modelKey = key

section
variable {s : Session} {modelMaps : List (String × Json)}

theorem Inv.modelEntry (h : s.Inv modelMaps) (key : String) : s.modelEntry key = modelMaps.lookup key := by
  unfold Session.modelEntry
  rw [h.file]
  change (getField (payloadFields modelMaps) "model_maps").obj?.bind _ = _
  rw [(getField_payload modelMaps).2.2]
  rfl

theorem isProposal_entry (call : RecordCall) (t : MapTensor) :
    isProposal (call.entry t) = decide (call.recordKind.str? = some "proposal") := by
  change decide ((getField (entryFields call t) "record_kind").str? = some "proposal") = _
  rw [getField, (lookup_entryFields call t).1, Option.getD_some]

/-- The recorder passes a call over when the maps say so, the session when the last call does. -/
theorem Inv.passedOver (h : s.Inv modelMaps) (key : String) :
    (modelMaps.lookup key).any isProposal =
      (s.last key).any fun p => p.1.recordKind.str? = some "proposal" := by
  rw [h.entries key]
  cases s.last key with
  | none => rfl
  | some p => simp [isProposal_entry]

theorem record_rejected {call : RecordCall} (h : acceptedMap call = none) : s.record call = s := by
  have hno : ∀ t, ¬ accepted call t := fun t ht => by
    rw [acceptedMap_eq_some.mpr ht] at h
    cases h
  obtain ⟨e, he⟩ := recordOfflineExpertMap_rejected s.file hno
  unfold record keep
  rw [he, h]

theorem Inv.record_accepted (h : s.Inv modelMaps) {call : RecordCall} {t : MapTensor} (hacc : accepted call t) :
    (s.record call).Inv (recorded modelMaps call t) := by
  have hfile : (s.record call).file = some (.obj (payloadFields (recorded modelMaps call t))) := by
    unfold record
    rw [h.file, recordOfflineExpertMap_accepted h.valid hacc]
  have hlast : (s.record call).last = if (modelMaps.lookup call.modelKey).any isProposal && call.recordKind.str? = some "initial"
      then s.last else Function.update s.last call.modelKey (some (call, t)) := by
    rw [h.passedOver]
    unfold record keep
    rw [acceptedMap_eq_some.mpr hacc]
  refine ⟨hfile, recorded_valid h.valid hacc, fun key => ?_, fun key call' t' hkey => ?_⟩
  · rw [hlast]
    unfold recorded
    split
    · exact h.entries key
    · by_cases hk : key = call.modelKey
      · rw [hk, lookup_insertKey_self, Function.update_self]
        rfl
      · rw [lookup_insertKey_of_ne hk, Function.update_of_ne hk]
        exact h.entries key
  · rw [hlast] at hkey
    split at hkey
    · exact h.last key call' t' hkey
    · by_cases hk : key = call.modelKey
      · rw [hk, Function.update_self] at hkey
        cases hkey
        exact ⟨hacc, hk.symm⟩
      · rw [Function.update_of_ne hk] at hkey
        exact h.last key call' t' hkey

theorem Inv.record (h : s.Inv modelMaps) (call : RecordCall) : ∃ modelMaps', (s.record call).Inv modelMaps' := by
  cases hacc : acceptedMap call with
  | none =>
    rw [record_rejected hacc]
    exact ⟨modelMaps, h⟩
  | some t => exact ⟨_, h.record_accepted (acceptedMap_eq_some.mp hacc)⟩

theorem Inv.records : ∀ {calls : List RecordCall} {s : Session} {modelMaps : List (String × Json)}, s.Inv modelMaps →
    ∃ modelMaps', (calls.foldl Session.record s).Inv modelMaps'
  | [], _, modelMaps, h => ⟨modelMaps, h⟩
  | call :: _, _, _, h => by
    obtain ⟨modelMaps', h'⟩ := h.record call
    exact h'.records

theorem Inv.others (h : s.Inv modelMaps) (call : RecordCall) {key : String} (hkey : key ≠ call.modelKey) :
    (s.record call).modelEntry key = s.modelEntry key := by
  cases hacc : acceptedMap call with
  | none => rw [record_rejected hacc]
  | some t =>
    rw [(h.record_accepted (acceptedMap_eq_some.mp hacc)).modelEntry, h.modelEntry]
    unfold recorded
    split
    · rfl
    · rw [lookup_insertKey_of_ne hkey]

theorem Inv.proposal_kept (h : s.Inv modelMaps) (call : RecordCall) (hinit : call.recordKind.str? = some "initial")
    (hprop : (s.modelEntry call.modelKey).any isProposal = true) : (s.record call).file = s.file := by
  cases hacc : acceptedMap call with
  | none => rw [record_rejected hacc]
  | some t =>
    rw [h.modelEntry] at hprop
    rw [(h.record_accepted (acceptedMap_eq_some.mp hacc)).file, h.file]
    unfold recorded
    rw [hprop, hinit]
    rfl

end

end Session

theorem startOfflineRecordSession_eq {old file : Option Json} (h : startOfflineRecordSession old = .ok file) :
    file = some (.obj (payloadFields [])) := by
  cases old with
  | none =>
    cases h
    rfl
  | some payload =>
    unfold startOfflineRecordSession at h
    obtain ⟨p, -, h⟩ := bind_eq_ok.mp h
    cases h
    rfl

/-- Any calls in a session: the file validates, a rejected call leaves it, entries of other models and proposals stay,
and the map of a model whose record is a proposal is loaded as it was recorded. -/
theorem record_round_trip (sourceOf : Json → Source)
    (hsource : ∀ raw, (sourceOf raw).isAbsolute = true ∧ (sourceOf raw).isDigest = true)
    (old file : Option Json) (hstart : startOfflineRecordSession old = .ok file) (calls : List RecordCall) :
    let s := calls.foldl Session.record ⟨file, fun _ => none⟩
    (∃ raw p, s.file = some raw ∧ validateRecordPayload raw = .ok p) ∧
    (∀ call, (∀ e, recordOfflineExpertMap s.file call = .error e → (s.record call).file = s.file) ∧
      (∀ key, key ≠ call.modelKey → (s.record call).modelEntry key = s.modelEntry key) ∧
      (call.recordKind = .str "initial" → (s.modelEntry call.modelKey).any isProposal = true →
        (s.record call).file = s.file)) ∧
    ∀ key call t, s.last key = some (call, t) → call.recordKind = .str "proposal" →
      ∃ name logical redundant plan, call.modelName = .str name ∧ call.numLogicalExperts = .int logical ∧
        call.numRedundantExperts = .int redundant ∧
        loadStaticEplbPlan sourceOf s.file key name (t.rows.length, t.cols) logical redundant true = .ok plan ∧
        t.rows = plan.mapValues.map fun row => row.map Json.int := by
  have hinit : (⟨file, fun _ => none⟩ : Session).Inv [] :=
    ⟨startOfflineRecordSession_eq hstart, nofun, fun _ => rfl, nofun⟩
  intro s
  obtain ⟨modelMaps, h⟩ : ∃ modelMaps, s.Inv modelMaps := hinit.records
  refine ⟨⟨_, _, h.file, validateRecordPayload_payload h.valid⟩, fun call => ⟨fun e he => ?_, fun key => h.others call,
    fun hk => h.proposal_kept call (by rw [hk]; rfl)⟩, fun key call t hlast hkind => ?_⟩
  · unfold Session.record
    rw [he]
  · obtain ⟨hacc, rfl⟩ := h.last key call t hlast
    obtain ⟨kind, name, logical, redundant, mapValues, hv⟩ := validateModelEntry_spec hacc.1 hacc.2
    obtain rfl : kind = "proposal" := by
      rw [hv.recordKind] at hkind
      exact Json.str.inj hkind
    have hentry : modelMaps.lookup call.modelKey = some (call.entry t) := by rw [h.entries, hlast, Option.map_some]
    obtain ⟨hver, hfmt, hmaps⟩ := getField_payload modelMaps
    have hparse := parsePlan_entry hv hver hfmt hmaps hentry (hsource (.obj (payloadFields modelMaps))).1
      (hsource (.obj (payloadFields modelMaps))).2 (fun _ : true = true => rfl)
    have hload := loadStaticEplbPlan_entry hv hparse
    rw [← h.file] at hload
    exact ⟨name, logical, redundant, _, hv.modelName, hv.numLogical, hv.numRedundant, hload, hv.mapValues_eq⟩

/-- One layer of two experts whose slots show `row`. -/
def oneLayer (modelKey kind : String) (row : List Int) (hrow : row.length = 3) : RecordCall where
  modelKey := modelKey
  modelName := .str "m"
  modelClass := .str modelKey
  physicalToLogicalMap := .tensor ⟨[row.map Json.int], 3, by simpa using hrow⟩
  numLogicalExperts := .int 2
  numRedundantExperts := .int 1
  recordKind := .str kind

/-- A proposal, another model, a map that shows an expert that there is not, and an initial map after the proposal. -/
def twoModels : List RecordCall :=
  [oneLayer "M" "proposal" [1, 0, 0] rfl, oneLayer "N" "initial" [0, 1, 1] rfl, oneLayer "M" "proposal" [2, 0, 1] rfl,
    oneLayer "M" "initial" [0, 1, 0] rfl]

def zeroDigest : Source := ⟨"/maps.json", String.ofList (List.replicate 64 '0')⟩

theorem record_round_trip_twoModels :
    twoModels.map (fun call => (acceptedMap call).isSome) = [true, true, false, true] ∧
    ∃ plan, loadStaticEplbPlan (fun _ => zeroDigest)
        (twoModels.foldl Session.record ⟨some emptyRecordPayload, fun _ => none⟩).file
        "M" "m" (1, 3) 2 1 true = .ok plan ∧ [[.int 1, .int 0, .int 0]] = plan.mapValues.map fun row => row.map Json.int := by
  have hdigest : zeroDigest.isAbsolute = true ∧ zeroDigest.isDigest = true := by decide +kernel
  obtain ⟨-, -, hload⟩ := record_round_trip (fun _ => zeroDigest) (fun _ => hdigest) none _ rfl twoModels
  obtain ⟨name, logical, redundant, plan, hname, hlog, hred, hplan, hrows⟩ :=
    hload "M" (oneLayer "M" "proposal" [1, 0, 0] rfl) ⟨[[.int 1, .int 0, .int 0]], 3, by simp⟩ rfl rfl
  cases hname
  cases hlog
  cases hred
  exact ⟨rfl, plan, hplan, hrows⟩

end VllmHcu.Eplb
