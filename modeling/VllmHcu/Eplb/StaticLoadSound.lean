import VllmHcu.Eplb.RecordSound
import VllmHcu.Eplb.StaticLoad
import VllmHcu.Lib.Loops

/-!
# Each physical slot is loaded once

The calls for one entry that reach a given slot are none or one, by the id of
the entry alone. The ids of the entries do not repeat, so over all of them the
slot is reached once.
-/

namespace VllmHcu.Eplb

/-! ## Rows of a plan -/

structure PlanRow (logical : Int) (row : List Int) : Prop where
  range : ∀ e ∈ row, 0 ≤ e ∧ e < logical
  all : ∀ e, 0 ≤ e → e < logical → e ∈ row

theorem mapRow_planRow {logical physical : Int} {row : Json} {ids : List Int} (h : mapRow logical physical row = .ok ids) :
    PlanRow logical ids := by
  unfold mapRow at h
  obtain ⟨items, _, h⟩ := bind_eq_ok.mp h
  obtain ⟨_, _, h⟩ := bind_eq_ok.mp h
  obtain ⟨ids', hids, h⟩ := bind_eq_ok.mp h
  obtain ⟨_, hall, h⟩ := bind_eq_ok.mp h
  cases pure_eq_ok.mp h
  constructor
  · intro e he
    obtain ⟨j, _, hj⟩ := forall₂_mem_right ((mapM_eq_ok _).mp hids) he
    unfold expertId at hj
    obtain ⟨n, _, hj⟩ := bind_eq_ok.mp hj
    obtain ⟨_, hn, hj⟩ := bind_eq_ok.mp hj
    cases pure_eq_ok.mp hj
    exact ensure_eq_ok.mp hn
  · intro e h0 hlt
    obtain ⟨n, rfl⟩ := Int.eq_ofNat_of_zero_le h0
    exact ensure_eq_ok.mp hall n (List.mem_range.mpr (by omega))

theorem make_planRow {modelKey modelName recordKind : String} {source : Source} {rows : List Json}
    {logical physical redundant : Int} {plan : StaticEplbPlan}
    (h : StaticEplbPlan.make modelKey modelName source recordKind rows logical physical redundant = .ok plan)
    {row : List Int} (hr : row ∈ plan.mapValues) : PlanRow plan.numLogicalExperts row := by
  obtain ⟨_, _, mapValues, hmap, rfl⟩ := make_eq_ok.mp h
  obtain ⟨j, _, hj⟩ := forall₂_mem_right ((mapM_eq_ok _).mp hmap) hr
  exact mapRow_planRow hj

/-! ## The calls of one entry -/

section
variable {W : Type} {experts : RoutedExperts} {call : LoadCall W}

/-- The calls that the loader makes, where it raises nothing. -/
def loaderCalls (experts : RoutedExperts) (call : LoadCall W) : List (LoadCall W) :=
  if isShared experts call.expertId then [tailCall experts call]
  else if isGlobalScale experts call.weightName then [call]
  else slotCalls experts call

theorem logicalLoads_fst (original : LoadCall W → Option Bool) : (logicalLoads experts original call).1 =
    if isGlobalScale experts call.weightName then [call] else slotCalls experts call := by
  unfold logicalLoads
  split <;> rfl

theorem isShared_iff {id : Int} : isShared experts id = true ↔
    experts.numLogicalExperts ≤ id ∧ id < experts.numLogicalExperts + experts.numFusedSharedExperts := by
  unfold isShared
  rw [Bool.and_eq_true, decide_eq_true_eq, decide_eq_true_eq]

variable (call) in
theorem staticLoader_ok (original : LoadCall W → Option Bool)
    (h : isShared experts call.expertId = false → call.expertId ∈ experts.staticEplbRow ∧ call.loadedWeight.isUnsplit = false) :
    ∃ result, staticLoader experts original call = .ok (loaderCalls experts call, result) := by
  unfold staticLoader loaderCalls
  by_cases hs : isShared experts call.expertId = true
  · rw [if_pos hs, if_pos hs]
    exact ⟨_, rfl⟩
  · obtain ⟨hmem, hsplit⟩ := h (Bool.not_eq_true _ ▸ hs)
    rw [if_neg hs, if_neg hs]
    rw [← logicalLoads_fst original]
    refine ⟨(logicalLoads experts original call).2, ?_⟩
    refine bind_eq_ok.mpr ⟨(), ensure_eq_ok.mpr hmem, bind_eq_ok.mpr ⟨(), ensure_eq_ok.mpr ?_, rfl⟩⟩
    rw [hsplit]
    exact Bool.false_ne_true

/-- The call for slot `p`. -/
def LoadCall.atSlot (call : LoadCall W) (p : Int) : LoadCall W := { call with expertId := p, returnSuccess := true }

theorem slotCalls_filter {p : Nat} {l : Int} (hp : experts.staticEplbRow[p]? = some l) :
    (slotCalls experts call).filter (·.expertId = (p : Int)) = if call.expertId = l then [call.atSlot p] else [] := by
  have hflat : (slotCalls experts call).filter (·.expertId = (p : Int)) = experts.staticEplbRow.zipIdx.flatMap
      fun slot => if slot.2 = p then (if slot.1 = call.expertId then [call.atSlot slot.2] else []) else [] := by
    unfold slotCalls
    rw [List.filterMap_eq_flatMap_toList, List.filter_flatMap]
    apply List.flatMap_congr
    intro slot _
    by_cases hid : slot.1 = call.expertId
    · by_cases hs : slot.2 = p
      · simp [hid, hs, LoadCall.atSlot]
      · have : ¬ (slot.2 : Int) = (p : Int) := fun he => hs (Int.ofNat.inj he)
        simp [hid, hs, this]
    · simp [hid]
  rw [hflat]
  have hnd : (experts.staticEplbRow.zipIdx.map Prod.snd).Nodup := by
    rw [List.zipIdx_map_snd]
    exact List.nodup_range'
  rw [@flatMap_ite_one _ _ _ _ Prod.snd _ _ hnd (l, p) (List.mk_mem_zipIdx_iff_getElem?.mpr hp)]
  by_cases hid : call.expertId = l
  · rw [if_pos hid, if_pos hid.symm]
  · rw [if_neg hid, if_neg (Ne.symm hid)]

theorem slotCalls_lt {c : LoadCall W} (h : c ∈ slotCalls experts call) :
    0 ≤ c.expertId ∧ c.expertId < experts.staticEplbRow.length := by
  obtain ⟨slot, hslot, hc⟩ := List.mem_filterMap.mp h
  split at hc
  · cases hc
    have := List.snd_lt_of_mem_zipIdx hslot
    constructor
    · exact Int.natCast_nonneg _
    · change ((slot.2 : Nat) : Int) < _
      omega
  · cases hc

theorem tailCall_expertId : (tailCall experts call).expertId =
    experts.staticEplbRow.length + call.expertId - experts.numLogicalExperts := rfl

theorem loaderCalls_routed (h : call.expertId < experts.numLogicalExperts)
    (hg : isGlobalScale experts call.weightName = false) : loaderCalls experts call = slotCalls experts call := by
  have hs : isShared experts call.expertId = false := by
    rw [← Bool.not_eq_true, isShared_iff]
    omega
  unfold loaderCalls
  rw [hs, hg]
  rfl

theorem loaderCalls_shared (h : isShared experts call.expertId = true) :
    loaderCalls experts call = [tailCall experts call] := if_pos h

theorem loaderCalls_global (h : isShared experts call.expertId = false)
    (hg : isGlobalScale experts call.weightName = true) : loaderCalls experts call = [call] := by
  unfold loaderCalls
  rw [h, hg]
  rfl

/-! ## All entries -/

/-- Each slot of the row has the weight of its logical expert, each shared expert a slot after the row. -/
structure LoadedOnce (experts : RoutedExperts) (weights : Int → LoadedWeight W) (calls : List (LoadCall W)) : Prop where
  routed : ∀ (p : Nat) l, experts.staticEplbRow[p]? = some l →
    ∃ c, calls.filter (·.expertId = (p : Int)) = [c] ∧ c.loadedWeight = weights l
  shared : ∀ s < experts.numFusedSharedExperts, ∃ c,
    calls.filter (·.expertId = (experts.staticEplbRow.length + s : Int)) = [c] ∧
      c.loadedWeight = weights (experts.numLogicalExperts + s)
  range : ∀ c ∈ calls, 0 ≤ c.expertId ∧ c.expertId < experts.staticEplbRow.length + experts.numFusedSharedExperts

variable {param weightName : String} {weights : Int → LoadedWeight W} {returnSuccess : Bool}
  {original : LoadCall W → Option Bool} {entries : List MappingEntry}

theorem entryCalls_routed {e : MappingEntry} (h : e.expertId < experts.numLogicalExperts)
    (hg : isGlobalScale experts weightName = false) :
    loaderCalls experts (entryCall param weightName weights returnSuccess e) =
      slotCalls experts (entryCall param weightName weights returnSuccess e) := loaderCalls_routed h hg

theorem loadEntries_ok (h : ∀ e ∈ entries, isShared experts e.expertId = false →
      e.expertId ∈ experts.staticEplbRow ∧ (weights e.expertId).isUnsplit = false) :
    loadEntries experts original param weightName weights returnSuccess entries =
      .ok (entries.flatMap fun e => loaderCalls experts (entryCall param weightName weights returnSuccess e)) := by
  unfold loadEntries
  induction entries with
  | nil => rfl
  | cons e entries ih =>
    obtain ⟨loads, hloads, hflat⟩ := bind_eq_ok.mp (ih fun e' he' => h e' (List.mem_cons_of_mem _ he'))
    obtain ⟨result, hresult⟩ := staticLoader_ok (entryCall param weightName weights returnSuccess e) original
      (h e List.mem_cons_self)
    refine bind_eq_ok.mpr ⟨_, (mapM_eq_ok _).mpr (.cons hresult ((mapM_eq_ok _).mp hloads)), ?_⟩
    rw [List.flatMap_cons, List.flatMap_cons, pure_eq_ok.mp hflat]
    rfl

/-- The entries have each logical and each shared id once. -/
structure EachId (experts : RoutedExperts) (entries : List MappingEntry) : Prop where
  nodup : (entries.map (·.expertId)).Nodup
  mem : ∀ id, (∃ e ∈ entries, e.expertId = id) ↔
    0 ≤ id ∧ id < experts.numLogicalExperts + experts.numFusedSharedExperts

theorem EachId.filter_one (h : EachId experts entries) {f : MappingEntry → List (LoadCall W)} {slot : Int}
    {e : MappingEntry} (he : e ∈ entries)
    (hf : ∀ e' ∈ entries, (f e').filter (·.expertId = slot) =
      if e'.expertId = e.expertId then (f e').filter (·.expertId = slot) else []) :
    (entries.flatMap f).filter (·.expertId = slot) = (f e).filter (·.expertId = slot) := by
  rw [List.filter_flatMap, List.flatMap_congr hf]
  exact flatMap_ite_one _ h.nodup he

theorem filter_slot_nil {calls : List (LoadCall W)} {slot : Int} (h : ∀ c ∈ calls, c.expertId ≠ slot) :
    calls.filter (·.expertId = slot) = [] := by
  apply List.filter_eq_nil_iff.mpr
  intro c hc
  rw [decide_eq_true_eq]
  exact h c hc

theorem EachId.routed_or_shared (h : EachId experts entries) {e : MappingEntry} (he : e ∈ entries) :
    e.expertId < experts.numLogicalExperts ∨ isShared experts e.expertId = true := by
  have := (h.mem e.expertId).mp ⟨e, he, rfl⟩
  rw [isShared_iff]
  omega

theorem loadedOnce_of_eachId (hl : 0 ≤ experts.numLogicalExperts)
    (hrow : PlanRow experts.numLogicalExperts experts.staticEplbRow)
    (h : EachId experts entries) (hg : isGlobalScale experts weightName = false) :
    LoadedOnce experts weights
      (entries.flatMap fun e => loaderCalls experts (entryCall param weightName weights returnSuccess e)) where
  routed p l hp := by
    obtain ⟨h0, hlt⟩ := hrow.range l (List.mem_of_getElem? hp)
    obtain ⟨hplen, _⟩ := List.getElem?_eq_some_iff.mp hp
    obtain ⟨e, he, hid⟩ := (h.mem l).mpr ⟨h0, by omega⟩
    refine ⟨(entryCall param weightName weights returnSuccess e).atSlot p, ?_, congrArg weights hid⟩
    rw [h.filter_one he fun e' he' => ?_, entryCalls_routed (hid.trans_lt hlt) hg, slotCalls_filter hp]
    · exact if_pos hid
    · by_cases heq : e'.expertId = e.expertId
      · rw [if_pos heq]
      · rw [if_neg heq]
        obtain hrouted | hshared := h.routed_or_shared he'
        · rw [entryCalls_routed hrouted hg, slotCalls_filter hp]
          exact if_neg fun hl => heq (hl.trans hid.symm)
        · -- the slot of a shared expert comes after the row
          rw [loaderCalls_shared hshared]
          apply filter_slot_nil
          intro c hc
          rw [List.mem_singleton.mp hc, tailCall_expertId]
          have := (isShared_iff.mp hshared).1
          change (_ : Int) + e'.expertId - _ ≠ _
          omega
  shared s hs := by
    obtain ⟨e, he, hid⟩ := (h.mem (experts.numLogicalExperts + s)).mpr ⟨by omega, by omega⟩
    have hshared : isShared experts e.expertId = true := by
      rw [isShared_iff]
      omega
    refine ⟨tailCall experts (entryCall param weightName weights returnSuccess e), ?_, congrArg weights hid⟩
    rw [h.filter_one he fun e' he' => ?_, loaderCalls_shared hshared]
    · apply List.filter_eq_self.mpr
      intro c hc
      rw [List.mem_singleton.mp hc, decide_eq_true_eq, tailCall_expertId]
      change (_ : Int) + e.expertId - _ = _
      omega
    · by_cases heq : e'.expertId = e.expertId
      · rw [if_pos heq]
      · rw [if_neg heq]
        apply filter_slot_nil
        intro c hc
        obtain hrouted | hshared' := h.routed_or_shared he'
        · rw [entryCalls_routed hrouted hg] at hc
          have := (slotCalls_lt hc).2
          omega
        · rw [loaderCalls_shared hshared'] at hc
          rw [List.mem_singleton.mp hc, tailCall_expertId]
          change (_ : Int) + e'.expertId - _ ≠ _
          omega
  range c hc := by
    obtain ⟨e, he, hc⟩ := List.mem_flatMap.mp hc
    obtain hrouted | hshared := h.routed_or_shared he
    · rw [entryCalls_routed hrouted hg] at hc
      have := slotCalls_lt hc
      omega
    · rw [loaderCalls_shared hshared] at hc
      rw [List.mem_singleton.mp hc, tailCall_expertId]
      have := isShared_iff.mp hshared
      change 0 ≤ (_ : Int) + e.expertId - _ ∧ (_ : Int) + e.expertId - _ < _
      omega

/-! ## The static mapping -/

/-- Without redundant and fused entries, a mapping has an entry of each expert id for the shard. -/
def BuildsEach (buildExpertParamsMapping : MappingArgs → List MappingEntry) (shardId : String) : Prop :=
  ∀ args, args.numRedundantExperts = 0 → args.includeFused = false →
    (((buildExpertParamsMapping args).filter (·.shardId = shardId)).map (·.expertId)).Perm
      ((List.range args.numExperts.toNat).map Int.ofNat)

theorem eachId_of_builds {build : MappingArgs → List MappingEntry} {shardId : String} (hb : BuildsEach build shardId)
    {own : ProjNames} {gate down up : Option String}
    (hperm : entries.Perm ((logicalModelMapping (staticExpertMapping build experts own gate down up false)
      (experts.numLogicalExperts + experts.numFusedSharedExperts)).filter (·.shardId = shardId))) :
    EachId experts entries := by
  obtain ⟨args, hargs, hr, hf, hn⟩ : ∃ args, staticExpertMapping build experts own gate down up false = build args ∧
      args.numRedundantExperts = 0 ∧ args.includeFused = false ∧
      args.numExperts = experts.numLogicalExperts + experts.numFusedSharedExperts := ⟨_, rfl, rfl, rfl, rfl⟩
  have hids := hb args hr hf
  have hmem : ∀ id, id ∈ ((build args).filter (·.shardId = shardId)).map (·.expertId) ↔
      0 ≤ id ∧ id < experts.numLogicalExperts + experts.numFusedSharedExperts := by
    intro id
    rw [hids.mem_iff, List.mem_map, ← hn]
    constructor
    · intro ⟨n, hlt, he⟩
      have := List.mem_range.mp hlt
      subst he
      change 0 ≤ (n : Int) ∧ (n : Int) < _
      omega
    · intro ⟨h0, hlt⟩
      obtain ⟨n, rfl⟩ := Int.eq_ofNat_of_zero_le h0
      exact ⟨n, List.mem_range.mpr (by omega), rfl⟩
  -- the ids of the static mapping are all below the bound of the model's filter
  have hfilter : (logicalModelMapping (build args) (experts.numLogicalExperts + experts.numFusedSharedExperts)).filter
      (·.shardId = shardId) = (build args).filter (·.shardId = shardId) := by
    unfold logicalModelMapping
    rw [List.filter_comm]
    apply List.filter_eq_self.mpr
    intro e he
    rw [decide_eq_true_eq]
    exact ((hmem e.expertId).mp (List.mem_map_of_mem he)).2
  rw [hargs, hfilter] at hperm
  constructor
  · rw [(hperm.map _).nodup_iff, hids.nodup_iff]
    exact List.nodup_range.map fun _ _ he => Int.ofNat.inj he
  · intro id
    rw [← hmem, ← (hperm.map _).mem_iff, List.mem_map]

/-! ## Loading -/

/-- A global scale is read by the logical ids, and each call keeps the id of its entry; only a shared expert has its
slot after the row. -/
def ScaleLoads (experts : RoutedExperts) (call : MappingEntry → LoadCall W) (entries : List MappingEntry)
    (calls : List (LoadCall W)) : Prop :=
  calls = entries.map fun e => if isShared experts e.expertId then tailCall experts (call e) else call e

theorem scaleLoads (hg : isGlobalScale experts weightName = true) :
    ScaleLoads experts (entryCall param weightName weights returnSuccess) entries
      (entries.flatMap fun e => loaderCalls experts (entryCall param weightName weights returnSuccess e)) := by
  unfold ScaleLoads
  rw [List.map_eq_flatMap]
  apply List.flatMap_congr
  intro e _
  cases hs : isShared experts e.expertId with
  | true => exact loaderCalls_shared hs
  | false => exact loaderCalls_global hs hg

/-- A tensor that is not split is refused for every logical expert. -/
theorem loadEntries_unsplit {e : MappingEntry} (he : e ∈ entries) (hid : e.expertId < experts.numLogicalExperts) (hu : (weights e.expertId).isUnsplit = true) :
    ∃ error, loadEntries experts original param weightName weights returnSuccess entries = .error error := by
  cases hload : loadEntries experts original param weightName weights returnSuccess entries with
  | error error => exact ⟨error, rfl⟩
  | ok calls =>
    obtain ⟨loads, hloads, _⟩ := bind_eq_ok.mp hload
    obtain ⟨loaded, _, hok⟩ := forall₂_mem_left ((mapM_eq_ok _).mp hloads) he
    have hs : ¬ isShared experts e.expertId = true := by
      rw [isShared_iff]
      omega
    obtain ⟨_, _, hok⟩ := bind_eq_ok.mp ((if_neg hs).symm.trans hok)
    obtain ⟨_, hsplit, _⟩ := bind_eq_ok.mp hok
    exact absurd hu (ensure_eq_ok.mp hsplit)

end

theorem static_slots_loaded_once {W : Type} {modelKey modelName recordKind : String} {source : Source}
    {rows : List Json} {logical physical redundant : Int} {plan : StaticEplbPlan}
    (hplan : StaticEplbPlan.make modelKey modelName source recordKind rows logical physical redundant = .ok plan)
    (experts : RoutedExperts) (hrow : experts.staticEplbRow ∈ plan.mapValues)
    (hlogical : experts.numLogicalExperts = plan.numLogicalExperts)
    (build : MappingArgs → List MappingEntry) (own : ProjNames) (gate down up : Option String) (shardId : String)
    (hbuild : BuildsEach build shardId) (entries : List MappingEntry)
    (hentries : entries.Perm ((logicalModelMapping (staticExpertMapping build experts own gate down up false)
      (plan.numLogicalExperts + experts.numFusedSharedExperts)).filter (·.shardId = shardId)))
    (original : LoadCall W → Option Bool) (param weightName : String) (weights : Int → LoadedWeight W)
    (returnSuccess : Bool) :
    ((∀ id, 0 ≤ id → id < plan.numLogicalExperts → (weights id).isUnsplit = false) → ∃ calls,
      loadEntries experts original param weightName weights returnSuccess entries = .ok calls ∧
        if isGlobalScale experts weightName then
          ScaleLoads experts (entryCall param weightName weights returnSuccess) entries calls
        else LoadedOnce experts weights calls) ∧
    ((∃ id, 0 ≤ id ∧ id < plan.numLogicalExperts ∧ (weights id).isUnsplit = true) → ∃ error,
      loadEntries experts original param weightName weights returnSuccess entries = .error error) := by
  have hplanRow := make_planRow hplan hrow
  have hl : 0 ≤ experts.numLogicalExperts := by
    obtain ⟨⟨_, _, _, h1, _⟩, _, _, _, rfl⟩ := make_eq_ok.mp hplan
    rw [hlogical]
    change 0 ≤ logical
    omega
  rw [← hlogical] at hentries hplanRow ⊢
  have heach := eachId_of_builds hbuild hentries
  constructor
  · intro hsplit
    refine ⟨_, loadEntries_ok fun e he hs => ?_, ?_⟩
    · have h0 := (heach.mem e.expertId).mp ⟨e, he, rfl⟩
      have hlt := (heach.routed_or_shared he).resolve_right (by rw [hs]; exact Bool.false_ne_true)
      exact ⟨hplanRow.all _ h0.1 hlt, hsplit _ h0.1 hlt⟩
    · cases hg : isGlobalScale experts weightName with
      | true => exact scaleLoads hg
      | false => exact loadedOnce_of_eachId hl hplanRow heach hg
  · intro ⟨id, h0, hlt, hu⟩
    obtain ⟨e, he, rfl⟩ := (heach.mem id).mpr ⟨h0, by omega⟩
    exact loadEntries_unsplit he hlt hu

/-- An entry for each expert id, all of shard `w1`. -/
def oneShard (args : MappingArgs) : List MappingEntry :=
  (List.range args.numExperts.toNat).map fun (n : Nat) =>
    ⟨"w1", "experts." ++ toString n ++ "." ++ args.ckptGateProjName, Int.ofNat n, "w1"⟩

theorem oneShard_buildsEach : BuildsEach oneShard "w1" := by
  intro args _ _
  unfold oneShard
  rw [List.filter_eq_self.mpr (by simp), List.map_map]
  exact .refl _

/-- Two logical experts on three slots. -/
def smallPlan : StaticEplbPlan :=
  ⟨"Model", "model", recordSource.path, recordSource.sha256, "proposal", [[0, 1, 0]], 2, 3, 1⟩

theorem smallPlan_made : StaticEplbPlan.make "Model" "model" recordSource "proposal"
    [.arr [.int 0, .int 1, .int 0]] 2 3 1 = .ok smallPlan := by
  refine make_eq_ok.mpr ⟨by decide, by decide, [[0, 1, 0]], by rfl, rfl⟩

def scalarWeight (id : Int) : LoadedWeight Int := ⟨id, some 2⟩

theorem static_slots_loaded_once_small : ∃ calls,
    loadEntries ⟨[0, 1, 0], 2, 1, false⟩ (fun _ => some true) "w13_weight" "w13_weight" scalarWeight false
      (oneShard ⟨"gate", "down", "up", 3, 0, "", "", false⟩) = .ok calls ∧
        LoadedOnce ⟨[0, 1, 0], 2, 1, false⟩ scalarWeight calls :=
  (static_slots_loaded_once smallPlan_made ⟨[0, 1, 0], 2, 1, false⟩ (by decide) rfl oneShard ⟨"gate", "down", "up", ""⟩
    none none none "w1" oneShard_buildsEach (oneShard ⟨"gate", "down", "up", 3, 0, "", "", false⟩)
    (.of_eq (by decide)) (fun _ => some true) "w13_weight" "w13_weight" scalarWeight false).1 fun _ _ _ => rfl

/-- A global scale is loaded for the ids 0 and 1 alone, so slot 2 is not written. -/
theorem global_scale_misses_slot : StaticEplbPlan.make "Model" "model" recordSource "proposal"
      [.arr [.int 0, .int 1, .int 0]] 2 3 1 = .ok smallPlan ∧
    ∃ calls, loadEntries ⟨[0, 1, 0], 2, 0, true⟩ (fun _ => some true) "w2_input_scale" "w2_input_scale" scalarWeight
      false (oneShard ⟨"gate", "down", "up", 2, 0, "", "", false⟩) = .ok calls ∧
        ¬ LoadedOnce ⟨[0, 1, 0], 2, 0, true⟩ scalarWeight calls := by
  refine ⟨smallPlan_made, [⟨"w2_input_scale", scalarWeight 0, "w2_input_scale", "w1", 0, false⟩,
    ⟨"w2_input_scale", scalarWeight 1, "w2_input_scale", "w1", 1, false⟩], by rfl, fun h => ?_⟩
  obtain ⟨c, hc, _⟩ := h.routed 2 0 rfl
  have hnil : ([] : List (LoadCall Int)) = [c] := hc
  cases hnil

end VllmHcu.Eplb
