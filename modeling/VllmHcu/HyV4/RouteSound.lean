import VllmHcu.HyV4.LedgerSound
import Mathlib.Data.List.Flatten

/-!
# Routes store what they record

Each route of an entry pairs every store with a record of the same slot, unless
it raises. A store into one shard goes to a parameter whose slots are shards;
that depends on the names of the layout.
-/

namespace VllmHcu.HyV4

section
variable (L : Layout)

/-- The parameter names that the projections and the experts are mapped to have the slots of such parameters. -/
structure Layout.Sharded : Prop where
  qkv : ∀ p ∈ L.params, Text.has (text ".qkv_proj") p.name = false
  pair : ∀ p ∈ L.params, Text.has (text ".gate_up_proj") p.name = true ∨ Text.has (text "wk_weights_proj") p.name = true →
    isFusedPairParam p.name = true ∧ p.isKvScale = false
  expert : ∀ m ∈ L.expertMapping ++ fusedExpertParamsMapping L, ∀ p ∈ L.params, Text.has m.paramName p.name = true →
    isExpertParam p.name = true ∧ isFusedPairParam p.name = false ∧ p.isKvScale = false
  weightName : ∀ m ∈ L.expertMapping, m.weightName ≠ []

/-- A store into `slot` does not stand for the whole parameter, or is one of all slots. -/
def Slotted (name : Text) (slot : Slot) : Prop := slot ≠ .whole → .whole ∉ L.recordSlots name .whole

variable {L}

theorem slotted_whole (name : Text) : Slotted L name .whole := fun h => absurd rfl h

theorem hasParam_iff {name : Text} : L.hasParam name = true ↔ ∃ p ∈ L.params, p.name = name := by
  unfold Layout.hasParam
  simp only [List.any_eq_true, decide_eq_true_eq]

theorem recordSlots_of_param {name : Text} (hp : ∃ p ∈ L.params, p.name = name)
    (hkv : ∀ p ∈ L.params, p.name = name → p.isKvScale = false) :
    ∃ p ∈ L.params, p.name = name ∧ L.recordSlots name .whole = expectedSlots L p := by
  unfold Layout.recordSlots Layout.expected
  rw [if_pos rfl]
  cases hf : L.params.find? fun p => p.name = name && !p.isKvScale with
  | none =>
    obtain ⟨p, hpm, hn⟩ := hp
    have := List.find?_eq_none.mp hf p hpm
    rw [hkv p hpm hn] at this
    exact absurd (by simp [hn]) this
  | some p =>
    have hn := List.find?_some hf
    rw [Bool.and_eq_true, decide_eq_true_eq] at hn
    exact ⟨p, List.mem_of_find?_eq_some hf, hn.1, rfl⟩

theorem Layout.Sharded.slotted_pair (h : L.Sharded) {name : Text} (hp : L.hasParam name = true)
    (hn : Text.has (text ".gate_up_proj") name = true ∨ Text.has (text "wk_weights_proj") name = true) (slot : Slot) :
    Slotted L name slot := by
  intro _
  obtain ⟨p, hpm, rfl, hslots⟩ := recordSlots_of_param (hasParam_iff.mp hp) fun p hpm he => (h.pair p hpm (he ▸ hn)).2
  rw [hslots]
  unfold expectedSlots
  rw [if_pos (h.pair p hpm hn).1]
  decide

/-- Names that a mapping of the experts leads to have experts as slots. -/
theorem Layout.Sharded.slotted_expert (h : L.Sharded) {name : Text} (hp : L.hasParam name = true) {m : ExpertMapping}
    (hm : m ∈ L.expertMapping ++ fusedExpertParamsMapping L) (hn : Text.has m.paramName name = true) (slot : Slot) :
    Slotted L name slot := by
  intro _
  obtain ⟨p, hpm, rfl, hslots⟩ := recordSlots_of_param (hasParam_iff.mp hp)
    fun p hpm he => (h.expert m hm p hpm (he ▸ hn)).2.2
  obtain ⟨hexpert, hpair, -⟩ := h.expert m hm p hpm hn
  rw [hslots]
  unfold expectedSlots
  rw [if_neg (by rw [hpair]; decide), if_pos hexpert]
  intro hw
  obtain ⟨i, -, hi⟩ := List.mem_flatMap.mp hw
  obtain ⟨shard, -, he⟩ := List.mem_map.mp hi
  cases he

end

/-! ## Exact lists -/

section
variable {T : Type} (L : Layout)

/-- The slots that the store of an operation fills. -/
def Op.storeCells (op : Op T) : List (Text × Slot) := op.plain.flatMap fun s => cellsOf L s.name s.slot

structure Exact (l : List (Op T)) : Prop where
  balanced : (∀ error, .raise error ∉ l) → (l.flatMap (Op.recordCells L)).Perm (l.flatMap (Op.storeCells L))
  store : ∀ name slot value, .store name slot value ∈ l → Slotted L name slot
  fp8 : ∀ name shard part value, .fp8 name shard part value ∈ l → Slotted L name shard

variable {L}

theorem exact_nil : Exact L ([] : List (Op T)) := ⟨fun _ => .nil, nofun, nofun⟩

theorem exact_raise (error : String) : Exact L [(.raise error : Op T)] :=
  ⟨fun h => absurd (List.mem_singleton_self _) (h error), by simp, by simp⟩

theorem exact_append {l l' : List (Op T)} (h : Exact L l) (h' : Exact L l') : Exact L (l ++ l') := by
  constructor
  · intro hr
    rw [List.flatMap_append, List.flatMap_append]
    apply List.Perm.append
    · exact h.balanced fun e he => hr e (List.mem_append_left _ he)
    · exact h'.balanced fun e he => hr e (List.mem_append_right _ he)
  · intro name slot value hm
    rcases List.mem_append.mp hm with hm | hm
    · exact h.store name slot value hm
    · exact h'.store name slot value hm
  · intro name shard part value hm
    rcases List.mem_append.mp hm with hm | hm
    · exact h.fp8 name shard part value hm
    · exact h'.fp8 name shard part value hm

theorem exact_flatMap {α : Type} {f : α → List (Op T)} : ∀ {l : List α}, (∀ a ∈ l, Exact L (f a)) → Exact L (l.flatMap f)
  | [], _ => exact_nil
  | a :: l, h => by
    rw [List.flatMap_cons]
    exact exact_append (h a List.mem_cons_self) (exact_flatMap fun b hb => h b (List.mem_cons_of_mem _ hb))

theorem exact_loaded (names : List Text) : Exact L (names.map (Op.loaded : Text → Op T)) :=
  ⟨fun _ => by simp [List.flatMap_map, Op.recordCells, Op.storeCells, Op.plain], by simp, by simp⟩

theorem exact_otherLoaded (names : List Text) : Exact L (names.map (Op.otherLoaded : Text → Op T)) :=
  ⟨fun _ => by simp [List.flatMap_map, Op.recordCells, Op.storeCells, Op.plain], by simp, by simp⟩

theorem exact_seen (name : Text) : Exact L [(.seen name : Op T)] :=
  ⟨fun _ => by simp [Op.recordCells, Op.storeCells, Op.plain], by simp, by simp⟩

theorem exact_piece {name : Text} {shard : Slot} (h : Slotted L name shard) (part : Part) (value : T) :
    Exact L [.fp8 name shard part value] := by
  refine ⟨fun _ => by simp [Op.recordCells, Op.storeCells, Op.plain], by simp, ?_⟩
  intro n s p v hm
  cases List.mem_singleton.mp hm
  exact h

theorem exact_store_record {name : Text} {slot : Slot} (h : Slotted L name slot) (value : T) :
    Exact L [.store name slot value, .record name slot] := by
  refine ⟨fun _ => by simp [Op.recordCells, Op.storeCells, Op.plain], ?_, by simp⟩
  intro n s v hm
  cases hm with
  | head => exact h
  | tail _ hm => cases List.mem_singleton.mp hm

theorem exact_record_store {name : Text} {slot : Slot} (h : Slotted L name slot) (value : T) :
    Exact L [.record name slot, .store name slot value, .loaded name] := by
  refine ⟨fun _ => by simp [Op.recordCells, Op.storeCells, Op.plain], ?_, by simp⟩
  intro n s v hm
  have : (Op.store n s v) = .store name slot value := by simpa using hm
  cases this
  exact h

/-! ## The routes -/

variable {ops : TensorOps T} {name : Text} {tensor : T}

theorem exact_recordAndLoad {slot : Slot} (h : Slotted L name slot) : Exact L (recordAndLoad ops name slot tensor) := by
  unfold recordAndLoad withLoader
  cases ops.weightLoader name slot tensor with
  | error e => exact ⟨fun hr => absurd (by simp) (hr e), by simp, by simp⟩
  | ok b => exact exact_record_store h tensor

/-- The FP8 projections are the indexer's two shards and the whole gate. -/
theorem matchFp8_shard {parameterName : Text} {shard : Slot} {part : Part}
    (h : matchFp8 name = some (parameterName, shard, part)) :
    shard = .whole ∨ Text.has (text "wk_weights_proj") parameterName = true := by
  have hproj : ∀ {rest : List Text} {m : Text × Slot × Part}, matchProjection rest = some m →
      m.2.1 = .whole ∨ m.1 = text "self_attn.indexer.wk_weights_proj" := by
    intro rest m hm
    unfold matchProjection at hm
    split at hm
    · split at hm
      · split at hm
        · obtain ⟨p, -, rfl⟩ := Option.map_eq_some_iff.mp hm
          exact .inr rfl
        · split at hm
          · obtain ⟨p, -, rfl⟩ := Option.map_eq_some_iff.mp hm
            exact .inr rfl
          · cases hm
      · cases hm
    · split at hm
      · obtain ⟨p, -, rfl⟩ := Option.map_eq_some_iff.mp hm
        exact .inl rfl
      · cases hm
    · cases hm
  unfold matchFp8 at h
  dsimp only at h
  split at h
  · split at h
    · obtain ⟨m, hm, he⟩ := Option.map_eq_some_iff.mp h
      obtain ⟨hname, hshard, -⟩ := by simpa only [Prod.ext_iff] using he
      refine (hproj hm).imp (fun hw => hshard ▸ hw) fun hn => ?_
      rw [← hname, hn, Text.has_iff]
      refine List.IsInfix.trans ?_ (List.prefix_append _ _).isInfix
      refine List.IsInfix.trans ?_ (List.suffix_append _ _).isInfix
      exact ⟨text "self_attn.indexer.", [], by decide⟩
    · cases h
  · cases h

theorem exact_tryLoadFp8 (hL : L.Sharded) {l : List (Op T)} (h : tryLoadFp8 ops L name tensor = some l) : Exact L l := by
  unfold tryLoadFp8 at h
  split at h
  · cases h
  · rename_i parameterName shard part hm
    split at h
    · cases h
    · split at h
      · cases h
        exact exact_nil
      · split at h
        · cases h
          exact exact_raise _
        · rename_i hp
          rw [Bool.not_eq_true, Bool.not_eq_false'] at hp
          cases h
          apply exact_piece
          rcases matchFp8_shard hm with rfl | hn
          · exact slotted_whole _
          · exact hL.slotted_pair hp (.inr hn) shard

theorem stackedParamsMapping_names : ∀ m ∈ stackedParamsMapping, m.weightName ≠ [] ∧
    (m.paramName = text ".qkv_proj" ∨ m.paramName = text ".gate_up_proj" ∨ m.paramName = text "wk_weights_proj") := by
  decide

/-- A projection of the stacked mapping goes to a fused pair; there is no fused QKV. -/
theorem slotted_stacked (hL : L.Sharded) {m : StackedMapping} (hm : m ∈ stackedParamsMapping) {n : Text}
    (hp : L.hasParam n = true) (hn : Text.has m.paramName n = true) : Slotted L n m.shardId := by
  rcases (stackedParamsMapping_names m hm).2 with he | he | he
  · obtain ⟨p, hpm, rfl⟩ := hasParam_iff.mp hp
    rw [he, hL.qkv p hpm] at hn
    cases hn
  · exact hL.slotted_pair hp (.inl (he ▸ hn)) _
  · exact hL.slotted_pair hp (.inr (he ▸ hn)) _

theorem exact_stackedLoop (hL : L.Sharded) : ∀ {ms : List StackedMapping} {name : Text} {l : List (Op T)},
    (∀ m ∈ ms, m ∈ stackedParamsMapping) → stackedLoop ops L tensor ms name = .inl l → Exact L l
  | [], _, _, _, h => by cases h
  | m :: rest, name, l, hms, h => by
    have hrest : ∀ m ∈ rest, m ∈ stackedParamsMapping := fun m' hm' => hms m' (List.mem_cons_of_mem _ hm')
    unfold stackedLoop at h
    split at h
    · cases h
    · split at h
      · exact exact_stackedLoop hL hrest h
      · rename_i hhas
        rw [Bool.not_eq_true, Bool.not_eq_false'] at hhas
        split at h
        · exact exact_stackedLoop hL hrest h
        · dsimp only at h
          split at h
          · exact exact_stackedLoop hL hrest h
          · split at h
            · cases h
              exact exact_raise _
            · rename_i hp
              rw [Bool.not_eq_true, Bool.not_eq_false'] at hp
              cases h
              have hm := hms m List.mem_cons_self
              have hn : Text.has m.paramName (Text.replace m.weightName m.paramName name) = true :=
                Text.has_replace hhas (stackedParamsMapping_names m hm).1
              exact exact_recordAndLoad (slotted_stacked hL hm hp hn)

/-! ## Experts -/

theorem exact_loadFusedExpert (slots : ∀ slot, Slotted L name slot) (shardId : Text) (expertId : Nat) :
    Exact L (loadFusedExpert ops L name tensor shardId expertId).1 := by
  unfold loadFusedExpert
  dsimp only
  split
  · exact exact_raise _
  · exact exact_nil
  · exact exact_store_record (slots _) _

theorem exact_loadFusedExpertWeights (slots : L.hasParam name = true → ∀ slot, Slotted L name slot) (shardId : Text) :
    Exact L (loadFusedExpertWeights ops L name tensor shardId).1 := by
  unfold loadFusedExpertWeights
  split
  · exact exact_raise _
  · split
    · exact exact_raise _
    · rename_i hp
      rw [Bool.not_eq_true, Bool.not_eq_false'] at hp
      apply exact_flatMap
      intro step hstep
      obtain ⟨expertId, -, rfl⟩ := List.mem_map.mp hstep
      exact exact_loadFusedExpert (slots hp) shardId expertId

theorem exact_fusedExpertStep {nameMapped : Text} (slots : L.hasParam nameMapped = true → ∀ slot, Slotted L nameMapped slot)
    (shardId : Text) : Exact L (fusedExpertStep ops L name nameMapped tensor shardId).1 := by
  unfold fusedExpertStep
  split
  · split
    · exact exact_raise _
    · apply exact_append
      · exact exact_loadFusedExpertWeights slots _
      · exact exact_loadFusedExpertWeights slots _
  · exact exact_loadFusedExpertWeights slots _

theorem fusedExpertParamsMapping_weightName : ∀ m ∈ fusedExpertParamsMapping L, m.weightName ≠ [] := by
  intro m hm
  unfold fusedExpertParamsMapping at hm
  rcases List.mem_cons.mp hm with rfl | hm
  · exact List.cons_ne_nil _ _
  · rw [List.mem_singleton.mp hm]
    exact List.cons_ne_nil _ _

theorem exact_fusedExpertLoop (hL : L.Sharded) : ∀ {ms : List ExpertMapping} {isExpert : Bool},
    (∀ m ∈ ms, m ∈ fusedExpertParamsMapping L) → Exact L (fusedExpertLoop ops L name tensor ms isExpert).1
  | [], _, _ => exact_nil
  | m :: rest, isExpert, hms => by
    have hrest : ∀ m ∈ rest, m ∈ fusedExpertParamsMapping L := fun m' hm' => hms m' (List.mem_cons_of_mem _ hm')
    have hm := hms m List.mem_cons_self
    unfold fusedExpertLoop
    split
    · exact exact_fusedExpertLoop hL hrest
    · rename_i hhas
      rw [Bool.not_eq_true, Bool.not_eq_false'] at hhas
      have hn : Text.has m.paramName (Text.replace m.weightName m.paramName name) = true :=
        Text.has_replace hhas (fusedExpertParamsMapping_weightName m hm)
      have hstep := fun hp => hL.slotted_expert hp (List.mem_append_right _ hm) hn
      dsimp only
      split
      · exact exact_fusedExpertLoop hL hrest
      · split
        · exact exact_fusedExpertStep hstep m.shardId
        · exact exact_append (exact_fusedExpertStep hstep m.shardId) (exact_fusedExpertLoop hL hrest)

theorem exact_splitExpertLoop (hL : L.Sharded) : ∀ {ms : List ExpertMapping} {isExpert : Bool} {loaded : List Text},
    (∀ m ∈ ms, m ∈ L.expertMapping) → Exact L (splitExpertLoop ops L name tensor ms isExpert loaded).1
  | [], _, _, _ => exact_nil
  | m :: rest, isExpert, loaded, hms => by
    have hrest : ∀ m ∈ rest, m ∈ L.expertMapping := fun m' hm' => hms m' (List.mem_cons_of_mem _ hm')
    have hm := hms m List.mem_cons_self
    unfold splitExpertLoop
    split
    · exact exact_splitExpertLoop hL hrest
    · rename_i hhas
      rw [Bool.not_eq_true, Bool.not_eq_false'] at hhas
      have hn : Text.has m.paramName (Text.replace m.weightName m.paramName name) = true :=
        Text.has_replace hhas (hL.weightName m hm)
      dsimp only
      split
      · exact exact_splitExpertLoop hL hrest
      · split
        · exact exact_raise _
        · rename_i hp
          rw [Bool.not_eq_true, Bool.not_eq_false'] at hp
          have hslot := hL.slotted_expert hp (List.mem_append_left _ hm) hn (.expert m.expertId m.shardId)
          split
          · exact exact_raise _
          · exact exact_splitExpertLoop hL hrest
          · exact exact_append (exact_store_record hslot tensor) (exact_splitExpertLoop hL hrest)

theorem exact_plainRoute (isExpertWeight : Bool) : Exact L (plainRoute ops L name tensor isExpertWeight) := by
  unfold plainRoute
  split
  · split
    · exact exact_nil
    · split
      · exact exact_raise _
      · split
        · exact exact_raise _
        · split
          · exact exact_raise _
          · exact exact_record_store (slotted_whole _) _
  · split
    · exact exact_nil
    · dsimp only
      split
      · exact exact_nil
      · split
        · exact exact_raise _
        · exact exact_recordAndLoad (slotted_whole _)

theorem exact_expertRoute (hL : L.Sharded) : Exact L (expertRoute ops L name tensor) := by
  unfold expertRoute
  dsimp only
  apply exact_append
  · split
    · exact exact_fusedExpertLoop hL fun m hm => hm
    · exact exact_splitExpertLoop hL fun m hm => hm
  · split
    · exact exact_loaded [_]
    · split
      · exact exact_plainRoute _
      · exact exact_loaded _

theorem exact_loadEntry (hL : L.Sharded) : Exact L (loadEntry ops L name tensor) := by
  unfold loadEntry
  split
  · exact exact_nil
  · dsimp only
    split
    · rename_i l hl
      exact exact_tryLoadFp8 hL hl
    · split
      · split
        · exact exact_nil
        · split
          · exact exact_raise _
          · exact exact_recordAndLoad (slotted_whole _)
      · split
        · exact exact_nil
        · split
          · rename_i l hl
            exact exact_stackedLoop hL (fun m hm => hm) hl
          · exact exact_expertRoute hL

theorem exact_entryOps {m : CausalLM T} (hL : m.layout.Sharded) (entry : Text × T) : Exact m.layout (entryOps ops m entry) := by
  unfold entryOps
  split
  · exact exact_nil
  · split
    · exact exact_nil
    · refine @exact_append T m.layout [_] _ (exact_seen _) ?_
      split
      · exact exact_loadEntry hL
      · split
        · exact exact_raise _
        · exact exact_otherLoaded _

end

end VllmHcu.HyV4
