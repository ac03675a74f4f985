import VllmHcu.HyV4.OrderSound
import VllmHcu.HyV4.RouteSound

/-!
# Checkpoint loading is exact

A load that returns has filled every expected slot once, each time from one
entry or from one FP8 pair. The order of the entries decides nothing.
-/

namespace VllmHcu.HyV4

section
variable {T : Type}

/-- A store changes its own slot; one of the whole parameter changes all its slots, and each slot is a piece of the whole. -/
def Store.touches (s : Store T) (name : Text) (slot : Slot) : Bool :=
  s.name = name && (s.slot = slot || s.slot = .whole || slot = .whole)

/-- The store that a slot has its content from: the last one that changed it. -/
def content (stores : List (Store T)) (name : Text) (slot : Slot) : Option (Store T) :=
  (stores.filter fun s => s.touches name slot).getLast?

/-- A store of one entry, or of one FP8 weight and one scale. -/
def Store.comesFrom (ops : TensorOps T) (m : CausalLM T) (entries : List (Text × T)) (s : Store T) : Prop :=
  match s.value with
  | .tensor value => ∃ e ∈ entries, .store s.name s.slot value ∈ entryOps ops m e
  | .dequantized weight scale => (∃ e ∈ entries, .fp8 s.name s.slot .weight weight ∈ entryOps ops m e) ∧
      ∃ e ∈ entries, .fp8 s.name s.slot .scale scale ∈ entryOps ops m e

/-! ## Stores and cells -/

variable {ops : TensorOps T} {L : Layout} {l l' : List (Op T)} {st st' : LoadState T}

theorem touches_iff {s : Store T} {name : Text} {slot : Slot} (hs : Slotted L s.name s.slot)
    (hslot : slot ∈ L.recordSlots name .whole) :
    s.touches name slot = true ↔ (name, slot) ∈ cellsOf L s.name s.slot := by
  unfold Store.touches
  rw [mem_cellsOf, Bool.and_eq_true, decide_eq_true_eq]
  constructor
  · rintro ⟨rfl, ht⟩
    refine ⟨rfl, ?_⟩
    by_cases hw : s.slot = .whole
    · rwa [hw]
    · unfold Layout.recordSlots
      rw [if_neg hw, List.mem_singleton]
      simp only [Bool.or_eq_true, decide_eq_true_eq] at ht
      rcases ht with (ht | ht) | ht
      · exact ht.symm
      · exact absurd ht hw
      · exact absurd (ht ▸ hslot) (hs hw)
  · rintro ⟨rfl, ht⟩
    refine ⟨rfl, ?_⟩
    unfold Layout.recordSlots at ht
    split at ht
    · rename_i hw
      simp [hw]
    · rw [List.mem_singleton.mp ht]
      simp

theorem Kept.stores_perm_received (h : Kept ops L l st) (hl : Exact L l) :
    (st.stores.flatMap fun s => cellsOf L s.name s.slot).Perm st.accounting.received := by
  have hsplit : ((st.stores.flatMap fun s => s.plain.flatMap fun s => cellsOf L s.name s.slot) ++
      st.stores.flatMap (Store.pairCells L)).Perm (st.stores.flatMap fun s => cellsOf L s.name s.slot) := by
    refine (List.flatMap_append_perm st.stores _ _).trans (.of_eq ?_)
    apply List.flatMap_congr
    rintro ⟨name, slot, value⟩ _
    cases value <;> simp [Store.plain, Store.pairCells]
  have hplain : (st.stores.flatMap fun s => s.plain.flatMap fun s => cellsOf L s.name s.slot) =
      l.flatMap (Op.storeCells L) := by
    rw [← List.flatMap_assoc, h.plain, List.flatMap_assoc]
    rfl
  rw [hplain] at hsplit
  exact hsplit.symm.trans (((hl.balanced h.noRaise).symm.append_right _).trans h.received)

theorem Kept.slotted (h : Kept ops L l st) (hl : Exact L l) {s : Store T} (hs : s ∈ st.stores) : Slotted L s.name s.slot := by
  cases hv : s.value with
  | tensor value =>
    have hm : s ∈ l.flatMap Op.plain := by
      rw [← h.plain]
      refine List.mem_flatMap.mpr ⟨s, hs, ?_⟩
      unfold Store.plain
      rw [hv]
      exact List.mem_singleton_self s
    obtain ⟨op, hop, hm⟩ := List.mem_flatMap.mp hm
    cases op with
    | store name slot value =>
      cases List.mem_singleton.mp hm
      exact hl.store name slot value hop
    | _ => cases hm
  | dequantized weight scale => exact hl.fp8 _ _ _ _ (h.store_pieces hs hv).1

theorem Kept.touched_once (h : Kept ops L l st) (hl : Exact L l) {name : Text} {slot : Slot}
    (hslot : slot ∈ L.recordSlots name .whole) (hr : (name, slot) ∈ st.accounting.received) :
    st.stores.countP (fun s => s.touches name slot) = 1 := by
  have hp := h.stores_perm_received hl
  apply countP_eq_one_of_flatMap
  · intro s hs
    exact touches_iff (h.slotted hl hs) hslot
  · exact hp.nodup_iff.mpr h.receivedNodup
  · exact hp.mem_iff.mpr hr

theorem Kept.touched_le (h : Kept ops L l st) (hl : Exact L l) {name : Text} {slot : Slot}
    (hslot : slot ∈ L.recordSlots name .whole) : st.stores.countP (fun s => s.touches name slot) ≤ 1 := by
  by_cases hr : (name, slot) ∈ st.accounting.received
  · exact (h.touched_once hl hslot hr).le
  · rw [← (h.stores_perm_received hl).mem_iff] at hr
    rw [countP_eq_zero_of_flatMap (fun s hs => touches_iff (h.slotted hl hs) hslot) hr]
    exact Nat.zero_le 1

theorem eq_of_mem_iff_of_length_le {α : Type} {a b : List α} (h : ∀ x, x ∈ a ↔ x ∈ b) (ha : a.length ≤ 1)
    (hb : b.length ≤ 1) : a = b := by
  have hsingle : ∀ {x : α} {l : List α}, (x :: l).length ≤ 1 → l = [] := by
    intro x l hle
    rw [List.length_cons] at hle
    exact List.length_eq_zero_iff.mp (by omega)
  cases a with
  | nil =>
    cases b with
    | nil => rfl
    | cons y _ => exact absurd ((h y).mpr List.mem_cons_self) List.not_mem_nil
  | cons x l =>
    cases b with
    | nil => exact absurd ((h x).mp List.mem_cons_self) List.not_mem_nil
    | cons y l' =>
      rw [hsingle ha, hsingle hb] at h ⊢
      rw [List.mem_singleton.mp ((h x).mp (List.mem_singleton_self x))]

/-- Two orders of a complete list leave every slot with the same content. -/
theorem content_perm (hc : Complete ops L l) (hl : Exact L l) (hl' : Exact L l') (hp : l.Perm l') (h : Kept ops L l st)
    (h' : Kept ops L l' st') {name : Text} {slot : Slot} (hslot : slot ∈ L.recordSlots name .whole) :
    content st.stores name slot = content st'.stores name slot := by
  unfold content
  congr 1
  apply eq_of_mem_iff_of_length_le
  · intro s
    rw [List.mem_filter, List.mem_filter]
    have hmem : s ∈ st.stores ↔ s ∈ st'.stores :=
      ⟨stores_perm hc hp h h', stores_perm (hc.perm hp) hp.symm h' h⟩
    rw [hmem]
  · rw [← List.countP_eq_length_filter]
    exact h.touched_le hl hslot
  · rw [← List.countP_eq_length_filter]
    exact h'.touched_le hl' hslot

end

/-! ## The outer load -/

section
variable {T : Type} {ops : TensorOps T} {m : CausalLM T} {entries entries' : List (Text × T)}

def opsOf (ops : TensorOps T) (m : CausalLM T) (entries : List (Text × T)) : List (Op T) := entries.flatMap (entryOps ops m)

/-- The state that the run of all entries ends in. -/
def finalState (ops : TensorOps T) (m : CausalLM T) (entries : List (Text × T)) : LoadState T :=
  (runOps ops m.layout (opsOf ops m entries) .initial).2

theorem exact_opsOf (hL : m.layout.Sharded) : Exact m.layout (opsOf ops m entries) :=
  exact_flatMap fun entry _ => exact_entryOps hL entry

/-- What a load that returns went through. -/
structure Returned (ops : TensorOps T) (m : CausalLM T) (entries : List (Text × T)) : Prop where
  packed : m.packedW4A8 = false
  constructed : m.layout.constructorRaises = false
  ran : (runOps ops m.layout (opsOf ops m entries) .initial).1 = .ok ()
  validated : (finalState ops m entries).accounting.validate m.layout = .ok ()
  required : ∀ name ∈ m.requiredParams, name ∈ (finalState ops m entries).loadedNames

theorem loadWeights_ok {ledger : Option (Accounting T)} {names : List Text}
    (h : (loadWeights ops m ledger entries).result = .ok names) : Returned ops m entries := by
  unfold loadWeights at h
  cases hpacked : m.packedW4A8 with
  | true =>
    rw [if_pos hpacked] at h
    cases h
  | false =>
    rw [if_neg (by rw [hpacked]; decide)] at h
    cases hraises : m.layout.constructorRaises with
    | true =>
      rw [if_pos hraises] at h
      cases h
    | false =>
      rw [if_neg (by rw [hraises]; decide)] at h
      dsimp only at h
      split at h
      · cases h
      · rename_i hvalid
        obtain ⟨_, hran, hvalid⟩ := bind_eq_ok.mp hvalid
        split at h
        · cases h
        · rename_i hall
          refine ⟨hpacked, hraises, hran, hvalid, fun name hname => ?_⟩
          by_contra hnot
          apply hall
          refine List.any_eq_true.mpr ⟨name, hname, ?_⟩
          rw [Bool.not_eq_true', ← Bool.not_eq_true, List.contains_iff_mem]
          exact hnot

theorem loadWeights_of_returned {ledger : Option (Accounting T)} (h : Returned ops m entries) :
    loadWeights ops m ledger entries =
      ⟨.ok (finalState ops m entries).loadedNames, (finalState ops m entries).stores, none⟩ := by
  have hvalid : ((runOps ops m.layout (opsOf ops m entries) .initial).1 >>= fun _ =>
      (finalState ops m entries).accounting.validate m.layout) = .ok () := bind_eq_ok.mpr ⟨(), h.ran, h.validated⟩
  have hall : ¬(m.requiredParams.any fun name => !(finalState ops m entries).loadedNames.contains name) = true := by
    intro hany
    obtain ⟨name, hname, hnot⟩ := List.any_eq_true.mp hany
    rw [List.contains_iff_mem.mpr (h.required name hname)] at hnot
    cases hnot
  unfold loadWeights
  rw [if_neg (by rw [h.packed]; decide), if_neg (by rw [h.constructed]; decide)]
  unfold finalState opsOf at hvalid hall ⊢
  dsimp only
  rw [hvalid]
  dsimp only
  rw [if_neg hall]

theorem Returned.kept (h : Returned ops m entries) :
    Kept ops m.layout (opsOf ops m entries) (finalState ops m entries) := by
  have := kept_run (kept_initial ops m.layout) h.ran
  rwa [List.nil_append] at this

theorem Returned.complete (h : Returned ops m entries) : Complete ops m.layout (opsOf ops m entries) :=
  complete_of_kept h.kept h.validated

theorem loadedNames_perm {l l' : List (Op T)} {st st' : LoadState T} (hc : Complete ops m.layout l) (hp : l.Perm l')
    (h : Kept ops m.layout l st) (h' : Kept ops m.layout l' st') {name : Text} (hn : name ∈ st.loadedNames) :
    name ∈ st'.loadedNames := by
  unfold LoadState.loadedNames at hn ⊢
  rw [List.mem_append, List.mem_map] at hn ⊢
  rcases hn with ⟨inner, hi, rfl⟩ | hn
  · refine .inl ⟨inner, (h'.loadedParams inner).mpr ?_, rfl⟩
    rcases (h.loadedParams inner).mp hi with hl | ⟨s, hs, hname, hplain⟩
    · exact .inl (hp.mem_iff.mp hl)
    · exact .inr ⟨s, stores_perm hc hp h h' hs, hname, hplain⟩
  · exact .inr ((h'.otherLoaded name).mpr (hp.mem_iff.mp ((h.otherLoaded name).mp hn)))

theorem Returned.perm (h : Returned ops m entries) (hp : entries.Perm entries') : Returned ops m entries' := by
  have hops : (opsOf ops m entries).Perm (opsOf ops m entries') := hp.flatMap_right _
  have hc' := h.complete.perm hops
  obtain ⟨hran, hvalid⟩ := run_of_complete hc'
  have h' : Kept ops m.layout (opsOf ops m entries') (finalState ops m entries') := by
    have := kept_run (kept_initial ops m.layout) hran
    rwa [List.nil_append] at this
  refine ⟨h.packed, h.constructed, hran, hvalid, fun name hname => ?_⟩
  exact loadedNames_perm h.complete hops h.kept h' (h.required name hname)

theorem Returned.touched_once (h : Returned ops m entries) (hL : m.layout.Sharded) {name : Text} {slots : List Slot}
    (hexp : m.layout.expected name = some slots) {slot : Slot} (hslot : slot ∈ slots) :
    (finalState ops m entries).stores.countP (fun s => s.touches name slot) = 1 := by
  have hmem : slot ∈ m.layout.recordSlots name .whole := by
    unfold Layout.recordSlots
    rw [if_pos rfl, hexp]
    exact hslot
  refine h.kept.touched_once (exact_opsOf hL) hmem ?_
  obtain ⟨p, hp, -⟩ := Option.map_eq_some_iff.mp hexp
  have hn := List.find?_some hp
  rw [Bool.and_eq_true, decide_eq_true_eq] at hn
  have hcovered := (validate_ok.mp h.validated).2 p (List.mem_of_find?_eq_some hp) slot
  rw [hn.1, hexp] at hcovered
  exact hcovered hslot

theorem Returned.comesFrom (h : Returned ops m entries) {s : Store T} (hs : s ∈ (finalState ops m entries).stores) :
    s.comesFrom ops m entries := by
  obtain ⟨name, slot, value⟩ := s
  cases value with
  | tensor value =>
    have hplain : (⟨name, slot, .tensor value⟩ : Store T) ∈ (opsOf ops m entries).flatMap Op.plain := by
      rw [← h.kept.plain]
      exact List.mem_flatMap.mpr ⟨_, hs, List.mem_singleton_self _⟩
    obtain ⟨op, hop, hm⟩ := List.mem_flatMap.mp hplain
    cases op with
    | store n sl v =>
      cases List.mem_singleton.mp hm
      exact List.mem_flatMap.mp hop
    | _ => cases hm
  | dequantized weight scale =>
    obtain ⟨hw, hsc⟩ := h.kept.store_pieces hs rfl
    exact ⟨List.mem_flatMap.mp hw, List.mem_flatMap.mp hsc⟩

/-- A load fills every expected slot once and leaves no piece without its partner; the order does not matter, and the
ledger is gone afterwards. -/
theorem checkpoint_loading_exact (ops : TensorOps T) (m : CausalLM T) (hL : m.layout.Sharded) (entries : List (Text × T)) :
    (loadWeights ops m none entries).ledger = none ∧
      (∀ names, (loadWeights ops m none entries).result = .ok names →
        (∀ name slots slot, m.layout.expected name = some slots → slot ∈ slots →
          (loadWeights ops m none entries).stores.countP (fun s => s.touches name slot) = 1) ∧
        (∀ s ∈ (loadWeights ops m none entries).stores, s.comesFrom ops m entries) ∧
        ∀ e ∈ entries, ∀ name shard part value, .fp8 name shard part value ∈ entryOps ops m e →
          ∃ e' ∈ entries, ∃ value', .fp8 name shard part.other value' ∈ entryOps ops m e') ∧
      ∀ entries', entries.Perm entries' →
        (∃ names names', (loadWeights ops m none entries).result = .ok names ∧
          (loadWeights ops m none entries').result = .ok names' ∧
          ∀ name, ∀ slot ∈ m.layout.recordSlots name .whole,
            content (loadWeights ops m none entries).stores name slot =
              content (loadWeights ops m none entries').stores name slot) ∨
        (∃ error error', (loadWeights ops m none entries).result = .error error ∧
          (loadWeights ops m none entries').result = .error error') := by
  refine ⟨?_, fun names hok => ?_, fun entries' hp => ?_⟩
  · unfold loadWeights
    dsimp only
    repeat' split
    all_goals rfl
  · have h := loadWeights_ok hok
    rw [loadWeights_of_returned h]
    refine ⟨fun name slots slot hexp hslot => h.touched_once hL hexp hslot, fun s hs => h.comesFrom hs, ?_⟩
    intro e he name shard part value hop
    have hmem : .fp8 name shard part value ∈ opsOf ops m entries := List.mem_flatMap.mpr ⟨e, he, hop⟩
    obtain ⟨value', hother⟩ := h.complete.paired name shard part value hmem
    obtain ⟨e', he', hop'⟩ := List.mem_flatMap.mp hother
    exact ⟨e', he', value', hop'⟩
  · cases hr : (loadWeights ops m none entries).result with
    | ok names =>
      have h := loadWeights_ok hr
      have h' := h.perm hp
      have hops : (opsOf ops m entries).Perm (opsOf ops m entries') := hp.flatMap_right _
      refine .inl ⟨names, (finalState ops m entries').loadedNames, rfl, ?_, fun name slot hslot => ?_⟩
      · rw [loadWeights_of_returned h']
      · rw [loadWeights_of_returned h, loadWeights_of_returned h']
        exact content_perm h.complete (exact_opsOf hL) (exact_opsOf hL) hops h.kept h'.kept hslot
    | error error =>
      cases hr' : (loadWeights ops m none entries').result with
      | error error' => exact .inr ⟨error, error', rfl, rfl⟩
      | ok names' =>
        have h := (loadWeights_ok hr').perm hp.symm
        rw [loadWeights_of_returned h] at hr
        cases hr

end

/-! ## A load that returns -/

/-- One layer with an indexer projection and two experts, of which the first is local. -/
def oneLayer : Layout where
  params := [⟨text "layers.0.self_attn.indexer.wk_weights_proj.weight", false, ⟨none, none⟩⟩,
    ⟨text "layers.0.mlp.experts.routed_experts.w2_weight", false, ⟨some fun i => if i = 0 then 0 else -1, none⟩⟩]
  numExperts := 2
  numPhysicalExperts := 2
  numRedundantExperts := 0
  hasStaticPlan := false
  skipTopkLayers := []
  tieWordEmbeddings := false
  ppMissing := fun _ => false
  expertMapping := (List.range 2).map fun i =>
    ⟨text "experts.routed_experts.w2_", text s!"experts.{i}.down_proj.", i, text "w2"⟩

/-- Tensors are numbers; those from 100 on are FP8. -/
def numbers : TensorOps Nat where
  isFp8 := fun t => decide (100 ≤ t)
  chunk2 := fun t => .ok (t, t)
  expertsNumber := fun _ _ => true
  row := fun t _ => t
  sliceSinkForTp := fun t => .ok t
  sameShape := fun _ _ => true
  dequantize := fun _ weight scale => .ok (weight * scale)
  weightLoader := fun _ slot _ => match slot with
    | .expert i _ => .ok (decide (i = 0))
    | _ => .ok true

def oneLayerLM : CausalLM Nat where
  layout := oneLayer
  packedW4A8 := false
  specLayer := fun _ => none
  otherLoad := fun _ _ => .ok []
  otherParams := []

def oneLayerEntries : List (Text × Nat) :=
  [(text "model.layers.0.self_attn.indexer.wk.weight_scale_inv", 3),
   (text "model.layers.0.mlp.experts.1.down_proj.weight", 7),
   (text "model.layers.0.self_attn.indexer.weights_proj.weight", 5),
   (text "model.layers.0.mlp.experts.0.down_proj.weight", 8),
   (text "model.layers.0.self_attn.indexer.wk.weight", 104)]

/-- A literal is the list of its characters; evaluating one is slow. -/
theorem text_ofList (l : List Char) : text (String.ofList l) = l := String.toList_ofList

theorem oneLayer_sharded : oneLayer.Sharded := by
  unfold oneLayer
  rw [text_ofList, text_ofList]
  exact ⟨by decide +kernel, by decide +kernel, by decide +kernel, by decide +kernel⟩

theorem oneLayer_returns : ∃ names, (loadWeights numbers oneLayerLM none oneLayerEntries).result = .ok names := by
  have hok : (loadWeights numbers oneLayerLM none oneLayerEntries).result.toOption.isSome = true := by
    unfold oneLayerEntries oneLayerLM oneLayer
    rw [text_ofList, text_ofList, text_ofList, text_ofList, text_ofList, text_ofList, text_ofList]
    decide +kernel
  cases hr : (loadWeights numbers oneLayerLM none oneLayerEntries).result with
  | ok names => exact ⟨names, rfl⟩
  | error e =>
    rw [hr] at hok
    cases hok

theorem checkpoint_loading_exact_oneLayer :
    (loadWeights numbers oneLayerLM none oneLayerEntries).ledger = none ∧
      ∀ slot ∈ [Slot.shard 0, .shard 1], (loadWeights numbers oneLayerLM none oneLayerEntries).stores.countP
        (fun s => s.touches (text "layers.0.self_attn.indexer.wk_weights_proj.weight") slot) = 1 := by
  obtain ⟨names, hok⟩ := oneLayer_returns
  obtain ⟨hledger, hfilled, -⟩ := checkpoint_loading_exact numbers oneLayerLM oneLayer_sharded oneLayerEntries
  refine ⟨hledger, fun slot hslot => ?_⟩
  have hexpected : oneLayer.expected (text "layers.0.self_attn.indexer.wk_weights_proj.weight") =
      some [.shard 0, .shard 1] := by decide +kernel
  exact (hfilled names hok).1 _ _ slot hexpected hslot

end VllmHcu.HyV4
