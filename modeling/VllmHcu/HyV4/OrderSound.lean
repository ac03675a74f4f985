import VllmHcu.HyV4.LedgerSound
import Mathlib.Data.List.Flatten
import Mathlib.Data.List.Pairwise
import Mathlib.Data.List.Perm.Basic
import VllmHcu.Lib.Loops

/-!
# Complete lists of operations

What a validated run says about its operations does not mention their order,
and it is enough for a run in any order to pass. Two such runs make the same
stores.
-/

namespace VllmHcu.HyV4

section
variable {T : Type} (ops : TensorOps T) (L : Layout)

structure Complete (l : List (Op T)) : Prop where
  noRaise : ∀ error, .raise error ∉ l
  seen : (l.flatMap Op.seenName).Nodup
  cells : (l.flatMap (Op.cells L)).Nodup
  pieces : (l.flatMap Op.pieceKeys).Nodup
  paired : ∀ name shard part value, .fp8 name shard part value ∈ l → ∃ value', .fp8 name shard part.other value' ∈ l
  dequantizes : ∀ name shard weight scale, .fp8 name shard .weight weight ∈ l → .fp8 name shard .scale scale ∈ l →
    ∃ d b, ops.dequantize name weight scale = .ok d ∧ ops.weightLoader name shard d = .ok b
  covered : ∀ p ∈ L.params, ∀ s ∈ (L.expected p.name).getD [], (p.name, s) ∈ l.flatMap (Op.cells L)

variable {ops L} {l l' : List (Op T)}

theorem Complete.perm (h : Complete ops L l) (hp : l.Perm l') : Complete ops L l' where
  noRaise error := fun hm => h.noRaise error (hp.mem_iff.mpr hm)
  seen := (hp.flatMap_right _).nodup_iff.mp h.seen
  cells := (hp.flatMap_right _).nodup_iff.mp h.cells
  pieces := (hp.flatMap_right _).nodup_iff.mp h.pieces
  paired name shard part value := fun hm =>
    (h.paired name shard part value (hp.mem_iff.mpr hm)).imp fun _ hv => hp.mem_iff.mp hv
  dequantizes name shard weight scale := fun hw hs =>
    h.dequantizes name shard weight scale (hp.mem_iff.mpr hw) (hp.mem_iff.mpr hs)
  covered p hpm s hs := (hp.flatMap_right _).mem_iff.mp (h.covered p hpm s hs)

/-! ## Pieces and cells -/

theorem mem_pieces {key : FP8Key} {part : Part} {value : T} :
    (key, part, value) ∈ l.flatMap Op.pieces ↔ .fp8 key.name key.shard part value ∈ l := by
  rw [List.mem_flatMap]
  constructor
  · rintro ⟨op, hop, hm⟩
    cases op with
    | fp8 name shard part' value' =>
      cases List.mem_singleton.mp hm
      exact hop
    | _ => cases hm
  · intro hop
    exact ⟨_, hop, List.mem_singleton_self _⟩

theorem piece_unique (hn : (l.flatMap Op.pieceKeys).Nodup) {name : Text} {shard : Slot} {part : Part} {value value' : T}
    (h : .fp8 name shard part value ∈ l) (h' : .fp8 name shard part value' ∈ l) : value = value' := by
  rw [pieceKeys_eq] at hn
  have hkey : ∀ v, .fp8 name shard part v ∈ l → ((⟨name, shard⟩ : FP8Key), part, v) ∈ l.flatMap Op.pieces :=
    fun v hv => mem_pieces.mpr hv
  have := List.inj_on_of_nodup_map hn (hkey _ h) (hkey _ h') rfl
  exact (Prod.mk.inj (Prod.mk.inj this).2).2

/-- The slots that a weight piece brings. -/
def pieceCells (L : Layout) (p : FP8Key × Part × T) : List (Text × Slot) :=
  match p.2.1 with
  | .weight => cellsOf L p.1.name p.1.shard
  | .scale => []

theorem pairCells_eq (stores : List (Store T)) :
    stores.flatMap (Store.pairCells L) = (stores.flatMap Store.pieces).flatMap (pieceCells L) := by
  rw [List.flatMap_assoc]
  apply List.flatMap_congr
  rintro ⟨name, slot, value⟩ _
  cases value with
  | tensor value => rfl
  | dequantized weight scale => simp [Store.pairCells, Store.pieces, pieceCells]

theorem cells_perm : (l.flatMap (Op.recordCells L) ++ (l.flatMap Op.pieces).flatMap (pieceCells L)).Perm
    (l.flatMap (Op.cells L)) := by
  rw [List.flatMap_assoc]
  refine (List.flatMap_append_perm l _ _).trans (.of_eq ?_)
  apply List.flatMap_congr
  intro op _
  cases op with
  | fp8 name shard part value => cases part <;> simp [Op.recordCells, Op.pieces, pieceCells, Op.cells]
  | _ => simp [Op.recordCells, Op.pieces, Op.cells]

variable {st st' : LoadState T}

/-- Once nothing is pending, the received slots are those of all operations. -/
theorem Kept.received_perm (h : Kept ops L l st) (hpending : st.accounting.fp8Pending = []) :
    (l.flatMap (Op.cells L)).Perm st.accounting.received := by
  have hpieces := h.pieces
  rw [hpending] at hpieces
  have hreceived := h.received
  rw [pairCells_eq] at hreceived
  exact cells_perm.symm.trans (((hpieces.flatMap_right _).append_left _).trans hreceived)

theorem Kept.store_pieces (h : Kept ops L l st) {s : Store T} (hs : s ∈ st.stores) {weight scale : T}
    (hv : s.value = .dequantized weight scale) :
    .fp8 s.name s.slot .weight weight ∈ l ∧ .fp8 s.name s.slot .scale scale ∈ l := by
  have hmem : ∀ p ∈ s.pieces, p ∈ l.flatMap Op.pieces := fun p hp =>
    h.pieces.mem_iff.mpr (List.mem_append_right _ (List.mem_flatMap.mpr ⟨s, hs, hp⟩))
  have hpieces : s.pieces = [(⟨s.name, s.slot⟩, .weight, weight), (⟨s.name, s.slot⟩, .scale, scale)] := by
    unfold Store.pieces
    rw [hv]
  rw [hpieces] at hmem
  have hw := hmem _ List.mem_cons_self
  have hsc := hmem _ (List.mem_cons_of_mem _ (List.mem_singleton_self _))
  exact ⟨mem_pieces.mp hw, mem_pieces.mp hsc⟩

theorem Kept.piece_store (h : Kept ops L l st) (hpending : st.accounting.fp8Pending = []) {name : Text} {shard : Slot}
    {part : Part} {value : T} (hop : .fp8 name shard part value ∈ l) :
    ∃ s ∈ st.stores, s.name = name ∧ s.slot = shard ∧ ∃ weight scale, s.value = .dequantized weight scale ∧
      (⟨name, shard⟩, part, value) ∈ s.pieces := by
  have hpieces := h.pieces
  rw [hpending] at hpieces
  have hmem : ((⟨name, shard⟩ : FP8Key), part, value) ∈ st.stores.flatMap Store.pieces :=
    hpieces.mem_iff.mp (mem_pieces.mpr hop)
  obtain ⟨s, hs, hp⟩ := List.mem_flatMap.mp hmem
  refine ⟨s, hs, ?_⟩
  obtain ⟨name', slot, v⟩ := s
  cases v with
  | tensor v => cases hp
  | dequantized weight scale =>
    have hkey : (⟨name, shard⟩ : FP8Key) = ⟨name', slot⟩ := by
      rcases List.mem_cons.mp hp with he | he
      · exact congrArg Prod.fst he
      · exact congrArg Prod.fst (List.mem_singleton.mp he)
    cases hkey
    exact ⟨rfl, rfl, weight, scale, rfl, hp⟩

theorem validate_ok {a : Accounting T} : a.validate L = .ok () ↔
    a.fp8Pending = [] ∧ ∀ p ∈ L.params, ∀ s ∈ (L.expected p.name).getD [], (p.name, s) ∈ a.received := by
  unfold Accounting.validate
  cases hp : a.fp8Pending with
  | cons x xs => exact ⟨nofun, fun h => absurd h.1 (List.cons_ne_nil x xs)⟩
  | nil =>
    rw [List.isEmpty_nil, Bool.not_true, if_neg Bool.false_ne_true]
    split
    · rename_i h
      refine ⟨nofun, fun hall => ?_⟩
      obtain ⟨p, hpm, hany⟩ := List.any_eq_true.mp h
      obtain ⟨s, hs, hnot⟩ := List.any_eq_true.mp hany
      rw [List.contains_iff_mem.mpr (hall.2 p hpm s hs)] at hnot
      cases hnot
    · rename_i h
      refine ⟨fun _ => ⟨rfl, fun p hpm s hs => ?_⟩, fun _ => rfl⟩
      by_contra hnot
      apply h
      refine List.any_eq_true.mpr ⟨p, hpm, List.any_eq_true.mpr ⟨s, hs, ?_⟩⟩
      rw [Bool.not_eq_true', ← Bool.not_eq_true, List.contains_iff_mem]
      exact hnot

theorem complete_of_kept (h : Kept ops L l st) (hvalid : st.accounting.validate L = .ok ()) : Complete ops L l := by
  obtain ⟨hpending, hcovered⟩ := validate_ok.mp hvalid
  have hreceived := h.received_perm hpending
  have hkeys : (l.flatMap Op.pieceKeys).Nodup := h.fp8Received.nodup_iff.mpr h.fp8Nodup
  refine ⟨h.noRaise, h.seenNames ▸ h.seenNodup, hreceived.nodup_iff.mpr h.receivedNodup, hkeys, ?_, ?_, ?_⟩
  · intro name shard part value hop
    obtain ⟨s, hs, rfl, rfl, weight, scale, hv, -⟩ := h.piece_store hpending hop
    obtain ⟨hw, hsc⟩ := h.store_pieces hs hv
    cases part with
    | weight => exact ⟨scale, hsc⟩
    | scale => exact ⟨weight, hw⟩
  · intro name shard weight scale hw hsc
    obtain ⟨s, hs, rfl, rfl, weight', scale', hv, -⟩ := h.piece_store hpending hw
    obtain ⟨hw', hsc'⟩ := h.store_pieces hs hv
    have h₁ : weight' = weight := piece_unique hkeys hw' hw
    have h₂ : scale' = scale := piece_unique hkeys hsc' hsc
    exact h.dequantizes s hs weight scale (by rw [hv, h₁, h₂])
  · intro p hp s hs
    exact hreceived.mem_iff.mpr (hcovered p hp s hs)

/-! ## A complete list runs through -/

section
variable {done rest : List (Op T)} {op : Op T}

theorem Kept.received_sub (h : Kept ops L done st) {c : Text × Slot} (hc : c ∈ st.accounting.received) :
    c ∈ done.flatMap (Op.recordCells L) ∨
      ∃ s ∈ st.stores, ∃ weight scale, s.value = .dequantized weight scale ∧ c ∈ cellsOf L s.name s.slot := by
  rcases List.mem_append.mp (h.received.mem_iff.mpr hc) with hr | hp
  · exact .inl hr
  · obtain ⟨s, hs, hc⟩ := List.mem_flatMap.mp hp
    refine .inr ⟨s, hs, ?_⟩
    unfold Store.pairCells at hc
    cases hv : s.value with
    | tensor value =>
      rw [hv] at hc
      cases hc
    | dequantized weight scale =>
      rw [hv] at hc
      exact ⟨weight, scale, rfl, hc⟩

/-- A received slot was brought by an operation that is not the weight of a key still to be completed. -/
theorem Kept.received_op (h : Kept ops L done st) {c : Text × Slot} (hc : c ∈ st.accounting.received) :
    ∃ op ∈ done, c ∈ op.cells L ∧ ∀ name shard value, op = .fp8 name shard .weight value →
      ∃ scale, .fp8 name shard .scale scale ∈ done := by
  rcases h.received_sub hc with hr | ⟨s, hs, weight, scale, hv, hc⟩
  · obtain ⟨op, hop, hc⟩ := List.mem_flatMap.mp hr
    cases op with
    | record name slot => exact ⟨_, hop, hc, fun _ _ _ he => by cases he⟩
    | _ => cases hc
  · obtain ⟨hw, hsc⟩ := h.store_pieces hs hv
    refine ⟨_, hw, hc, fun name shard value he => ?_⟩
    cases he
    exact ⟨scale, hsc⟩

theorem done_cells_free (hcells : ((done ++ op :: rest).flatMap (Op.cells L)).Nodup) {c : Text × Slot}
    (hc : c ∈ (op :: rest).flatMap (Op.cells L)) : c ∉ done.flatMap (Op.cells L) := by
  rw [List.flatMap_append] at hcells
  exact fun hd => (List.disjoint_of_nodup_append hcells) hd hc

/-- The slots of a key whose piece comes next have not been received. -/
theorem own_cells_free (hc : Complete ops L (done ++ op :: rest)) (h : Kept ops L done st) {name : Text} {shard : Slot}
    {part : Part} {value : T} (hop : op = .fp8 name shard part value) :
    ∀ c ∈ cellsOf L name shard, c ∉ st.accounting.received := by
  intro c hmem hrec
  obtain ⟨op', hop', hcell, hcomplete⟩ := h.received_op hrec
  have hdone : c ∈ done.flatMap (Op.cells L) := List.mem_flatMap.mpr ⟨op', hop', hcell⟩
  have hnot : ∀ op'' ∈ op :: rest, c ∉ op''.cells L := fun op'' hm hcc =>
    done_cells_free hc.cells (List.mem_flatMap.mpr ⟨op'', hm, hcc⟩) hdone
  cases part with
  | weight => exact hnot op List.mem_cons_self (hop ▸ hmem)
  | scale =>
    obtain ⟨weight, hw⟩ := hc.paired name shard .scale value (by simp [hop])
    have hwc : c ∈ (Op.fp8 name shard Part.scale.other weight).cells L := hmem
    rcases List.mem_append.mp hw with hw | hw
    · by_cases heq : op' = .fp8 name shard .weight weight
      · -- the key would be complete already
        obtain ⟨scale, hs⟩ := hcomplete name shard weight heq
        have hkeys := hc.pieces
        rw [List.flatMap_append] at hkeys
        have hdup : ((⟨name, shard⟩ : FP8Key), Part.scale) ∈ done.flatMap Op.pieceKeys :=
          List.mem_flatMap.mpr ⟨_, hs, List.mem_singleton_self _⟩
        refine List.disjoint_of_nodup_append hkeys hdup ?_
        rw [List.flatMap_cons, hop]
        exact List.mem_append_left _ (List.mem_singleton_self _)
      · have hcells := hc.cells
        rw [List.flatMap_append] at hcells
        exact disjoint_of_nodup_flatMap hcells.of_append_left hop' hw heq hcell hwc
    · exact hnot _ hw hwc

theorem step_of_complete (hc : Complete ops L (done ++ op :: rest)) (h : Kept ops L done st) :
    ∃ st', runOp ops L st op = .ok st' := by
  cases hop : op with
  | record name slot =>
    have hfree : ∀ c ∈ cellsOf L name slot, c ∉ st.accounting.received := by
      intro c hmem hrec
      obtain ⟨op', hop', hcell, -⟩ := h.received_op hrec
      refine done_cells_free hc.cells ?_ (List.mem_flatMap.mpr ⟨op', hop', hcell⟩)
      rw [List.flatMap_cons, hop]
      exact List.mem_append_left _ hmem
    exact ⟨_, map_eq_ok.mpr ⟨_, record_ok.mpr ⟨hfree, rfl⟩, rfl⟩⟩
  | store name slot value => exact ⟨_, rfl⟩
  | loaded name => exact ⟨_, rfl⟩
  | otherLoaded name => exact ⟨_, rfl⟩
  | raise error => exact absurd (by simp [hop]) (hc.noRaise error)
  | seen name =>
    have hseen := hc.seen
    rw [List.flatMap_append, h.seenNames] at hseen
    have hnew : name ∉ st.seenNames := fun hm => List.disjoint_of_nodup_append hseen hm (by
      rw [List.flatMap_cons, hop]
      exact List.mem_append_left _ (List.mem_singleton_self _))
    exact ⟨_, if_neg fun hm => hnew (List.contains_iff_mem.mp hm)⟩
  | fp8 name shard part value =>
    have hnew : (⟨name, shard⟩, part) ∉ st.accounting.fp8Received := by
      intro hm
      have hkeys := hc.pieces
      rw [List.flatMap_append] at hkeys
      refine List.disjoint_of_nodup_append hkeys (h.fp8Received.mem_iff.mpr hm) ?_
      rw [List.flatMap_cons, hop]
      exact List.mem_append_left _ (List.mem_singleton_self _)
    have hown := own_cells_free hc h hop
    have hfree : (name, shard) ∉ st.accounting.received := by
      intro hrec
      obtain ⟨op', -, hcell, -⟩ := h.received_op hrec
      refine hown _ ?_ hrec
      have hcells : ∀ {n : Text} {s : Slot}, (name, shard) ∈ cellsOf L n s → (name, shard) ∈ cellsOf L name shard := by
        intro n s hm
        obtain ⟨rfl, hs⟩ := (mem_cellsOf L).mp hm
        exact (mem_cellsOf L).mpr ⟨rfl, mem_recordSlots_self L hs⟩
      cases op' with
      | record n s => exact hcells hcell
      | fp8 n s part' v =>
        cases part' with
        | weight => exact hcells hcell
        | scale => cases hcell
      | _ => cases hcell
    rcases h.pending_cases hnew with hlook | ⟨value', hlook⟩
    · exact ⟨_, fp8Piece_first hlook hnew hfree⟩
    · obtain ⟨part', v, hpair, hpiece, -⟩ := h.pending hlook
      cases List.singleton_inj.mp hpair
      have hother : .fp8 name shard part.other value' ∈ done ++ op :: rest := List.mem_append_left _ (mem_pieces.mp hpiece)
      have hthis : .fp8 name shard part value ∈ done ++ op :: rest := by simp [hop]
      have hdeq : ∃ d b, ops.dequantize name (weightOf part value value') (scaleOf part value value') = .ok d ∧
          ops.weightLoader name shard d = .ok b := by
        cases part with
        | weight => exact hc.dequantizes name shard value value' hthis hother
        | scale => exact hc.dequantizes name shard value' value hother hthis
      obtain ⟨d, b, hd, hb⟩ := hdeq
      exact ⟨_, (fp8Piece_second hlook hnew hfree).mpr ⟨d, b, hd, hb, hown, rfl⟩⟩

theorem run_of_complete_from : ∀ {rest done : List (Op T)} {st : LoadState T}, Complete ops L (done ++ rest) →
    Kept ops L done st → (runOps ops L rest st).1 = .ok ()
  | [], _, _, _, _ => rfl
  | op :: rest, done, st, hc, h => by
    obtain ⟨st', hop⟩ := step_of_complete hc h
    unfold runOps
    rw [hop]
    have hc' : Complete ops L ((done ++ [op]) ++ rest) := by rwa [List.append_assoc]
    exact run_of_complete_from hc' (kept_step h hop)

end

theorem pending_of_complete (hc : Complete ops L l) (h : Kept ops L l st) : st.accounting.fp8Pending = [] := by
  by_contra hne
  obtain ⟨⟨key, pair⟩, hp⟩ := List.exists_mem_of_ne_nil _ hne
  obtain ⟨part, value, hpair⟩ := h.singles _ hp
  dsimp only at hpair
  subst hpair
  have hmine : (key, part, value) ∈ flatValues st.accounting.fp8Pending :=
    List.mem_flatMap.mpr ⟨_, hp, List.mem_singleton_self _⟩
  have hop : .fp8 key.name key.shard part value ∈ l :=
    mem_pieces.mp (h.pieces.mem_iff.mpr (List.mem_append_left _ hmine))
  obtain ⟨value', hother⟩ := hc.paired _ _ _ _ hop
  have hpartner : (key, part.other, value') ∈ flatValues st.accounting.fp8Pending ++ st.stores.flatMap Store.pieces :=
    h.pieces.mem_iff.mp (mem_pieces.mpr hother)
  rcases List.mem_append.mp hpartner with hm | hm
  · obtain ⟨⟨key', pair'⟩, hp', hv⟩ := List.mem_flatMap.mp hm
    obtain ⟨p, v, hpair'⟩ := h.singles _ hp'
    dsimp only at hpair'
    subst hpair'
    cases List.mem_singleton.mp hv
    have := List.inj_on_of_nodup_map h.pendingKeys hp hp' rfl
    cases part <;> cases this
  · -- a store has both parts, so `part` would be there twice
    have hn : ((flatValues st.accounting.fp8Pending ++ st.stores.flatMap Store.pieces).map fun p => (p.1, p.2.1)).Nodup := by
      rw [← (h.pieces.map _).nodup_iff, ← pieceKeys_eq]
      exact hc.pieces
    rw [List.map_append] at hn
    obtain ⟨s, hs, hmem⟩ := List.mem_flatMap.mp hm
    have hboth : (key, part) ∈ (st.stores.flatMap Store.pieces).map fun p => (p.1, p.2.1) := by
      cases hv : s.value with
      | tensor v =>
        unfold Store.pieces at hmem
        rw [hv] at hmem
        cases hmem
      | dequantized weight scale =>
        have hpieces : s.pieces = [(⟨s.name, s.slot⟩, .weight, weight), (⟨s.name, s.slot⟩, .scale, scale)] := by
          unfold Store.pieces
          rw [hv]
        rw [hpieces] at hmem
        have hkey : key = ⟨s.name, s.slot⟩ := by
          rcases List.mem_cons.mp hmem with he | he
          · exact congrArg Prod.fst he
          · exact congrArg Prod.fst (List.mem_singleton.mp he)
        rw [List.map_flatMap]
        refine List.mem_flatMap.mpr ⟨s, hs, ?_⟩
        rw [hpieces, hkey]
        cases part <;> simp
    exact List.disjoint_of_nodup_append hn (List.mem_map.mpr ⟨_, hmine, rfl⟩) hboth

theorem run_of_complete (hc : Complete ops L l) :
    (runOps ops L l .initial).1 = .ok () ∧ (runOps ops L l .initial).2.accounting.validate L = .ok () := by
  have hrun := run_of_complete_from hc (kept_initial ops L)
  have h := kept_run (kept_initial ops L) hrun
  rw [List.nil_append] at h
  have hpending := pending_of_complete hc h
  refine ⟨hrun, validate_ok.mpr ⟨hpending, fun p hp s hs => ?_⟩⟩
  exact (h.received_perm hpending).mem_iff.mp (hc.covered p hp s hs)

/-! ## Two orders -/

theorem stores_perm (hc : Complete ops L l) (hp : l.Perm l') (h : Kept ops L l st) (h' : Kept ops L l' st') {s : Store T}
    (hs : s ∈ st.stores) : s ∈ st'.stores := by
  have hc' := hc.perm hp
  obtain ⟨name, slot, value⟩ := s
  cases value with
  | tensor value =>
    have hplain : (⟨name, slot, .tensor value⟩ : Store T) ∈ st'.stores.flatMap Store.plain := by
      rw [h'.plain, ← (hp.flatMap_right _).mem_iff, ← h.plain]
      exact List.mem_flatMap.mpr ⟨_, hs, List.mem_singleton_self _⟩
    obtain ⟨⟨n, sl, v⟩, hs', hm⟩ := List.mem_flatMap.mp hplain
    cases v with
    | tensor v => exact List.mem_singleton.mp hm ▸ hs'
    | dequantized w sc => cases hm
  | dequantized weight scale =>
    obtain ⟨hw, hsc⟩ := h.store_pieces hs rfl
    obtain ⟨⟨n, sl, v⟩, hs', rfl, rfl, weight', scale', rfl, -⟩ :=
      h'.piece_store (pending_of_complete hc' h') (hp.mem_iff.mp hw)
    obtain ⟨hw', hsc'⟩ := h'.store_pieces hs' rfl
    have h₁ := piece_unique hc'.pieces hw' (hp.mem_iff.mp hw)
    have h₂ := piece_unique hc'.pieces hsc' (hp.mem_iff.mp hsc)
    rw [h₁, h₂] at hs'
    exact hs'

end

end VllmHcu.HyV4
