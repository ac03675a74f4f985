import VllmHcu.HyV4.Checkpoint
import VllmHcu.Lib.Result
import Mathlib.Data.List.Dedup

/-!
# Runs of ledger operations

A run that passes the validation is complete: what the operations record does
not overlap, FP8 pieces come in pairs and every expected slot is covered. That
does not depend on the order, and a complete list of operations runs through in
every order.
-/

namespace VllmHcu.HyV4

section
variable {T : Type} (ops : TensorOps T) (L : Layout)

/-! ## What an operation brings -/

/-- The slots that `record(name, slot)` counts. -/
def cellsOf (name : Text) (slot : Slot) : List (Text × Slot) := (L.recordSlots name slot).map fun s => (name, s)

def Op.recordCells : Op T → List (Text × Slot)
  | .record name slot => cellsOf L name slot
  | _ => []

/-- The recorded slots; the slots of an FP8 pair count for its weight. -/
def Op.cells : Op T → List (Text × Slot)
  | .record name slot => cellsOf L name slot
  | .fp8 name shard .weight _ => cellsOf L name shard
  | _ => []

def Op.pieceKeys : Op T → List (FP8Key × Part)
  | .fp8 name shard part _ => [(⟨name, shard⟩, part)]
  | _ => []

def Op.pieces : Op T → List (FP8Key × Part × T)
  | .fp8 name shard part value => [(⟨name, shard⟩, part, value)]
  | _ => []

def Op.seenName : Op T → List Text
  | .seen name => [name]
  | _ => []

/-- The store of an operation that is not an FP8 piece. -/
def Op.plain : Op T → List (Store T)
  | .store name slot value => [⟨name, slot, .tensor value⟩]
  | _ => []

def Store.pieces (s : Store T) : List (FP8Key × Part × T) :=
  match s.value with
  | .tensor _ => []
  | .dequantized weight scale => [(⟨s.name, s.slot⟩, .weight, weight), (⟨s.name, s.slot⟩, .scale, scale)]

def Store.plain (s : Store T) : List (Store T) :=
  match s.value with
  | .tensor _ => [s]
  | .dequantized _ _ => []

/-- The slots that the completed FP8 pairs of `stores` have recorded. -/
def Store.pairCells (s : Store T) : List (Text × Slot) :=
  match s.value with
  | .tensor _ => []
  | .dequantized _ _ => cellsOf L s.name s.slot

theorem mem_recordSlots_self {name : Text} {slot s : Slot} (h : s ∈ L.recordSlots name slot) :
    s ∈ L.recordSlots name s := by
  unfold Layout.recordSlots at h ⊢
  by_cases hs : s = .whole
  · subst hs
    by_cases hslot : slot = .whole
    · rwa [if_pos hslot] at h
    · rw [if_neg hslot, List.mem_singleton] at h
      exact absurd h.symm hslot
  · rw [if_neg hs]
    exact List.mem_singleton_self s

theorem mem_cellsOf {name n : Text} {slot s : Slot} :
    (n, s) ∈ cellsOf L name slot ↔ n = name ∧ s ∈ L.recordSlots name slot := by
  unfold cellsOf
  simp only [List.mem_map, Prod.mk.injEq]
  constructor
  · rintro ⟨s', hs, rfl, rfl⟩
    exact ⟨rfl, hs⟩
  · rintro ⟨rfl, hs⟩
    exact ⟨s, hs, rfl, rfl⟩

theorem expectedSlots_nodup (p : Param) : (expectedSlots L p).Nodup := by
  have hlocal : (localExperts L p.owner).Nodup := by
    unfold localExperts
    dsimp only
    split
    · exact List.nodup_dedup _
    · exact List.nodup_nil
    · exact List.nodup_range.filter _
    · exact List.nodup_range
  unfold expectedSlots
  split
  · decide
  · split
    · refine List.nodup_flatMap.mpr ⟨fun i _ => ?_, hlocal.imp fun hne => ?_⟩
      · apply List.Nodup.map
        · intro a b hab
          injection hab
        · split
          · decide
          · decide
      · intro s hs hs'
        obtain ⟨a, -, rfl⟩ := List.mem_map.mp hs
        obtain ⟨b, -, hb⟩ := List.mem_map.mp hs'
        injection hb with hi
        exact hne hi.symm
    · exact List.nodup_singleton _

theorem cellsOf_nodup (name : Text) (slot : Slot) : (cellsOf L name slot).Nodup := by
  refine List.Nodup.map (fun a b h => (Prod.mk.inj h).2) ?_
  unfold Layout.recordSlots Layout.expected
  split
  · cases L.params.find? _ with
    | none => exact List.nodup_singleton _
    | some p => exact expectedSlots_nodup L p
  · exact List.nodup_singleton _

/-! ## One step -/

/-- What holds after the operations `done`. -/
structure Kept (done : List (Op T)) (st : LoadState T) : Prop where
  received : (done.flatMap (Op.recordCells L) ++ st.stores.flatMap (Store.pairCells L)).Perm st.accounting.received
  receivedNodup : st.accounting.received.Nodup
  fp8Received : (done.flatMap Op.pieceKeys).Perm st.accounting.fp8Received
  fp8Nodup : st.accounting.fp8Received.Nodup
  pieces : (done.flatMap Op.pieces).Perm (flatValues st.accounting.fp8Pending ++ st.stores.flatMap Store.pieces)
  pendingKeys : (st.accounting.fp8Pending.map Prod.fst).Nodup
  singles : ∀ p ∈ st.accounting.fp8Pending, ∃ part value, p.2 = [(part, value)]
  plain : st.stores.flatMap Store.plain = done.flatMap Op.plain
  dequantizes : ∀ s ∈ st.stores, ∀ weight scale, s.value = .dequantized weight scale →
    ∃ d b, ops.dequantize s.name weight scale = .ok d ∧ ops.weightLoader s.name s.slot d = .ok b
  loadedParams : ∀ name, name ∈ st.loadedParams ↔ .loaded name ∈ done ∨ ∃ s ∈ st.stores, s.name = name ∧ s.plain = []
  otherLoaded : ∀ name, name ∈ st.otherLoaded ↔ .otherLoaded name ∈ done
  seenNames : done.flatMap Op.seenName = st.seenNames
  seenNodup : st.seenNames.Nodup
  noRaise : ∀ error, .raise error ∉ done

theorem kept_initial : Kept ops L [] (LoadState.initial : LoadState T) := by
  constructor <;> simp [LoadState.initial, flatValues]

variable {ops L}

theorem pieceKeys_eq (l : List (Op T)) : l.flatMap Op.pieceKeys = (l.flatMap Op.pieces).map fun p => (p.1, p.2.1) := by
  rw [List.map_flatMap]
  apply List.flatMap_congr
  intro op _
  cases op <;> rfl

theorem record_ok {a a' : Accounting T} {name : Text} {slot : Slot} :
    a.record L name slot = .ok a' ↔
      (∀ c ∈ cellsOf L name slot, c ∉ a.received) ∧ a' = { a with received := a.received ++ cellsOf L name slot } := by
  unfold Accounting.record
  dsimp only
  split
  · rename_i h
    refine ⟨nofun, fun ⟨hn, _⟩ => ?_⟩
    obtain ⟨c, hc, hm⟩ := List.any_eq_true.mp h
    exact absurd (List.contains_iff_mem.mp hm) (hn c hc)
  · rename_i h
    constructor
    · intro he
      refine ⟨fun c hc hm => h (List.any_eq_true.mpr ⟨c, hc, List.contains_iff_mem.mpr hm⟩), (Except.ok.inj he).symm⟩
    · rintro ⟨-, rfl⟩
      rfl

theorem fp8Piece_first {st : LoadState T} {name : Text} {shard : Slot} {part : Part} {value : T}
    (hlook : st.accounting.fp8Pending.lookup ⟨name, shard⟩ = none)
    (hnew : (⟨name, shard⟩, part) ∉ st.accounting.fp8Received) (hfree : (name, shard) ∉ st.accounting.received) :
    fp8Piece ops L st name shard part value = .ok { st with accounting := { st.accounting with
      fp8Received := (⟨name, shard⟩, part) :: st.accounting.fp8Received
      fp8Pending := insertKey ⟨name, shard⟩ [(part, value)] st.accounting.fp8Pending } } := by
  unfold fp8Piece
  simp only [hlook, Option.getD_none, insertKey, List.contains_iff_mem, Bool.or_eq_true]
  rw [if_neg (by simp [hnew, hfree])]
  cases part <;> rfl

def weightOf : Part → T → T → T
  | .weight, value, _ => value
  | .scale, _, value' => value'

def scaleOf : Part → T → T → T
  | .weight, _, value' => value'
  | .scale, value, _ => value

theorem fp8Piece_second {st : LoadState T} {name : Text} {shard : Slot} {part : Part} {value value' : T}
    (hlook : st.accounting.fp8Pending.lookup ⟨name, shard⟩ = some [(part.other, value')])
    (hnew : (⟨name, shard⟩, part) ∉ st.accounting.fp8Received) (hfree : (name, shard) ∉ st.accounting.received)
    {st' : LoadState T} :
    fp8Piece ops L st name shard part value = .ok st' ↔
      ∃ d b, ops.dequantize name (weightOf part value value') (scaleOf part value value') = .ok d ∧
        ops.weightLoader name shard d = .ok b ∧ (∀ c ∈ cellsOf L name shard, c ∉ st.accounting.received) ∧
        st' = { st with
          accounting := { received := st.accounting.received ++ cellsOf L name shard
                          fp8Received := (⟨name, shard⟩, part) :: st.accounting.fp8Received
                          fp8Pending := eraseKey ⟨name, shard⟩ st.accounting.fp8Pending }
          stores := st.stores ++ [⟨name, shard, .dequantized (weightOf part value value') (scaleOf part value value')⟩]
          loadedParams := st.loadedParams ++ [name] } := by
  have hpair : ∃ pair, insertKey part value [(part.other, value')] = pair ∧
      pair.lookup .weight = some (weightOf part value value') ∧ pair.lookup .scale = some (scaleOf part value value') := by
    refine ⟨_, rfl, ?_⟩
    cases part <;> exact ⟨rfl, rfl⟩
  obtain ⟨pair, hpair, hw, hs⟩ := hpair
  unfold fp8Piece
  simp only [hlook, Option.getD_some, hpair, hw, hs, List.contains_iff_mem, Bool.or_eq_true]
  rw [if_neg (by simp [hnew, hfree])]
  simp only [bind_eq_ok, record_ok]
  constructor
  · rintro ⟨d, hd, a, ⟨hfree', rfl⟩, b, hb, he⟩
    refine ⟨d, b, hd, hb, hfree', ?_⟩
    have := Except.ok.inj he
    rw [← this, eraseKey_insertKey]
  · rintro ⟨d, b, hd, hb, hfree', rfl⟩
    refine ⟨d, hd, _, ⟨hfree', rfl⟩, b, hb, ?_⟩
    rw [eraseKey_insertKey]
    rfl

end

/-! ## What every step keeps -/

section
variable {T : Type} {ops : TensorOps T} {L : Layout} {done : List (Op T)} {st st' : LoadState T}

theorem Kept.pending (h : Kept ops L done st) {key : FP8Key} {pair : List (Part × T)}
    (hlook : st.accounting.fp8Pending.lookup key = some pair) :
    ∃ part value, pair = [(part, value)] ∧ (key, part, value) ∈ done.flatMap Op.pieces ∧
      (key, part) ∈ st.accounting.fp8Received := by
  have hmem := mem_of_lookup hlook
  obtain ⟨part, value, hpair⟩ := h.singles _ hmem
  dsimp only at hpair
  have hflat : (key, part, value) ∈ flatValues st.accounting.fp8Pending :=
    List.mem_flatMap.mpr ⟨_, hmem, by simp [hpair]⟩
  have hdone : (key, part, value) ∈ done.flatMap Op.pieces := h.pieces.mem_iff.mpr (List.mem_append_left _ hflat)
  refine ⟨part, value, hpair, hdone, h.fp8Received.mem_iff.mp ?_⟩
  rw [pieceKeys_eq]
  exact List.mem_map.mpr ⟨_, hdone, rfl⟩

theorem Kept.pending_cases (h : Kept ops L done st) {key : FP8Key} {part : Part}
    (hnew : (key, part) ∉ st.accounting.fp8Received) :
    st.accounting.fp8Pending.lookup key = none ∨
      ∃ value', st.accounting.fp8Pending.lookup key = some [(part.other, value')] := by
  cases hlook : st.accounting.fp8Pending.lookup key with
  | none => exact .inl rfl
  | some pair =>
    obtain ⟨part', value', rfl, -, hrec⟩ := h.pending hlook
    have hne : part' ≠ part := fun he => hnew (he ▸ hrec)
    have hother : part' = part.other := by
      cases part <;> cases part' <;> first | rfl | exact absurd rfl hne
    exact .inr ⟨value', by rw [hother]⟩

theorem kept_record (h : Kept ops L done st) {name : Text} {slot : Slot}
    (hrun : runOp ops L st (.record name slot) = .ok st') : Kept ops L (done ++ [.record name slot]) st' := by
  obtain ⟨a, ha, rfl⟩ := map_eq_ok.mp hrun
  obtain ⟨hfree, rfl⟩ := record_ok.mp ha
  refine ⟨?_, ?_, ?_, h.fp8Nodup, ?_, h.pendingKeys, h.singles, ?_, h.dequantizes, ?_, ?_, ?_, h.seenNodup, ?_⟩
  · rw [List.flatMap_append, List.flatMap_singleton, List.append_assoc]
    refine ((List.perm_append_comm.append_left _).trans ?_)
    rw [← List.append_assoc]
    exact h.received.append_right _
  · refine List.nodup_append.mpr ⟨h.receivedNodup, cellsOf_nodup L name slot, ?_⟩
    intro c hc c' hc' he
    exact hfree c' hc' (he ▸ hc)
  · simpa [Op.pieceKeys] using h.fp8Received
  · simpa [Op.pieces] using h.pieces
  · simpa [Op.plain] using h.plain
  · simpa using h.loadedParams
  · simpa using h.otherLoaded
  · simpa [Op.seenName] using h.seenNames
  · simpa using h.noRaise

theorem kept_store (h : Kept ops L done st) (name : Text) (slot : Slot) (value : T) :
    Kept ops L (done ++ [.store name slot value]) { st with stores := st.stores ++ [⟨name, slot, .tensor value⟩] } := by
  refine ⟨?_, h.receivedNodup, ?_, h.fp8Nodup, ?_, h.pendingKeys, h.singles, ?_, ?_, ?_, ?_, ?_, h.seenNodup, ?_⟩
  · simpa [Op.recordCells, Store.pairCells] using h.received
  · simpa [Op.pieceKeys] using h.fp8Received
  · simpa [Op.pieces, Store.pieces] using h.pieces
  · simp [Op.plain, Store.plain, h.plain]
  · intro s hs weight scale hv
    rcases List.mem_append.mp hs with hs | hs
    · exact h.dequantizes s hs weight scale hv
    · rw [List.mem_singleton.mp hs] at hv
      cases hv
  · intro n
    rw [h.loadedParams n]
    simp [Store.plain]
  · simpa using h.otherLoaded
  · simpa [Op.seenName] using h.seenNames
  · simpa using h.noRaise

theorem kept_loaded (h : Kept ops L done st) (name : Text) :
    Kept ops L (done ++ [.loaded name]) { st with loadedParams := st.loadedParams ++ [name] } := by
  refine ⟨?_, h.receivedNodup, ?_, h.fp8Nodup, ?_, h.pendingKeys, h.singles, ?_, h.dequantizes, ?_, ?_, ?_, h.seenNodup, ?_⟩
  · simpa [Op.recordCells] using h.received
  · simpa [Op.pieceKeys] using h.fp8Received
  · simpa [Op.pieces] using h.pieces
  · simpa [Op.plain] using h.plain
  · intro n
    rw [List.mem_append, List.mem_append, h.loadedParams n, List.mem_singleton, List.mem_singleton, Op.loaded.injEq]
    exact or_right_comm
  · simpa using h.otherLoaded
  · simpa [Op.seenName] using h.seenNames
  · simpa using h.noRaise

theorem kept_otherLoaded (h : Kept ops L done st) (name : Text) :
    Kept ops L (done ++ [.otherLoaded name]) { st with otherLoaded := st.otherLoaded ++ [name] } := by
  refine ⟨?_, h.receivedNodup, ?_, h.fp8Nodup, ?_, h.pendingKeys, h.singles, ?_, h.dequantizes, ?_, ?_, ?_, h.seenNodup, ?_⟩
  · simpa [Op.recordCells] using h.received
  · simpa [Op.pieceKeys] using h.fp8Received
  · simpa [Op.pieces] using h.pieces
  · simpa [Op.plain] using h.plain
  · simpa using h.loadedParams
  · intro n
    rw [List.mem_append, List.mem_append, h.otherLoaded n, List.mem_singleton, List.mem_singleton, Op.otherLoaded.injEq]
  · simpa [Op.seenName] using h.seenNames
  · simpa using h.noRaise

theorem kept_seen (h : Kept ops L done st) {name : Text} (hnew : name ∉ st.seenNames) :
    Kept ops L (done ++ [.seen name]) { st with seenNames := st.seenNames ++ [name] } := by
  refine ⟨?_, h.receivedNodup, ?_, h.fp8Nodup, ?_, h.pendingKeys, h.singles, ?_, h.dequantizes, ?_, ?_, ?_, ?_, ?_⟩
  · simpa [Op.recordCells] using h.received
  · simpa [Op.pieceKeys] using h.fp8Received
  · simpa [Op.pieces] using h.pieces
  · simpa [Op.plain] using h.plain
  · simpa using h.loadedParams
  · simpa using h.otherLoaded
  · simp [Op.seenName, h.seenNames]
  · refine List.nodup_append.mpr ⟨h.seenNodup, List.nodup_singleton _, ?_⟩
    intro a ha b hb he
    exact hnew (List.mem_singleton.mp hb ▸ he ▸ ha)
  · simpa using h.noRaise

section
variable {name : Text} {shard : Slot} {part : Part} {value : T}

theorem kept_fp8_first (h : Kept ops L done st) (hlook : st.accounting.fp8Pending.lookup ⟨name, shard⟩ = none)
    (hnew : (⟨name, shard⟩, part) ∉ st.accounting.fp8Received) :
    Kept ops L (done ++ [.fp8 name shard part value]) { st with accounting := { st.accounting with
      fp8Received := (⟨name, shard⟩, part) :: st.accounting.fp8Received
      fp8Pending := insertKey ⟨name, shard⟩ [(part, value)] st.accounting.fp8Pending } } := by
  have hflat := flatValues_insertKey ⟨name, shard⟩ (part, value) st.accounting.fp8Pending
  rw [hlook, Option.getD_none, List.nil_append] at hflat
  refine ⟨?_, h.receivedNodup, ?_, List.nodup_cons.mpr ⟨hnew, h.fp8Nodup⟩, ?_, nodup_insertKey _ _ h.pendingKeys, ?_, ?_,
    h.dequantizes, ?_, ?_, ?_, h.seenNodup, ?_⟩
  · simpa [Op.recordCells] using h.received
  · rw [List.flatMap_append, List.flatMap_singleton]
    exact List.perm_append_comm.trans (h.fp8Received.cons _)
  · rw [List.flatMap_append, List.flatMap_singleton]
    refine List.perm_append_comm.trans ((h.pieces.cons _).trans ?_)
    exact (hflat.symm.append_right _)
  · intro p hp
    rcases mem_insertKey hp with rfl | hp
    · exact ⟨part, value, rfl⟩
    · exact h.singles p hp
  · simpa [Op.plain] using h.plain
  · simpa using h.loadedParams
  · simpa using h.otherLoaded
  · simpa [Op.seenName] using h.seenNames
  · simpa using h.noRaise

theorem kept_fp8_second (h : Kept ops L done st) {value' : T}
    (hlook : st.accounting.fp8Pending.lookup ⟨name, shard⟩ = some [(part.other, value')])
    (hnew : (⟨name, shard⟩, part) ∉ st.accounting.fp8Received) {d : T} {b : Bool}
    (hd : ops.dequantize name (weightOf part value value') (scaleOf part value value') = .ok d)
    (hb : ops.weightLoader name shard d = .ok b) (hfree : ∀ c ∈ cellsOf L name shard, c ∉ st.accounting.received) :
    Kept ops L (done ++ [.fp8 name shard part value]) { st with
      accounting := { received := st.accounting.received ++ cellsOf L name shard
                      fp8Received := (⟨name, shard⟩, part) :: st.accounting.fp8Received
                      fp8Pending := eraseKey ⟨name, shard⟩ st.accounting.fp8Pending }
      stores := st.stores ++ [⟨name, shard, .dequantized (weightOf part value value') (scaleOf part value value')⟩]
      loadedParams := st.loadedParams ++ [name] } := by
  have hflat := flatValues_eraseKey hlook
  refine ⟨?_, ?_, ?_, List.nodup_cons.mpr ⟨hnew, h.fp8Nodup⟩, ?_, nodup_eraseKey _ h.pendingKeys, ?_, ?_, ?_, ?_, ?_, ?_,
    h.seenNodup, ?_⟩
  · rw [List.flatMap_append, List.flatMap_append, List.flatMap_singleton, List.flatMap_singleton]
    simp only [Op.recordCells, Store.pairCells, List.append_nil]
    rw [← List.append_assoc]
    exact h.received.append_right _
  · refine List.nodup_append.mpr ⟨h.receivedNodup, cellsOf_nodup L name shard, ?_⟩
    intro c hc c' hc' he
    exact hfree c' hc' (he ▸ hc)
  · rw [List.flatMap_append, List.flatMap_singleton]
    exact List.perm_append_comm.trans (h.fp8Received.cons _)
  · rw [List.flatMap_append, List.flatMap_append, List.flatMap_singleton, List.flatMap_singleton]
    have hpair : ((⟨name, shard, .dequantized (weightOf part value value') (scaleOf part value value')⟩ : Store T).pieces).Perm
        [(⟨name, shard⟩, part, value), (⟨name, shard⟩, part.other, value')] := by
      cases part
      · exact .refl _
      · exact .swap _ _ _
    have h₁ : (done.flatMap Op.pieces).Perm
        ((⟨name, shard⟩, part.other, value') :: (flatValues (eraseKey ⟨name, shard⟩ st.accounting.fp8Pending) ++
          st.stores.flatMap Store.pieces)) := h.pieces.trans (hflat.append_right _)
    refine (h₁.append_right _).trans ?_
    refine (List.perm_append_comm).trans ?_
    change (((⟨name, shard⟩ : FP8Key), part, value) :: ((⟨name, shard⟩ : FP8Key), part.other, value') :: (_ ++ _)).Perm _
    refine (List.Perm.append_right _ hpair.symm).trans ?_
    exact List.perm_append_comm.trans (List.append_assoc _ _ _ ▸ .refl _)
  · intro p hp
    exact h.singles p (mem_of_mem_eraseKey hp)
  · simp [Op.plain, Store.plain, h.plain]
  · intro s hs weight scale hv
    rcases List.mem_append.mp hs with hs | hs
    · exact h.dequantizes s hs weight scale hv
    · rw [List.mem_singleton.mp hs] at hv ⊢
      cases hv
      exact ⟨d, b, hd, hb⟩
  · intro n
    rw [List.mem_append, List.mem_append, h.loadedParams n, List.mem_singleton, List.mem_singleton]
    simp only [List.mem_append, List.mem_singleton, reduceCtorEq, or_false]
    constructor
    · rintro ((hl | ⟨s, hs, hn, hp⟩) | rfl)
      · exact .inl hl
      · exact .inr ⟨s, .inl hs, hn, hp⟩
      · exact .inr ⟨_, .inr rfl, rfl, rfl⟩
    · rintro (hl | ⟨s, hs | rfl, hn, hp⟩)
      · exact .inl (.inl hl)
      · exact .inl (.inr ⟨s, hs, hn, hp⟩)
      · exact .inr hn.symm
  · simpa using h.otherLoaded
  · simpa [Op.seenName] using h.seenNames
  · simpa using h.noRaise

end

theorem kept_step (h : Kept ops L done st) {op : Op T} (hrun : runOp ops L st op = .ok st') : Kept ops L (done ++ [op]) st' := by
  cases op with
  | record name slot => exact kept_record h hrun
  | store name slot value =>
    cases hrun
    exact kept_store h name slot value
  | loaded name =>
    cases hrun
    exact kept_loaded h name
  | otherLoaded name =>
    cases hrun
    exact kept_otherLoaded h name
  | seen name =>
    change (if st.seenNames.contains name then Except.error _ else Except.ok _) = Except.ok st' at hrun
    split at hrun
    · cases hrun
    · rename_i hnew
      cases hrun
      exact kept_seen h fun hm => hnew (List.contains_iff_mem.mpr hm)
  | raise error => cases hrun
  | fp8 name shard part value =>
    change fp8Piece ops L st name shard part value = .ok st' at hrun
    by_cases hdup : (⟨name, shard⟩, part) ∈ st.accounting.fp8Received ∨ (name, shard) ∈ st.accounting.received
    · unfold fp8Piece at hrun
      simp only [List.contains_iff_mem, Bool.or_eq_true] at hrun
      rw [if_pos hdup] at hrun
      cases hrun
    · rw [not_or] at hdup
      rcases h.pending_cases hdup.1 with hlook | ⟨value', hlook⟩
      · rw [fp8Piece_first hlook hdup.1 hdup.2] at hrun
        cases hrun
        exact kept_fp8_first h hlook hdup.1
      · obtain ⟨d, b, hd, hb, hfree, rfl⟩ := (fp8Piece_second hlook hdup.1 hdup.2).mp hrun
        exact kept_fp8_second h hlook hdup.1 hd hb hfree

theorem kept_run : ∀ {rest done : List (Op T)} {st : LoadState T}, Kept ops L done st →
    (runOps ops L rest st).1 = .ok () → Kept ops L (done ++ rest) (runOps ops L rest st).2
  | [], done, st, h, _ => by
    rw [List.append_nil]
    exact h
  | op :: rest, done, st, h, hrun => by
    unfold runOps at hrun ⊢
    cases hop : runOp ops L st op with
    | error e =>
      rw [hop] at hrun
      cases hrun
    | ok st₁ =>
      rw [hop] at hrun
      have := kept_run (kept_step h hop) hrun
      rwa [List.append_assoc] at this

end

end VllmHcu.HyV4
