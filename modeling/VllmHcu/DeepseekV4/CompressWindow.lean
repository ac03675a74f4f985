import VllmHcu.DeepseekV4.CacheWindow

/-!
# The windows of the compressor

The fused compressor stores one row for every `COMPRESS_RATIO` positions, from the
state rows of the last `1 + OVERLAP` times as many. On large caches it runs once
for each window of state blocks and each window of key blocks. A token belongs to
the window of the block of its own slot, and the view of the state reaches
`1 + OVERLAP` blocks further on both sides.
-/

namespace VllmHcu.DeepseekV4

/-- What the fused kernel is launched with. `compress` is the arithmetic on the rows, with the position for the rotation. -/
structure CompressArgs (S B : Type) where
  numActual : Nat
  slots : Nat → Option Nat
  positions : Nat → Nat
  tokenToReq : Nat → Nat
  blockTable : Nat → Nat → Nat
  blockSize : Nat
  numStateBlocks : Nat
  stateStride : Nat
  compressRatio : Nat
  overlap : Nat
  kvSlots : Nat → Option Nat
  compress : (Nat → Option S) → Nat → TokenBytes B

namespace CompressArgs

section
variable {S B : Type} (a : CompressArgs S B)

/-- Block and offset of state row `t` of a token; the rows before the request are masked. -/
def entry (pid t : Nat) : Option (Nat × Nat) :=
  let rows := (1 + a.overlap) * a.compressRatio
  if t < rows ∧ rows ≤ a.positions pid + 1 + t then
    let pos := a.positions pid + 1 + t - rows
    some (a.blockTable (a.tokenToReq pid) (pos / a.blockSize), pos % a.blockSize)
  else none

/-- The compressed row of a token, of a state read by block and offset. -/
def row (read : Nat → Nat → S) (pid : Nat) : TokenBytes B :=
  a.compress (fun t => (a.entry pid t).map fun e => read e.1 e.2) (a.positions pid / a.compressRatio * a.compressRatio)

def isBoundary (pid : Nat) : Bool := (a.positions pid + 1) % a.compressRatio == 0

def outOfStateWindow (start stop pid : Nat) : Bool :=
  (List.range ((1 + a.overlap) * a.compressRatio)).any fun t =>
    match a.entry pid t with
    | none => false
    | some e => decide (e.1 < start) || decide (stop ≤ e.1)

/-- `state_window_start` and `state_window_end` for the core window from `core` on -/
def coreEnd (core : Nat) : Nat := min (core + windowBlocks a.stateStride) a.numStateBlocks

def stateWindow (core : Nat) : Nat × Nat :=
  (core - (1 + a.overlap), min (a.coreEnd core + (1 + a.overlap)) a.numStateBlocks)

end

section
variable {S B : Type} [Zero B] (a : CompressArgs S B) (kv : KCache)

/-- `_fused_kv_compress_norm_rope_insert_sparse_attn` for one token -/
def program (state : Nat → Nat → S) (pid : Nat) : List (Nat × B) :=
  match a.slots pid with
  | none => []
  | some _ =>
    if a.isBoundary pid then
      match a.kvSlots pid with
      | none => []
      | some slot => insertStores kv (slot / kv.blockSize * kv.stride) (slot % kv.blockSize) (a.row state pid)
    else []

/-- `_fused_kv_compress_norm_rope_insert_sparse_attn_window`, on the views of both caches -/
def windowProgram (state : Nat → Nat → S) (core kvStart pid : Nat) : List (Nat × B) :=
  let window := a.stateWindow core
  match a.slots pid with
  | none => []
  | some own =>
    let block := own / a.blockSize
    if block < core ∨ a.coreEnd core ≤ block then []
    else if a.isBoundary pid then
      if a.outOfStateWindow window.1 window.2 pid then []
      else match a.kvSlots pid with
        | none => []
        | some slot =>
          let kvBlock := slot / kv.blockSize
          if kvBlock < kvStart ∨ min (kvStart + windowBlocks kv.stride) kv.numBlocks ≤ kvBlock then []
          else insertStores kv (kvStart * kv.stride + (kvBlock - kvStart) * kv.stride) (slot % kv.blockSize)
            (a.row (fun b => state (window.1 + (b - window.1))) pid)
    else []

/-- The launches of the compressor, with the order of the programs in each. -/
def run (windowed : Bool) (order : Nat → Nat → List Nat) (state : Nat → Nat → S) (cache : Nat → B) : Nat → B :=
  if windowed then
    scatter cache ((windowStarts a.numStateBlocks a.stateStride).flatMap fun core =>
      (windowStarts kv.numBlocks kv.stride).flatMap fun kvStart => (order core kvStart).flatMap (a.windowProgram kv state core kvStart))
  else scatter cache ((order 0 0).flatMap (a.program kv state))

/-! ## What is stored -/

/-- The key slot of a boundary token. -/
def boundarySlot (pid : Nat) : Option Nat := if (a.slots pid).isSome && a.isBoundary pid then a.kvSlots pid else none

/-- The state rows of a token lie within reach of the window of its own block. -/
def near (pid : Nat) : Bool :=
  match a.slots pid with
  | none => false
  | some own =>
    let window := a.stateWindow (own / a.blockSize / windowBlocks a.stateStride * windowBlocks a.stateStride)
    !a.outOfStateWindow window.1 window.2 pid

/-- The key slot of a boundary token that the windowed launches store. -/
def nearSlot (pid : Nat) : Option Nat := if a.near pid then a.boundarySlot pid else none

omit [Zero B] in
theorem row_view {start stop pid : Nat} (h : a.outOfStateWindow start stop pid = false) (state : Nat → Nat → S) :
    a.row (fun b => state (start + (b - start))) pid = a.row state pid := by
  unfold row
  congr 1
  funext t
  cases he : a.entry pid t with
  | none => rfl
  | some e =>
    have ht : t < (1 + a.overlap) * a.compressRatio := by
      by_contra ht
      simp [entry, ht] at he
    have hin := List.any_eq_false.mp h t (List.mem_range.mpr ht)
    simp only [he, Bool.or_eq_true, decide_eq_true_eq, not_or, Nat.not_lt] at hin
    simp [Nat.add_sub_cancel' hin.1]

theorem mem_program (state : Nat → Nat → S) (pid : Nat) (w : Nat × B) :
    w ∈ a.program kv state pid ↔ ∃ slot, a.boundarySlot pid = some slot ∧ ∃ i < 584, w = (byteAddr kv slot i, (a.row state pid).byte i) := by
  unfold program boundarySlot
  cases hs : a.slots pid with
  | none => simp
  | some own =>
    by_cases hb : a.isBoundary pid = true
    · cases hk : a.kvSlots pid with
      | none => simp [hb]
      | some slot => simp [hb, mem_insertStores]
    · simp [hb]

theorem mem_windowProgram (state : Nat → Nat → S) (core kvStart pid : Nat) (w : Nat × B) :
    w ∈ a.windowProgram kv state core kvStart pid ↔ ∃ own slot, a.slots pid = some own ∧ a.boundarySlot pid = some slot ∧
      (core ≤ own / a.blockSize ∧ own / a.blockSize < a.coreEnd core) ∧
      a.outOfStateWindow (a.stateWindow core).1 (a.stateWindow core).2 pid = false ∧
      (kvStart ≤ slot / kv.blockSize ∧ slot / kv.blockSize < min (kvStart + windowBlocks kv.stride) kv.numBlocks) ∧
      ∃ i < 584, w = (byteAddr kv slot i, (a.row state pid).byte i) := by
  unfold windowProgram boundarySlot
  cases hs : a.slots pid with
  | none => simp
  | some own =>
    by_cases hcore : own / a.blockSize < core ∨ a.coreEnd core ≤ own / a.blockSize
    · have hnot : ¬ (core ≤ own / a.blockSize ∧ own / a.blockSize < a.coreEnd core) := by omega
      simp [hcore, hnot]
    · have hin : core ≤ own / a.blockSize ∧ own / a.blockSize < a.coreEnd core := by omega
      by_cases hb : a.isBoundary pid = true
      · by_cases ho : a.outOfStateWindow (a.stateWindow core).1 (a.stateWindow core).2 pid = true
        · simp [hcore, hb, ho]
        · rw [Bool.not_eq_true] at ho
          cases hk : a.kvSlots pid with
          | none => simp [hcore, hb, ho]
          | some slot =>
            by_cases hkv : slot / kv.blockSize < kvStart ∨ min (kvStart + windowBlocks kv.stride) kv.numBlocks ≤ slot / kv.blockSize
            · have hnot : ¬ (kvStart ≤ slot / kv.blockSize ∧ slot / kv.blockSize < min (kvStart + windowBlocks kv.stride) kv.numBlocks) := by
                omega
              simp only [hcore, hb, ho, hkv, if_false, if_true, Bool.false_eq_true, List.not_mem_nil, false_iff]
              rintro ⟨own', slot', _, hslot, _, _, hr, _⟩
              simp only [Option.isSome_some, Bool.and_self, if_true, Option.some.injEq] at hslot
              exact hnot (hslot ▸ hr)
            · have hkvin : kvStart ≤ slot / kv.blockSize ∧ slot / kv.blockSize < min (kvStart + windowBlocks kv.stride) kv.numBlocks := by
                omega
              have hbase : kvStart * kv.stride + (slot / kv.blockSize - kvStart) * kv.stride = slot / kv.blockSize * kv.stride := by
                rw [← Nat.add_mul, Nat.add_sub_cancel' hkvin.1]
              simp only [hcore, hb, ho, hkv, if_false, if_true, Bool.false_eq_true, hbase, a.row_view ho, mem_insertStores]
              simp only [Option.isSome_some, Bool.and_self, if_true, Option.some.injEq, exists_eq_left', exists_and_left, hin, hkvin,
                and_self, true_and]
      · simp [hcore, hb]

/-- The slots of the tokens lie in the state cache, those of the boundary tokens in the key cache, no two in one place. -/
structure Ok : Prop where
  own : ∀ pid < a.numActual, ∀ slot, a.slots pid = some slot → slot / a.blockSize < a.numStateBlocks
  kv : SlotsOk kv a.boundarySlot a.numActual

variable {a kv}

omit [Zero B] in
theorem Ok.near (h : a.Ok kv) : SlotsOk kv a.nearSlot a.numActual := by
  have hsub : ∀ pid slot, a.nearSlot pid = some slot → a.boundarySlot pid = some slot := by
    intro pid slot hslot
    unfold nearSlot at hslot
    by_cases hn : a.near pid = true
    · rwa [if_pos hn] at hslot
    · rw [if_neg hn] at hslot
      cases hslot
  exact ⟨fun pid hpid slot hslot => h.kv.lt pid hpid slot (hsub pid slot hslot),
    fun pid hpid pid' hpid' slot hslot hslot' => h.kv.inj pid hpid pid' hpid' slot (hsub _ _ hslot) (hsub _ _ hslot')⟩

/-- Launches that make the stores of some tokens leave what inserting these tokens leaves. -/
theorem scatter_eq_insert {slots : Nat → Option Nat} {q : Nat → TokenBytes B} {n : Nat} (hslots : SlotsOk kv slots n)
    {stores : List (Nat × B)} (h : ∀ w, w ∈ stores ↔
      ∃ pid < n, ∃ slot, slots pid = some slot ∧ ∃ i < 584, w = (byteAddr kv slot i, (q pid).byte i)) (cache : Nat → B) :
    scatter cache stores = quantizeAndInsertKCache kv false (fun _ => List.range n) slots q cache := by
  rw [quantizeAndInsertKCache_eq]
  apply scatter_eq_of_mem_iff
  · intro w
    rw [h, mem_insertList kv hslots fun _ => .refl _]
  · intro w hw v hv he
    obtain ⟨pid, hpid, slot, hslot, i, hi, rfl⟩ := (h w).mp hw
    obtain ⟨pid', hpid', slot', hslot', i', hi', rfl⟩ := (h v).mp hv
    obtain ⟨rfl, rfl⟩ := byteAddr_inj kv hi hi' he
    rw [hslots.inj pid hpid pid' hpid' slot hslot hslot']

theorem run_plain (h : a.Ok kv) {order : Nat → Nat → List Nat} (horder : ∀ core kvStart, (order core kvStart).Perm (List.range a.numActual))
    (state : Nat → Nat → S) (cache : Nat → B) :
    a.run kv false order state cache =
      quantizeAndInsertKCache kv false (fun _ => List.range a.numActual) a.boundarySlot (a.row state) cache := by
  apply scatter_eq_insert h.kv
  intro w
  simp only [List.mem_flatMap, (horder 0 0).mem_iff, List.mem_range, mem_program]

theorem run_windowed (h : a.Ok kv) {order : Nat → Nat → List Nat} (horder : ∀ core kvStart, (order core kvStart).Perm (List.range a.numActual))
    (state : Nat → Nat → S) (cache : Nat → B) :
    a.run kv true order state cache =
      quantizeAndInsertKCache kv false (fun _ => List.range a.numActual) a.nearSlot (a.row state) cache := by
  apply scatter_eq_insert h.near
  intro w
  have hmem : ∀ core kvStart pid, pid ∈ order core kvStart ↔ pid < a.numActual := fun core kvStart pid => by
    rw [(horder core kvStart).mem_iff, List.mem_range]
  simp only [List.mem_flatMap, hmem, mem_windowProgram]
  constructor
  · rintro ⟨core, hcore, kvStart, _, pid, hpid, own, slot, hown, hslot, hin, hout, _, hw⟩
    have hlt : own / a.blockSize < core + windowBlocks a.stateStride := Nat.lt_of_lt_of_le hin.2 (Nat.min_le_left _ _)
    obtain rfl := (mem_window a.stateStride (h.own pid hpid own hown)).mp ⟨hcore, hin.1, hlt⟩
    refine ⟨pid, hpid, slot, ?_, hw⟩
    have hnear : a.near pid = true := by
      simp [CompressArgs.near, hown, hout]
    rw [nearSlot, if_pos hnear, hslot]
  · rintro ⟨pid, hpid, slot, hslot, hw⟩
    unfold nearSlot at hslot
    by_cases hnear : a.near pid = true
    · rw [if_pos hnear] at hslot
      cases hown : a.slots pid with
      | none => simp [CompressArgs.near, hown] at hnear
      | some own =>
        simp only [CompressArgs.near, hown, Bool.not_eq_true'] at hnear
        have hblock := h.own pid hpid own hown
        have hkv : slot / kv.blockSize < kv.numBlocks := Nat.div_lt_of_lt_mul (Nat.mul_comm _ _ ▸ h.kv.lt pid hpid slot hslot)
        obtain ⟨hcore, hlo, hhi⟩ := (mem_window a.stateStride hblock).mpr rfl
        obtain ⟨hkvStart, hkvlo, hkvhi⟩ := (mem_window kv.stride hkv).mpr rfl
        exact ⟨_, hcore, _, hkvStart, pid, hpid, own, slot, hown, hslot, ⟨hlo, Nat.lt_min.mpr ⟨hhi, hblock⟩⟩, hnear,
          ⟨hkvlo, Nat.lt_min.mpr ⟨hkvhi, hkv⟩⟩, hw⟩
    · rw [if_neg hnear] at hslot
      cases hslot

/-- The windowed launches store the row of a boundary token, as the plain launch does, if the state rows that it needs
lie within reach of the window of its own block, and leave its place as it was if not. Nothing else changes. Where all
boundary tokens are so, they leave what the plain launch leaves. -/
theorem compress_windows (h : a.Ok kv) {order order' : Nat → Nat → List Nat}
    (horder : ∀ core kvStart, (order core kvStart).Perm (List.range a.numActual))
    (horder' : ∀ core kvStart, (order' core kvStart).Perm (List.range a.numActual)) (state : Nat → Nat → S) (cache : Nat → B) :
    (∀ pid < a.numActual, ∀ slot, a.boundarySlot pid = some slot → ∀ i < 584,
      a.run kv true order state cache (byteAddr kv slot i) =
        if a.near pid then (a.row state pid).byte i else cache (byteAddr kv slot i)) ∧
    (∀ addr, (∀ pid < a.numActual, ∀ slot, a.boundarySlot pid = some slot → ∀ i < 584, addr ≠ byteAddr kv slot i) →
      a.run kv true order state cache addr = cache addr) ∧
    ((∀ pid < a.numActual, (a.boundarySlot pid).isSome = true → a.near pid = true) →
      a.run kv true order state cache = a.run kv false order' state cache) := by
  rw [run_windowed h horder, run_plain h horder']
  obtain ⟨hin, hout⟩ := insert_spec (k := a.row state) kv h.near false (fun _ => .refl (List.range a.numActual)) cache
  have hnear : ∀ pid slot, a.nearSlot pid = some slot → a.near pid = true ∧ a.boundarySlot pid = some slot := by
    intro pid slot hslot
    unfold nearSlot at hslot
    by_cases hn : a.near pid = true
    · rw [if_pos hn] at hslot
      exact ⟨hn, hslot⟩
    · rw [if_neg hn] at hslot
      cases hslot
  refine ⟨fun pid hpid slot hslot i hi => ?_, fun addr haddr => ?_, fun hall => ?_⟩
  · by_cases hn : a.near pid = true
    · rw [if_pos hn]
      exact hin pid hpid slot (by rw [nearSlot, if_pos hn, hslot]) i hi
    · rw [if_neg hn]
      apply hout
      intro pid' hpid' slot' hslot' i' hi' he
      obtain ⟨hn', hb'⟩ := hnear pid' slot' hslot'
      obtain ⟨rfl, _⟩ := byteAddr_inj kv hi hi' he
      exact hn (h.kv.inj pid hpid pid' hpid' slot hslot hb' ▸ hn')
  · apply hout
    intro pid hpid slot hslot i hi
    exact haddr pid hpid slot (hnear pid slot hslot).2 i hi
  · rw [quantizeAndInsertKCache_eq]
    apply scatter_eq_insert h.kv
    intro w
    rw [mem_insertList kv h.near fun _ => .refl _]
    have hiff : ∀ pid < a.numActual, ∀ slot, a.nearSlot pid = some slot ↔ a.boundarySlot pid = some slot := by
      intro pid hpid slot
      refine ⟨fun hs => (hnear pid slot hs).2, fun hs => ?_⟩
      rw [nearSlot, if_pos (hall pid hpid (by rw [hs]; rfl)), hs]
    constructor
    · rintro ⟨pid, hpid, slot, hslot, hw⟩
      exact ⟨pid, hpid, slot, (hiff pid hpid slot).mp hslot, hw⟩
    · rintro ⟨pid, hpid, slot, hslot, hw⟩
      exact ⟨pid, hpid, slot, (hiff pid hpid slot).mpr hslot, hw⟩

end

/-- Two blocks, each a window of its own. -/
def twoWindows : KCache where
  numBlocks := 2
  blockSize := 2
  stride := 2 ^ 30
  blockSize_pos := Nat.two_pos
  fits := by decide

/-- Four state blocks, each a window of its own. The second token needs a row from the first block, three away from its own. -/
def farToken : CompressArgs Nat Nat where
  numActual := 2
  slots := fun pid => some (2 * pid + 1)
  positions := fun _ => 1
  tokenToReq := fun pid => pid
  blockTable := fun r b => if b = 0 then 0 else 2 * r + 1
  blockSize := 1
  numStateBlocks := 4
  stateStride := 2 ^ 30
  compressRatio := 2
  overlap := 0
  kvSlots := fun pid => some pid
  compress := fun rows pos => { fp8 := fun j => (rows 0).getD 0 + (rows 1).getD 0 + j, scale := fun _ => pos, bf16 := fun j => j }

def farState (block row : Nat) : Nat := 10 * block + row

theorem compress_windows_small :
    farToken.Ok twoWindows ∧ ∀ i < 584,
      farToken.run twoWindows true (fun _ _ => [1, 0]) farState (fun _ => 0) (byteAddr twoWindows 0 i) =
        (farToken.row farState 0).byte i ∧
      farToken.run twoWindows true (fun _ _ => [1, 0]) farState (fun _ => 0) (byteAddr twoWindows 1 i) = 0 := by
  have hslot : ∀ pid slot, farToken.boundarySlot pid = some slot → pid = slot := by
    intro pid slot h
    have hb : farToken.boundarySlot pid = some pid := by simp [boundarySlot, isBoundary, farToken]
    rw [hb] at h
    exact Option.some.inj h
  have hok : farToken.Ok twoWindows := by
    refine ⟨?_, ⟨?_, ?_⟩⟩
    · rintro (_ | _ | pid) hpid slot hslot
      · cases hslot
        decide
      · cases hslot
        decide
      · exact absurd hpid (Nat.not_lt.mpr (Nat.le_add_left 2 pid))
    · intro pid hpid slot h
      exact hslot pid slot h ▸ Nat.lt_trans hpid (show 2 < 4 by decide)
    · intro pid _ pid' _ slot h h'
      rw [hslot pid slot h, hslot pid' slot h']
  have horder : ∀ core kvStart : Nat, [1, 0].Perm (List.range farToken.numActual) := fun _ _ => List.Perm.swap 0 1 []
  obtain ⟨hrow, -, -⟩ := compress_windows hok horder horder farState fun _ => 0
  refine ⟨hok, fun i hi => ⟨?_, ?_⟩⟩
  · exact hrow 0 Nat.two_pos 0 rfl i hi
  · exact hrow 1 Nat.one_lt_two 1 rfl i hi

end CompressArgs

end VllmHcu.DeepseekV4
