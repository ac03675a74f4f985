import VllmHcu.Compressor.C128
import VllmHcu.Lib.Prefix
import VllmHcu.Lib.RowMajor

/-!
# One launch equals two

Every token of a request is saved in the row of its position. When the rows of
the positions in use differ, no row that a program loads is stored by the
launch: a loaded position is before the chunk of its request. So a program sees
the state cache as it was before the launch, and what it takes from the inputs
is what the save kernel stores.
-/

namespace VllmHcu.Compressor

/-! ## Lanes -/

theorem mem_lanes {h start n col : Nat} : col ∈ lanes h start n ↔ start ≤ col ∧ col < start + n ∧ col < h := by
  simp only [lanes, List.mem_filter, List.mem_range'_1, decide_eq_true_eq, and_assoc]

theorem mem_splitColumns {w : Widths} {s col : Nat} :
    col ∈ splitColumns w s ↔ col / splitBlockSize = s ∧ col < w.headSize := by
  unfold splitColumns
  rw [mem_lanes]
  unfold splitBlockSize
  omega

/-- Over the head splits every column comes once, in order. -/
theorem splitColumns_tile (w : Widths) : (List.range (numSplits w)).flatMap (splitColumns w) = List.range w.headSize := by
  have htile : (List.range (numSplits w)).flatMap (fun s => List.range' (s * splitBlockSize) splitBlockSize) =
      List.range (numSplits w * splitBlockSize) := by
    have hrange := flatMap_range' 0 splitBlockSize (numSplits w)
    simp only [Nat.zero_add] at hrange
    rw [hrange, List.range_eq_range']
  have hcover : w.headSize ≤ numSplits w * splitBlockSize := le_cdiv_mul w.headSize (by decide)
  obtain ⟨d, hd⟩ := Nat.exists_eq_add_of_le hcover
  unfold splitColumns lanes
  rw [← List.filter_flatMap, htile, hd, List.range_add, List.filter_append]
  have hkeep : (List.range w.headSize).filter (· < w.headSize) = List.range w.headSize := by
    apply List.filter_eq_self.mpr
    intro col hcol
    exact decide_eq_true (List.mem_range.mp hcol)
  have hdrop : ((List.range d).map (w.headSize + ·)).filter (· < w.headSize) = [] := by
    apply List.filter_eq_nil_iff.mpr
    intro col hcol
    obtain ⟨k, _, rfl⟩ := List.mem_map.mp hcol
    simp
  rw [hkeep, hdrop, List.append_nil]

theorem mem_saveLanes {w : Widths} {col : Nat} :
    col ∈ lanes w.headSize 0 (2 ^ Nat.clog 2 w.headSize) ↔ col < w.headSize := by
  have hle : w.headSize ≤ 2 ^ Nat.clog 2 w.headSize := Nat.le_pow_clog Nat.one_lt_two _
  rw [mem_lanes]
  omega

/-! ## Tokens -/

section
variable (b : Batch)

/-- Token `t` belongs to request `r`. -/
structure Owns (r t : Nat) : Prop where
  lt : r < b.numReqs
  lo : b.queryStartLoc r ≤ t
  hi : t < b.queryStartLoc (r + 1)

/-- The position at which the chunk of a request begins. -/
def chunkStart (r : Nat) : Nat := b.positions (b.queryStartLoc r)

/-- A position in use: a token of the batch is saved there, or a boundary token reads it. -/
def Live (r pos : Nat) : Prop :=
  ∃ t, Owns b r t ∧ (pos = b.positions t ∨ isBoundary b t = true ∧ pos ≤ b.positions t ∧ b.positions t < pos + compressRatio)

def stateRow (r pos : Nat) : Nat × Nat := (b.blockTable r (pos / b.blockSize), pos % b.blockSize)

/-- Different positions in use have different slots. -/
def SlotsDistinct : Prop :=
  ∀ r pos r' pos', Live b r pos → Live b r' pos' → stateRow b r pos = stateRow b r' pos' → r = r' ∧ pos = pos'

variable {b}

theorem Owns.position {r t : Nat} (h : Owns b r t) : b.positions t = chunkStart b r + (t - b.queryStartLoc r) :=
  b.consecutive r h.lt t h.lo h.hi

theorem Owns.req {r t : Nat} (h : Owns b r t) : b.tokenToReqIndices t = r := b.request r h.lt t h.lo h.hi

theorem start_le {i j : Nat} (hij : i ≤ j) (hj : j ≤ b.numReqs) : b.queryStartLoc i ≤ b.queryStartLoc j := by
  exact le_of_steps b.start_mono hij hj

theorem Owns.lt_numActual {r t : Nat} (h : Owns b r t) : t < b.numActual :=
  h.hi.trans_le ((start_le h.lt (Nat.le_refl _)).trans b.start_le)

theorem Owns.saved {r t : Nat} (h : Owns b r t) :
    b.slotMapping t = ((stateRow b r (b.positions t)).1 * b.blockSize + (stateRow b r (b.positions t)).2 : Nat) :=
  b.slot r h.lt t h.lo h.hi

/-- A token of the launch belongs to a request unless it is padding. -/
theorem owned_of_slot {t : Nat} (ht : t < b.numActual) (hs : ¬ b.slotMapping t < 0) : ∃ r, Owns b r t := by
  have hlt : t < b.queryStartLoc b.numReqs := by
    by_contra hge
    apply hs
    rw [b.padded t (Nat.not_lt.mp hge) ht]
    decide
  obtain ⟨r, hr, hlo, hhi⟩ := exists_crossing (by rw [b.start_zero]; exact Nat.zero_le t) hlt
  exact ⟨r, hr, hlo, hhi⟩

theorem Owns.live {r t : Nat} (h : Owns b r t) : Live b r (b.positions t) := ⟨t, h, .inl rfl⟩

theorem Owns.token_eq {r t t' : Nat} (h : Owns b r t) (h' : Owns b r t') (he : b.positions t = b.positions t') : t = t' := by
  rw [h.position, h'.position] at he
  have := h.lo
  have := h'.lo
  omega

end

/-! ## Saves -/

section
variable {α : Type*} [Add α] {b : Batch} (x : Inputs α) (w : Widths)

/-- The value that a token stores in column `col` of its row. -/
def savedValue (b : Batch) (t : Nat) (score : Bool) (col : Nat) : α :=
  if score then x.score t col + x.ape (b.positions t % compressRatio) col else x.kv t col

def savedCell (b : Batch) (r pos : Nat) (score : Bool) (col : Nat) : Cell :=
  ⟨(stateRow b r pos).1, (stateRow b r pos).2, if score then w.stateWidth + col else col⟩

variable {x w}

theorem mem_saveColumns {cols : List Nat} {r t : Nat} (h : Owns b r t) {wr : Cell × α} :
    wr ∈ saveColumns b x w cols t ↔
      ∃ col ∈ cols, ∃ score, wr = (savedCell w b r (b.positions t) score col, savedValue x b t score col) := by
  have hslot := h.saved
  have hnonneg : ¬ b.slotMapping t < 0 := by
    rw [hslot]
    omega
  have hlt : (stateRow b r (b.positions t)).2 < b.blockSize := Nat.mod_lt _ b.blockSize_pos
  unfold saveColumns
  rw [if_neg hnonneg, hslot]
  dsimp only
  rw [Int.toNat_natCast, block_div hlt, block_mod hlt, List.mem_append, List.mem_map, List.mem_map]
  constructor
  · rintro (⟨col, hcol, rfl⟩ | ⟨col, hcol, rfl⟩)
    · exact ⟨col, hcol, false, rfl⟩
    · exact ⟨col, hcol, true, rfl⟩
  · rintro ⟨col, hcol, score, rfl⟩
    cases score with
    | false => exact .inl ⟨col, hcol, rfl⟩
    | true => exact .inr ⟨col, hcol, rfl⟩

theorem saveColumns_padded {cols : List Nat} {t : Nat} (h : b.slotMapping t < 0) : saveColumns b x w cols t = [] := if_pos h

/-- The stores of the whole launch. -/
def Saved (x : Inputs α) (w : Widths) (b : Batch) (wr : Cell × α) : Prop :=
  ∃ r t, Owns b r t ∧ ∃ col < w.headSize, ∃ score, wr = (savedCell w b r (b.positions t) score col, savedValue x b t score col)

theorem mem_saveKernel {order : List Nat} (horder : order.Perm (List.range b.numActual)) {wr : Cell × α} :
    wr ∈ order.flatMap (savePartial b x w) ↔ Saved x w b wr := by
  rw [List.mem_flatMap]
  constructor
  · rintro ⟨t, ht, hw⟩
    have ht : t < b.numActual := List.mem_range.mp (horder.mem_iff.mp ht)
    by_cases hs : b.slotMapping t < 0
    · rw [savePartial, saveColumns_padded hs] at hw
      cases hw
    · obtain ⟨r, hr⟩ := owned_of_slot ht hs
      obtain ⟨col, hcol, score, rfl⟩ := (mem_saveColumns hr).mp hw
      exact ⟨r, t, hr, col, mem_saveLanes.mp hcol, score, rfl⟩
  · rintro ⟨r, t, hr, col, hcol, score, rfl⟩
    refine ⟨t, horder.mem_iff.mpr (List.mem_range.mpr hr.lt_numActual), ?_⟩
    exact (mem_saveColumns hr).mpr ⟨col, mem_saveLanes.mpr hcol, score, rfl⟩

theorem mem_grid {p : Program} : p ∈ grid b w ↔ p.token < b.numActual ∧ p.split < numSplits w := by
  cases p
  simp [grid]

theorem split_lt {col : Nat} (h : col < w.headSize) : col / splitBlockSize < numSplits w := by
  apply (lt_cdiv (by decide)).mpr
  exact (Nat.div_mul_le_self _ _).trans_lt h

theorem saved_of_split {p : Program} (hp : p ∈ grid b w) {wr : Cell × α} (hw : wr ∈ saveSplit b x w p) : Saved x w b wr := by
  obtain ⟨ht, _⟩ := mem_grid.mp hp
  by_cases hs : b.slotMapping p.token < 0
  · rw [saveSplit, saveColumns_padded hs] at hw
    cases hw
  · obtain ⟨r, hr⟩ := owned_of_slot ht hs
    obtain ⟨col, hcol, score, rfl⟩ := (mem_saveColumns hr).mp hw
    exact ⟨r, p.token, hr, col, (mem_splitColumns.mp hcol).2, score, rfl⟩

theorem mem_splitSaves {order : List Program} (horder : order.Perm (grid b w)) {wr : Cell × α} :
    wr ∈ order.flatMap (saveSplit b x w) ↔ Saved x w b wr := by
  rw [List.mem_flatMap]
  constructor
  · rintro ⟨p, hp, hw⟩
    exact saved_of_split (horder.mem_iff.mp hp) hw
  · rintro ⟨r, t, hr, col, hcol, score, rfl⟩
    have hp : (⟨t, col / splitBlockSize⟩ : Program) ∈ grid b w := mem_grid.mpr ⟨hr.lt_numActual, split_lt hcol⟩
    refine ⟨_, horder.mem_iff.mpr hp, ?_⟩
    exact (mem_saveColumns hr).mpr ⟨col, mem_splitColumns.mpr ⟨rfl, hcol⟩, score, rfl⟩

/-- No cell gets two values. -/
theorem Saved.functional (hd : SlotsDistinct b) {wr vr : Cell × α} (hw : Saved x w b wr) (hv : Saved x w b vr)
    (he : wr.1 = vr.1) : wr.2 = vr.2 := by
  obtain ⟨r, t, hr, col, hcol, score, rfl⟩ := hw
  obtain ⟨r', t', hr', col', hcol', score', rfl⟩ := hv
  simp only [savedCell, Cell.mk.injEq] at he
  obtain ⟨hblock, hrow, hc⟩ := he
  obtain ⟨rfl, hpos⟩ := hd _ _ _ _ hr.live hr'.live (Prod.ext hblock hrow)
  obtain rfl := hr.token_eq hr' hpos
  have hle := w.head_le
  cases score with
  | false =>
    cases score' with
    | false =>
      simp only [Bool.false_eq_true, if_false] at hc
      rw [hc]
    | true =>
      simp only [Bool.false_eq_true, if_false, if_true] at hc
      omega
  | true =>
    cases score' with
    | false =>
      simp only [Bool.false_eq_true, if_false, if_true] at hc
      omega
    | true =>
      simp only [if_true] at hc
      have : col = col' := by omega
      rw [this]

/-- What the save kernel leaves in the row of a token. -/
theorem saveKernel_saved (hd : SlotsDistinct b) {order : List Nat} (horder : order.Perm (List.range b.numActual))
    (cache : Cell → α) {r t col : Nat} (hr : Owns b r t) (hcol : col < w.headSize) (score : Bool) :
    saveKernel b x w order cache (savedCell w b r (b.positions t) score col) = savedValue x b t score col := by
  have hsaved : Saved x w b (savedCell w b r (b.positions t) score col, savedValue x b t score col) :=
    ⟨r, t, hr, col, hcol, score, rfl⟩
  unfold saveKernel
  apply scatter_eq_of_agree
  · intro wr hw he
    exact ((mem_saveKernel horder).mp hw).functional hd hsaved he
  · exact .inr ⟨_, (mem_saveKernel horder).mpr hsaved, rfl⟩

/-- A row of a live position before the chunk of its request is not stored. -/
theorem not_saved_before (hd : SlotsDistinct b) {r pos : Nat} (hl : Live b r pos) (hpos : pos < chunkStart b r) (c : Nat) {wr : Cell × α}
    (hw : Saved x w b wr) : wr.1 ≠ ⟨(stateRow b r pos).1, (stateRow b r pos).2, c⟩ := by
  intro he
  obtain ⟨r', t', hr', col', _, score', rfl⟩ := hw
  simp only [savedCell, Cell.mk.injEq] at he
  obtain ⟨hblock, hrow, _⟩ := he
  obtain ⟨rfl, hpos'⟩ := hd _ _ _ _ hr'.live hl (Prod.ext hblock hrow)
  have := hr'.position
  omega

end

/-! ## Reads -/

section
variable {α : Type*} [Add α] {b : Batch} {x : Inputs α} {w : Widths}

/-- The window of a boundary token has no position below zero. -/
theorem boundary_le {t : Nat} (hb : isBoundary b t = true) : compressRatio ≤ b.positions t + 1 := by
  have hmod : (b.positions t + 1) % compressRatio = 0 := beq_iff_eq.mp hb
  exact Nat.le_of_dvd (Nat.succ_pos _) (Nat.dvd_of_mod_eq_zero hmod)

theorem windowPos_eq {t k : Nat} (hb : isBoundary b t = true) (hk : k < 128) :
    ∃ pos : Nat, windowPos b t k = pos ∧ pos ≤ b.positions t ∧ b.positions t < pos + compressRatio := by
  have hle := boundary_le hb
  have hr : compressRatio = 128 := rfl
  refine ⟨b.positions t + 1 + k - compressRatio, ?_, ?_, ?_⟩
  · unfold windowPos
    omega
  · omega
  · omega

theorem stateCell_eq (r pos col : Nat) :
    stateCell b r (pos : Int) col = ⟨(stateRow b r pos).1, (stateRow b r pos).2, col⟩ := by
  unfold stateCell stateRow
  congr 1

/-- The candidate token of a position of the request. -/
theorem candidate_eq {r t pos : Nat} (hr : Owns b r t) :
    candidate b t pos = (b.queryStartLoc r : Int) + pos - chunkStart b r := by
  have hp := hr.position
  have := hr.lo
  unfold candidate
  dsimp only
  rw [hr.req, hp]
  omega

theorem inCurrentChunk_iff {r t pos : Nat} (hr : Owns b r t) (hpos : pos ≤ b.positions t) :
    inCurrentChunk b t pos = true ↔ chunkStart b r ≤ pos := by
  have hp := hr.position
  have := hr.lo
  unfold inCurrentChunk
  rw [candidate_eq hr, hr.req, Bool.and_eq_true, decide_eq_true_eq, decide_eq_true_eq]
  omega

/-- A position of the current chunk is the position of its candidate token. -/
theorem candidate_owned {r t pos : Nat} (hr : Owns b r t) (hpos : pos ≤ b.positions t) (hin : chunkStart b r ≤ pos) :
    Owns b r (max (candidate b t pos) 0).toNat ∧ b.positions (max (candidate b t pos) 0).toNat = pos := by
  have hp := hr.position
  have hlo := hr.lo
  have hhi := hr.hi
  have hcand : (max (candidate b t pos) 0).toNat = b.queryStartLoc r + (pos - chunkStart b r) := by
    rw [candidate_eq hr]
    omega
  rw [hcand]
  have howns : Owns b r (b.queryStartLoc r + (pos - chunkStart b r)) := ⟨hr.lt, Nat.le_add_right _ _, by omega⟩
  refine ⟨howns, ?_⟩
  rw [howns.position]
  omega

/-- The pairs of a boundary token do not depend on the rows that the launch stores. -/
theorem splitPairs_congr (hd : SlotsDistinct b) {r t : Nat} (hr : Owns b r t) (hb : isBoundary b t = true) (other : α × α)
    {cache cache' : Cell → α} (hc : ∀ c, (∀ wr : Cell × α, Saved x w b wr → wr.1 ≠ c) → cache c = cache' c) (col : Nat) :
    splitPairs b x w other cache t col = splitPairs b x w other cache' t col := by
  unfold splitPairs
  dsimp only
  apply List.map_congr_left
  intro k hk
  obtain ⟨pos, he, hle, hlt⟩ := windowPos_eq hb (List.mem_range.mp hk)
  rw [he, hr.req]
  by_cases hin : chunkStart b r ≤ pos
  · have hchunk := (inCurrentChunk_iff hr hle).mpr hin
    rw [if_pos hchunk, if_pos hchunk]
  · have hchunk : ¬ inCurrentChunk b t pos = true := fun h => hin ((inCurrentChunk_iff hr hle).mp h)
    have hlive : Live b r pos := ⟨t, hr, .inr ⟨hb, hle, hlt⟩⟩
    have hread : ∀ c, cache (stateCell b r pos c) = cache' (stateCell b r pos c) := by
      intro c
      apply hc
      intro wr hw
      rw [stateCell_eq]
      exact not_saved_before hd hlive (Nat.not_le.mp hin) c hw
    rw [if_neg hchunk, if_neg hchunk, hread, hread]

/-- The pairs of the split kernel are those that the plain kernel reads after the save kernel. -/
theorem splitPairs_eq_plain (hd : SlotsDistinct b) {order : List Nat} (horder : order.Perm (List.range b.numActual))
    (cache : Cell → α) {r t col : Nat} (hr : Owns b r t) (hb : isBoundary b t = true) (hcol : col < w.headSize)
    (other other' : α × α) :
    splitPairs b x w other cache t col = plainPairs b w other' (saveKernel b x w order cache) t col := by
  unfold splitPairs plainPairs
  dsimp only
  apply List.map_congr_left
  intro k hk
  obtain ⟨pos, he, hle, hlt⟩ := windowPos_eq hb (List.mem_range.mp hk)
  have he' : (b.positions t : Int) - compressRatio + 1 + k = pos := by
    rw [← he]
    unfold windowPos compressRatio
    omega
  have hnonneg : (0 : Int) ≤ pos := Int.natCast_nonneg pos
  rw [he, he', hr.req, if_pos hnonneg, if_pos hnonneg]
  by_cases hin : chunkStart b r ≤ pos
  · obtain ⟨howns, hpos⟩ := candidate_owned hr hle hin
    have hkv := saveKernel_saved (x := x) hd horder cache howns hcol false
    have hscore := saveKernel_saved (x := x) hd horder cache howns hcol true
    rw [if_pos ((inCurrentChunk_iff hr hle).mpr hin), stateCell_eq, stateCell_eq]
    rw [hpos] at hkv hscore
    unfold savedCell savedValue at hkv hscore
    simp only [Bool.false_eq_true, if_false, if_true] at hkv hscore
    rw [hkv, hscore, hpos]
    rfl
  · have hchunk : ¬ inCurrentChunk b t pos = true := fun h => hin ((inCurrentChunk_iff hr hle).mp h)
    have hlive : Live b r pos := ⟨t, hr, .inr ⟨hb, hle, hlt⟩⟩
    have hread : ∀ c, saveKernel b x w order cache (stateCell b r pos c) = cache (stateCell b r pos c) := by
      intro c
      apply scatter_of_not_mem
      intro hm
      obtain ⟨wr, hw, hkey⟩ := List.mem_map.mp hm
      rw [stateCell_eq] at hkey
      exact not_saved_before hd hlive (Nat.not_le.mp hin) c ((mem_saveKernel horder).mp hw) hkey
    rw [if_neg hchunk, hread, hread]

/-- No program loads a state row that a program of the launch stores. -/
theorem reads_not_saved (hd : SlotsDistinct b) {p : Program} (hp : p ∈ grid b w) {row : Nat × Nat}
    (hrow : row ∈ stateReads b p) {wr : Cell × α} (hw : Saved x w b wr) : (wr.1.block, wr.1.row) ≠ row := by
  obtain ⟨ht, _⟩ := mem_grid.mp hp
  unfold stateReads at hrow
  split at hrow
  · cases hrow
  · rename_i hcond
    simp only [Bool.or_eq_true, decide_eq_true_eq, Bool.not_eq_true', not_or, Bool.not_eq_false] at hcond
    obtain ⟨hs, hb⟩ := hcond
    obtain ⟨r, hr⟩ := owned_of_slot ht hs
    obtain ⟨ipos, hm, rfl⟩ := List.mem_map.mp hrow
    obtain ⟨hm, hmask⟩ := List.mem_filter.mp hm
    obtain ⟨k, hk, rfl⟩ := List.mem_map.mp hm
    obtain ⟨pos, he, hle, hlt⟩ := windowPos_eq hb (List.mem_range.mp hk)
    rw [he] at hmask ⊢
    rw [hr.req, stateCell_eq]
    have hin : ¬ chunkStart b r ≤ pos := by
      intro hin
      rw [(inCurrentChunk_iff hr hle).mpr hin] at hmask
      simp at hmask
    intro hkey
    have hlive : Live b r pos := ⟨p.token, hr, .inr ⟨hb, hle, hlt⟩⟩
    apply not_saved_before hd hlive (Nat.not_le.mp hin) wr.1.col hw
    simp only [Prod.mk.injEq] at hkey
    obtain ⟨hblock, hrow⟩ := hkey
    rw [← hblock, ← hrow]

end

/-! ## The launch -/

section
variable {α β : Type*} [Add α] {b : Batch} {x : Inputs α} {w : Widths}

/-- The entries of `compressed_kv` that a program stores, computed on a given state cache. -/
def outputs (b : Batch) (x : Inputs α) (w : Widths) (other : α × α) (compress : List (α × α) → β) (cache : Cell → α) (p : Program) :
    List ((Nat × Nat) × β) :=
  if b.slotMapping p.token < 0 ∨ isBoundary b p.token = false then []
  else (splitColumns w p.split).map fun col => ((p.token, col), compress (splitPairs b x w other cache p.token col))

/-- Cells that the launch does not store are as they were before it. -/
def Untouched (b : Batch) (x : Inputs α) (w : Widths) (cache₀ cache : Cell → α) : Prop :=
  ∀ c, (∀ wr : Cell × α, Saved x w b wr → wr.1 ≠ c) → cache c = cache₀ c

theorem Untouched.save {cache₀ cache : Cell → α} (h : Untouched b x w cache₀ cache) {p : Program} (hp : p ∈ grid b w) :
    Untouched b x w cache₀ (scatter cache (saveSplit b x w p)) := by
  intro c hc
  rw [← h c hc]
  apply scatter_of_not_mem
  intro hm
  obtain ⟨wr, hw, he⟩ := List.mem_map.mp hm
  exact hc wr (saved_of_split hp hw) he

theorem runProgram_spec (hd : SlotsDistinct b) (other : α × α) (compress : List (α × α) → β) {cache₀ : Cell → α}
    {st : LaunchState α β} (h : Untouched b x w cache₀ st.cache) {p : Program} (hp : p ∈ grid b w) :
    (runProgram b x w other compress st p).cache = scatter st.cache (saveSplit b x w p) ∧
      (runProgram b x w other compress st p).compressedKv =
        scatter st.compressedKv (outputs b x w other compress cache₀ p) := by
  unfold runProgram outputs
  by_cases hs : b.slotMapping p.token < 0
  · rw [if_pos hs, if_pos (.inl hs), saveSplit, saveColumns_padded hs]
    exact ⟨rfl, rfl⟩
  · rw [if_neg hs]
    by_cases hb : isBoundary b p.token = true
    · have hcond : ¬ (b.slotMapping p.token < 0 ∨ isBoundary b p.token = false) := by simp [hs, hb]
      obtain ⟨r, hr⟩ := owned_of_slot (mem_grid.mp hp).1 hs
      dsimp only
      rw [if_pos hb, if_neg hcond]
      refine ⟨rfl, ?_⟩
      dsimp only
      congr 1
      apply List.map_congr_left
      intro col _
      rw [splitPairs_congr hd hr hb other (h.save hp) col]
    · rw [if_neg hb, if_pos (.inr (Bool.eq_false_iff.mpr hb))]
      exact ⟨rfl, rfl⟩

/-- In whatever order the programs run, each computes on the state cache before the launch. -/
theorem runLaunch_spec (hd : SlotsDistinct b) (other : α × α) (compress : List (α × α) → β) {cache₀ : Cell → α} :
    ∀ {order : List Program} {st : LaunchState α β}, (∀ p ∈ order, p ∈ grid b w) → Untouched b x w cache₀ st.cache →
      (runLaunch b x w other compress order st).cache = scatter st.cache (order.flatMap (saveSplit b x w)) ∧
        (runLaunch b x w other compress order st).compressedKv =
          scatter st.compressedKv (order.flatMap (outputs b x w other compress cache₀))
  | [], _, _, _ => ⟨rfl, rfl⟩
  | p :: order, st, hgrid, h => by
    have hp := hgrid p (List.mem_cons_self ..)
    obtain ⟨hcache, hout⟩ := runProgram_spec hd other compress h hp
    have hnext : Untouched b x w cache₀ (runProgram b x w other compress st p).cache := by
      rw [hcache]
      exact h.save hp
    obtain ⟨ihcache, ihout⟩ := runLaunch_spec hd other compress (fun q hq => hgrid q (List.mem_cons_of_mem _ hq)) hnext
    unfold runLaunch at ihcache ihout ⊢
    rw [List.foldl_cons, List.flatMap_cons, List.flatMap_cons, scatter_append, scatter_append, ← hcache, ← hout]
    exact ⟨ihcache, ihout⟩

omit [Add α] in
theorem plainPairs_length (other : α × α) (cache : Cell → α) (t col : Nat) :
    (plainPairs b w other cache t col).length = compressRatio := by
  unfold plainPairs
  rw [List.length_map, List.length_range]

/-- What the fused launch does, compared with the save kernel followed by the plain kernel. -/
structure FusedEqualsPlain (b : Batch) (x : Inputs α) (w : Widths) (other other' : α × α) (compress : List (α × α) → β)
    (order : List Program) (saveOrder : List Nat) (st : LaunchState α β) : Prop where
  cache : (runLaunch b x w other compress order st).cache = saveKernel b x w saveOrder st.cache
  compressed : ∀ t < b.numActual, ¬ b.slotMapping t < 0 → isBoundary b t = true → ∀ col < w.headSize,
    (runLaunch b x w other compress order st).compressedKv (t, col) =
      compress (plainPairs b w other' (saveKernel b x w saveOrder st.cache) t col)
  window : ∀ t col, (plainPairs b w other' (saveKernel b x w saveOrder st.cache) t col).length = compressRatio
  columns : (List.range (numSplits w)).flatMap (splitColumns w) = List.range w.headSize
  noHazard : ∀ p ∈ grid b w, ∀ q ∈ grid b w, ∀ row ∈ stateReads b p, ∀ wr ∈ saveSplit b x w q, (wr.1.block, wr.1.row) ≠ row

/-- For every order of the programs the fused launch leaves the state cache of the save kernel
and compresses, for each boundary token and column, the pairs the plain kernel would read. -/
theorem fused_equals_plain {b : Batch} (hd : SlotsDistinct b) (x : Inputs α) (w : Widths) (other other' : α × α)
    (compress : List (α × α) → β) {order : List Program} (horder : order.Perm (grid b w)) {saveOrder : List Nat}
    (hsave : saveOrder.Perm (List.range b.numActual)) (st : LaunchState α β) :
    FusedEqualsPlain b x w other other' compress order saveOrder st := by
  obtain ⟨hcache, hout⟩ := runLaunch_spec (x := x) hd other compress (fun p hp => horder.mem_iff.mp hp)
    (fun c _ => rfl : Untouched b x w st.cache st.cache)
  refine ⟨?_, fun t ht hs hb col hcol => ?_, fun t col => plainPairs_length other' _ t col, splitColumns_tile w, ?_⟩
  · rw [hcache]
    apply scatter_eq_of_mem_iff
    · intro wr
      rw [mem_splitSaves horder, mem_saveKernel hsave]
    · intro wr hw vr hv he
      exact ((mem_splitSaves horder).mp hw).functional hd ((mem_splitSaves horder).mp hv) he
  · obtain ⟨r, hr⟩ := owned_of_slot ht hs
    rw [hout, ← splitPairs_eq_plain hd hsave st.cache hr hb hcol other other']
    apply scatter_eq_of_agree
    · intro wr hw he
      obtain ⟨p, _, hw⟩ := List.mem_flatMap.mp hw
      unfold outputs at hw
      split at hw
      · cases hw
      · obtain ⟨col', _, rfl⟩ := List.mem_map.mp hw
        simp only [Prod.mk.injEq] at he
        obtain ⟨hp, rfl⟩ := he
        rw [hp]
    · refine .inr ⟨((t, col), compress (splitPairs b x w other st.cache t col)), ?_, rfl⟩
      have hp : (⟨t, col / splitBlockSize⟩ : Program) ∈ grid b w := mem_grid.mpr ⟨ht, split_lt hcol⟩
      refine List.mem_flatMap.mpr ⟨_, horder.mem_iff.mpr hp, ?_⟩
      have hcond : ¬ (b.slotMapping t < 0 ∨ isBoundary b t = false) := by simp [hs, hb]
      unfold outputs
      dsimp only
      rw [if_neg hcond]
      exact List.mem_map.mpr ⟨col, mem_splitColumns.mpr ⟨rfl, hcol⟩, rfl⟩
  · intro p hp q hq row hrow wr hw
    exact reads_not_saved hd hp hrow (saved_of_split hq hw)

end

/-- One request that continues at position 126 with three tokens, and a padding token. -/
def threeTokens : Batch where
  numReqs := 1
  numActual := 4
  queryStartLoc i := if i = 0 then 0 else 3
  tokenToReqIndices _ := 0
  positions t := 126 + t
  slotMapping t := if t < 3 then 126 + t else -1
  blockTable _ i := i
  blockSize := 4
  blockSize_pos := by decide
  start_zero := rfl
  start_mono r _ := by
    split <;> omega
  start_le := by decide
  request r hr t _ _ := by omega
  consecutive r hr t _ _ := by
    obtain rfl : r = 0 := by omega
    simp
  slot r hr t _ ht := by
    obtain rfl : r = 0 := by omega
    have ht : t < 3 := ht
    rw [if_pos ht, Nat.div_add_mod']
    push_cast
    rfl
  padded t ht _ := by
    have ht : 3 ≤ t := ht
    exact if_neg (Nat.not_lt.mpr ht)

theorem fused_equals_plain_three :
    FusedEqualsPlain threeTokens ⟨fun t _ => (t : Int), fun t c => t + c, fun p _ => p⟩ ⟨2, 2, Nat.le_refl 2⟩ (0, -1) (0, -2)
      List.sum (grid threeTokens ⟨2, 2, Nat.le_refl 2⟩).reverse (List.range 4) ⟨fun _ => 7, fun _ => (0, 0)⟩ := by
  apply fused_equals_plain
  · rintro r pos r' pos' ⟨t, h, _⟩ ⟨t', h', _⟩ he
    have hr : r < 1 := h.lt
    have hr' : r' < 1 := h'.lt
    simp only [stateRow, threeTokens, Prod.mk.injEq] at he
    omega
  · exact List.reverse_perm _
  · exact List.Perm.refl _

end VllmHcu.Compressor
