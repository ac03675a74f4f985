import VllmHcu.Lib.Scatter
import VllmHcu.Lib.RowMajor
import VllmHcu.Lib.Stride
import Mathlib.Algebra.GroupWithZero.Nat

/-!
# The windows of a large cache

With very many blocks the writer and the gather of the paged key cache run once
for each window of blocks, on a view that starts at the window, and a program
only does what lies in the window. `cache_round_trip`: whatever is windowed and
in whatever order the programs run, gathering gives back what was inserted.
-/

namespace VllmHcu.DeepseekV4

/-- `TOKEN_DATA_SIZE` and `TOKEN_SCALE_DIM` -/
def tokenDataSize : Nat := 448 + 64 * 2

def tokenScaleDim : Nat := 8

/-- A cache of blocks: the data of its tokens, then their scales, then padding. -/
structure KCache where
  numBlocks : Nat
  blockSize : Nat
  stride : Nat
  blockSize_pos : 0 < blockSize
  fits : blockSize * tokenDataSize + blockSize * tokenScaleDim ≤ stride

/-- `_enable_deepseek_v4_cache_window` -/
def enableCacheWindow (useCustomOps enabled : Bool) (numBlocks : Nat) : Bool :=
  if !useCustomOps || !enabled then false else decide (30000 < numBlocks)

/-- `max(1, _DEEPSEEK_V4_CACHE_WINDOW_BYTE_LIMIT // block_stride)` -/
def windowBlocks (stride : Nat) : Nat := max 1 (2 ^ 30 / stride)

/-- The starts of the windows. -/
def windowStarts (numBlocks stride : Nat) : List Nat := strided 0 numBlocks (windowBlocks stride)

theorem windowBlocks_pos (stride : Nat) : 0 < windowBlocks stride := Nat.lt_of_lt_of_le Nat.one_pos (Nat.le_max_left _ _)

/-- A block lies in one window. -/
theorem mem_window (stride : Nat) {numBlocks block start : Nat} (h : block < numBlocks) :
    (start ∈ windowStarts numBlocks stride ∧ start ≤ block ∧ block < start + windowBlocks stride) ↔
      start = block / windowBlocks stride * windowBlocks stride := by
  have hw := windowBlocks_pos stride
  unfold windowStarts
  rw [mem_strided hw]
  constructor
  · rintro ⟨⟨i, rfl, _⟩, hlo, hhi⟩
    rw [Nat.zero_add] at hlo hhi ⊢
    congr 1
    symm
    apply Nat.div_eq_of_lt_le hlo
    rwa [Nat.succ_mul]
  · rintro rfl
    have hdm := Nat.div_add_mod' block (windowBlocks stride)
    have hlt := Nat.mod_lt block hw
    exact ⟨⟨_, (Nat.zero_add _).symm, by omega⟩, by omega, by omega⟩

/-- Offsets into a window fit into 32 bits. -/
theorem window_offset_le (stride : Nat) {n : Nat} (h : n < windowBlocks stride) : n * stride ≤ 2 ^ 30 := by
  unfold windowBlocks at h
  by_cases hn : n = 0
  · subst hn
    simp
  · have hlt : n < 2 ^ 30 / stride := by omega
    exact (Nat.mul_le_mul_right stride (Nat.le_of_lt hlt)).trans (Nat.div_mul_le_self _ _)

/-! ## The writer -/

section
variable {B : Type} [Zero B]

/-- A row quantised: its 448 bytes with the 7 scales, and the bytes of its last 64 elements. -/
structure TokenBytes (B : Type) where
  fp8 : Nat → B
  scale : Nat → B
  bf16 : Nat → B

variable (c : KCache)

/-- The stores for one token of a block at `base`. -/
def insertStores (base pos : Nat) (q : TokenBytes B) : List (Nat × B) :=
  let data := base + pos * tokenDataSize
  let scale := base + c.blockSize * tokenDataSize + pos * tokenScaleDim
  ((List.range 8).flatMap fun b =>
    if b * 64 < 448 then
      (((List.range 64).filter fun j => b * 64 + j < 448).map fun j => (data + (b * 64 + j), q.fp8 (b * 64 + j))) ++
        [(scale + b, q.scale b)]
    else []) ++
  [(scale + 7, 0)] ++
  (List.range (64 / 16)).flatMap fun i => (List.range 32).map fun j => (data + 448 + (i * 32 + j), q.bf16 (i * 32 + j))

/-- `quantize_and_insert_k_kernel` for one token. A slot of `-1` is `none`. -/
def insertProgram (slots : Nat → Option Nat) (k : Nat → TokenBytes B) (pid : Nat) : List (Nat × B) :=
  match slots pid with
  | none => []
  | some slot => insertStores c (slot / c.blockSize * c.stride) (slot % c.blockSize) (k pid)

/-- `_quantize_and_insert_k_window_kernel`, on the view from block `start` on -/
def insertWindowProgram (slots : Nat → Option Nat) (k : Nat → TokenBytes B) (start pid : Nat) : List (Nat × B) :=
  match slots pid with
  | none => []
  | some slot =>
    let block := slot / c.blockSize
    if block < start ∨ start + windowBlocks c.stride ≤ block then []
    else insertStores c (start * c.stride + (block - start) * c.stride) (slot % c.blockSize) (k pid)

/-- `quantize_and_insert_k_cache`. `order` is the order of the programs of a launch. -/
def quantizeAndInsertKCache (windowed : Bool) (order : Nat → List Nat) (slots : Nat → Option Nat) (k : Nat → TokenBytes B)
    (cache : Nat → B) : Nat → B :=
  if windowed then
    scatter cache ((windowStarts c.numBlocks c.stride).flatMap fun start => (order start).flatMap (insertWindowProgram c slots k start))
  else scatter cache ((order 0).flatMap (insertProgram c slots k))

/-- Where byte `i` of a token lies. -/
def byteAddr (slot i : Nat) : Nat :=
  slot / c.blockSize * c.stride +
    if i < tokenDataSize then slot % c.blockSize * tokenDataSize + i
    else c.blockSize * tokenDataSize + slot % c.blockSize * tokenScaleDim + (i - tokenDataSize)

/-- The bytes of a token: its data, its scales, and a zero. -/
def TokenBytes.byte (q : TokenBytes B) (i : Nat) : B :=
  if i < 448 then q.fp8 i else if i < 576 then q.bf16 (i - 448) else if i < 583 then q.scale (i - 576) else 0

theorem mem_insertStores (slot : Nat) (q : TokenBytes B) (w : Nat × B) :
    w ∈ insertStores c (slot / c.blockSize * c.stride) (slot % c.blockSize) q ↔ ∃ i < 584, w = (byteAddr c slot i, q.byte i) := by
  unfold insertStores
  simp only [List.mem_append, List.mem_flatMap, List.mem_range, List.mem_singleton, List.mem_map]
  constructor
  · rintro ((⟨b, hb, h⟩ | rfl) | ⟨i, hi, j, hj, rfl⟩)
    · by_cases hlt : b * 64 < 448
      · rw [if_pos hlt] at h
        obtain h | h := List.mem_append.mp h
        · obtain ⟨j, hj, rfl⟩ := List.mem_map.mp h
          have hj := of_decide_eq_true (List.mem_filter.mp hj).2
          exact ⟨b * 64 + j, by omega, by simp [byteAddr, TokenBytes.byte, tokenDataSize, hj, Nat.lt_trans hj, Nat.add_assoc]⟩
        · rw [List.mem_singleton] at h
          subst h
          refine ⟨576 + b, by omega, ?_⟩
          simp [byteAddr, TokenBytes.byte, tokenDataSize, Nat.add_assoc, show ¬ 576 + b < 448 by omega,
            show 576 + b < 583 by omega]
      · rw [if_neg hlt] at h
        cases h
    · exact ⟨583, by omega, by simp [byteAddr, TokenBytes.byte, tokenDataSize, Nat.add_assoc]⟩
    · refine ⟨448 + (i * 32 + j), by omega, ?_⟩
      simp [byteAddr, TokenBytes.byte, tokenDataSize, Nat.add_assoc, show 448 + (i * 32 + j) < 576 by omega]
  · rintro ⟨i, hi, rfl⟩
    by_cases h448 : i < 448
    · left; left
      refine ⟨i / 64, by omega, ?_⟩
      rw [if_pos (show i / 64 * 64 < 448 by omega)]
      apply List.mem_append_left
      have hdm := Nat.div_add_mod' i 64
      refine List.mem_map.mpr ⟨i % 64, List.mem_filter.mpr ⟨List.mem_range.mpr (Nat.mod_lt i (by decide)), ?_⟩, ?_⟩
      · rw [hdm]
        exact decide_eq_true h448
      · rw [hdm]
        simp [byteAddr, TokenBytes.byte, tokenDataSize, h448, Nat.lt_trans h448, Nat.add_assoc]
    · by_cases h576 : i < 576
      · right
        have hdm := Nat.div_add_mod' (i - 448) 32
        refine ⟨(i - 448) / 32, by omega, (i - 448) % 32, Nat.mod_lt _ (by decide), ?_⟩
        rw [hdm]
        simp [byteAddr, TokenBytes.byte, tokenDataSize, h448, h576, Nat.add_assoc, Nat.add_sub_cancel' (Nat.le_of_not_lt h448)]
      · by_cases h583 : i < 583
        · left; left
          refine ⟨i - 576, by omega, ?_⟩
          rw [if_pos (show (i - 576) * 64 < 448 by omega)]
          apply List.mem_append_right
          simp [byteAddr, TokenBytes.byte, tokenDataSize, h448, h576, h583, Nat.add_assoc]
        · left; right
          obtain rfl : i = 583 := by omega
          simp [byteAddr, TokenBytes.byte, tokenDataSize, Nat.add_assoc]

theorem byteAddr_inj {slot slot' i i' : Nat} (hi : i < 584) (hi' : i' < 584) (h : byteAddr c slot i = byteAddr c slot' i') :
    slot = slot' ∧ i = i' := by
  have hfits := c.fits
  have hpos := Nat.mod_lt slot c.blockSize_pos
  have hpos' := Nat.mod_lt slot' c.blockSize_pos
  unfold byteAddr at h
  unfold tokenDataSize tokenScaleDim at h hfits
  have hin : ∀ p k, p < c.blockSize → k < 584 →
      (if k < 448 + 64 * 2 then p * (448 + 64 * 2) + k else c.blockSize * (448 + 64 * 2) + p * 8 + (k - (448 + 64 * 2))) < c.stride := by
    intro p k hp hk
    split_ifs <;> omega
  have hb := block_div (hin _ _ hpos hi) (i := slot / c.blockSize)
  have hb' := block_div (hin _ _ hpos' hi') (i := slot' / c.blockSize)
  have hdiv : slot / c.blockSize = slot' / c.blockSize := by rw [← hb, h, hb']
  rw [hdiv] at h
  have hoff := Nat.add_left_cancel h
  have hmod : slot % c.blockSize = slot' % c.blockSize ∧ i = i' := by
    split_ifs at hoff <;> omega
  refine ⟨?_, hmod.2⟩
  rw [← Nat.div_add_mod slot c.blockSize, ← Nat.div_add_mod slot' c.blockSize, hdiv, hmod.1]

variable {slots : Nat → Option Nat} {k : Nat → TokenBytes B} {n : Nat}

/-- The slots of the first `n` tokens lie in the cache, and no two tokens share one. -/
structure SlotsOk (slots : Nat → Option Nat) (n : Nat) : Prop where
  lt : ∀ pid < n, ∀ slot, slots pid = some slot → slot < c.numBlocks * c.blockSize
  inj : ∀ pid < n, ∀ pid' < n, ∀ slot, slots pid = some slot → slots pid' = some slot → pid = pid'

/-- Every program of a launch runs once, in some order. -/
def InOrder {α : Type} (order : Nat → List α) (programs : List α) : Prop := ∀ start, (order start).Perm programs

/-- The stores of a launch, or of the launches for all windows. -/
def insertList (windowed : Bool) (order : Nat → List Nat) (slots : Nat → Option Nat) (k : Nat → TokenBytes B) : List (Nat × B) :=
  if windowed then
    (windowStarts c.numBlocks c.stride).flatMap fun start => (order start).flatMap (insertWindowProgram c slots k start)
  else (order 0).flatMap (insertProgram c slots k)

theorem quantizeAndInsertKCache_eq (windowed : Bool) (order : Nat → List Nat) (cache : Nat → B) :
    quantizeAndInsertKCache c windowed order slots k cache = scatter cache (insertList c windowed order slots k) := by
  unfold quantizeAndInsertKCache insertList
  cases windowed <;> rfl

theorem mem_insertProgram (pid : Nat) (w : Nat × B) :
    w ∈ insertProgram c slots k pid ↔ ∃ slot, slots pid = some slot ∧ ∃ i < 584, w = (byteAddr c slot i, (k pid).byte i) := by
  unfold insertProgram
  cases hs : slots pid with
  | none => simp
  | some slot => simp [mem_insertStores]

theorem mem_insertWindowProgram (start pid : Nat) (w : Nat × B) :
    w ∈ insertWindowProgram c slots k start pid ↔ ∃ slot, slots pid = some slot ∧
      (start ≤ slot / c.blockSize ∧ slot / c.blockSize < start + windowBlocks c.stride) ∧
      ∃ i < 584, w = (byteAddr c slot i, (k pid).byte i) := by
  unfold insertWindowProgram
  cases hs : slots pid with
  | none => simp
  | some slot =>
    by_cases hin : start ≤ slot / c.blockSize ∧ slot / c.blockSize < start + windowBlocks c.stride
    · have hout : ¬ (slot / c.blockSize < start ∨ start + windowBlocks c.stride ≤ slot / c.blockSize) := by omega
      have hbase : start * c.stride + (slot / c.blockSize - start) * c.stride = slot / c.blockSize * c.stride := by
        rw [← Nat.add_mul, Nat.add_sub_cancel' hin.1]
      simp only [hout, if_false, hbase, mem_insertStores, Option.some.injEq, exists_eq_left', hin, and_self, true_and]
    · have hout : slot / c.blockSize < start ∨ start + windowBlocks c.stride ≤ slot / c.blockSize := by omega
      simp only [hout, if_true, List.not_mem_nil, Option.some.injEq, exists_eq_left', hin, false_and]

theorem mem_insertList (hslots : SlotsOk c slots n) {windowed : Bool} {order : Nat → List Nat}
    (horder : InOrder order (List.range n)) (w : Nat × B) :
    w ∈ insertList c windowed order slots k ↔
      ∃ pid < n, ∃ slot, slots pid = some slot ∧ ∃ i < 584, w = (byteAddr c slot i, (k pid).byte i) := by
  have hmem : ∀ start pid, pid ∈ order start ↔ pid < n := fun start pid => by
    rw [(horder start).mem_iff, List.mem_range]
  unfold insertList
  cases windowed with
  | false =>
    simp only [Bool.false_eq_true, if_false, List.mem_flatMap, hmem, mem_insertProgram]
  | true =>
    simp only [if_true, List.mem_flatMap, hmem, mem_insertWindowProgram]
    constructor
    · rintro ⟨start, _, pid, hpid, slot, hslot, _, h⟩
      exact ⟨pid, hpid, slot, hslot, h⟩
    · rintro ⟨pid, hpid, slot, hslot, h⟩
      have hblock : slot / c.blockSize < c.numBlocks := Nat.div_lt_of_lt_mul (Nat.mul_comm _ _ ▸ hslots.lt pid hpid slot hslot)
      obtain ⟨hmem, hin⟩ := (mem_window c.stride hblock).mpr rfl
      exact ⟨_, hmem, pid, hpid, slot, hslot, hin, h⟩

/-- The bytes of the inserted tokens, and every other byte as it was. -/
theorem insert_spec (hslots : SlotsOk c slots n) (windowed : Bool) {order : Nat → List Nat}
    (horder : InOrder order (List.range n)) (cache : Nat → B) :
    (∀ pid < n, ∀ slot, slots pid = some slot → ∀ i < 584,
      quantizeAndInsertKCache c windowed order slots k cache (byteAddr c slot i) = (k pid).byte i) ∧
    ∀ a, (∀ pid < n, ∀ slot, slots pid = some slot → ∀ i < 584, a ≠ byteAddr c slot i) →
      quantizeAndInsertKCache c windowed order slots k cache a = cache a := by
  rw [quantizeAndInsertKCache_eq]
  constructor
  · intro pid hpid slot hslot i hi
    apply scatter_eq_of_agree
    · intro w hw he
      obtain ⟨pid', hpid', slot', hslot', i', hi', rfl⟩ := (mem_insertList c hslots horder w).mp hw
      obtain ⟨rfl, rfl⟩ := byteAddr_inj c hi' hi he
      rw [hslots.inj pid' hpid' pid hpid slot' hslot' hslot]
    · exact .inr ⟨_, (mem_insertList c hslots horder _).mpr ⟨pid, hpid, slot, hslot, i, hi, rfl⟩, rfl⟩
  · intro a ha
    apply scatter_of_not_mem
    intro hmem
    obtain ⟨w, hw, rfl⟩ := List.mem_map.mp hmem
    obtain ⟨pid, hpid, slot, hslot, i, hi, rfl⟩ := (mem_insertList c hslots horder w).mp hw
    exact ha pid hpid slot hslot i hi rfl

end

/-! ## The gather -/

section
variable {B Y : Type} (c : KCache) (deq join : B → B → Y)

/-- int32 arithmetic wraps around. -/
def int32 (z : Int) : Int := Int.bmod z (2 ^ 32)

/-- `dequantize_and_gather_k_cache`: the requests with their block tables, and the rows they go to. -/
structure GatherArgs where
  numReqs : Nat
  seqLens : Nat → Nat
  gatherLens : Option (Nat → Nat)
  blockTable : Nat → Nat → Nat
  offset : Nat

namespace GatherArgs
variable (g : GatherArgs)

def gatherLen (r : Nat) : Nat :=
  match g.gatherLens with
  | none => g.seqLens r
  | some lens => lens r

def pos (r i : Nat) : Nat := g.seqLens r - g.gatherLen r + i

def block (r i : Nat) : Nat := g.blockTable r (g.pos r i / c.blockSize)

/-- The slot of a row. -/
def slot (r i : Nat) : Nat := g.block c r i * c.blockSize + g.pos r i % c.blockSize

/-- The programs of a launch: one for each request and worker. -/
def programs : List (Nat × Nat) := (List.range g.numReqs).flatMap fun r => (List.range 128).map fun worker => (r, worker)

end GatherArgs

/-- The stores for one row, of a token of a block at `base`. -/
def rowStores (cache : Nat → B) (base pos : Nat) (r row : Nat) : List ((Nat × Nat × Nat) × Y) :=
  let data := base + pos * tokenDataSize
  let scale := base + c.blockSize * tokenDataSize + pos * tokenScaleDim
  ((List.range 7).flatMap fun b =>
    if b * 64 < 448 then
      ((List.range 64).filter fun j => b * 64 + j < 448).map fun j =>
        ((r, row, b * 64 + j), deq (cache (data + (b * 64 + j))) (cache (scale + b)))
    else []) ++
  (List.range (64 / 16)).flatMap fun i => (List.range 16).map fun j =>
    ((r, row, 448 + (i * 16 + j)), join (cache (data + 448 + 2 * (i * 16 + j))) (cache (data + 448 + 2 * (i * 16 + j) + 1)))

variable (g : GatherArgs)

/-- `_dequantize_and_gather_k_kernel`, one worker of one request -/
def gatherProgram (cache : Nat → B) (p : Nat × Nat) : List ((Nat × Nat × Nat) × Y) :=
  (strided p.2 (g.gatherLen p.1) 128).flatMap fun i =>
    rowStores c deq join cache (g.block c p.1 i * c.stride) (g.pos p.1 i % c.blockSize) p.1 (g.offset + i)

/-- `_dequantize_and_gather_k_window_kernel`, whose offset into the view is an int32 -/
def gatherWindowProgram (cache : Nat → B) (start : Nat) (p : Nat × Nat) : List ((Nat × Nat × Nat) × Y) :=
  (strided p.2 (g.gatherLen p.1) 128).flatMap fun i =>
    let block := g.block c p.1 i
    if start ≤ block ∧ block < start + windowBlocks c.stride then
      let base := (start * c.stride : Nat) + int32 (((block - start) * c.stride : Nat) : Int)
      rowStores c deq join cache base.toNat (g.pos p.1 i % c.blockSize) p.1 (g.offset + i)
    else []

def gatherList (windowed : Bool) (order : Nat → List (Nat × Nat)) (cache : Nat → B) : List ((Nat × Nat × Nat) × Y) :=
  if windowed then
    (windowStarts c.numBlocks c.stride).flatMap fun start => (order start).flatMap (gatherWindowProgram c deq join g cache start)
  else (order 0).flatMap (gatherProgram c deq join g cache)

/-- `dequantize_and_gather_k_cache`, into rows told by request, row and element -/
def dequantizeAndGatherKCache (windowed : Bool) (order : Nat → List (Nat × Nat)) (cache : Nat → B)
    (out : Nat × Nat × Nat → Y) : Nat × Nat × Nat → Y :=
  scatter out (gatherList c deq join g windowed order cache)

/-- Element `j` of a row, from the bytes of its token. -/
def element (byte : Nat → B) (j : Nat) : Y :=
  if j < 448 then deq (byte j) (byte (576 + j / 64)) else join (byte (448 + 2 * (j - 448))) (byte (448 + 2 * (j - 448) + 1))

theorem element_congr {x y : Nat → B} (h : ∀ i < 584, x i = y i) {j : Nat} (hj : j < 512) :
    element deq join x j = element deq join y j := by
  unfold element
  by_cases h448 : j < 448
  · rw [if_pos h448, if_pos h448, h j (by omega), h (576 + j / 64) (by omega)]
  · rw [if_neg h448, if_neg h448, h (448 + 2 * (j - 448)) (by omega), h (448 + 2 * (j - 448) + 1) (by omega)]

theorem mem_rowStores (cache : Nat → B) {block pos : Nat} (hpos : pos < c.blockSize) (r row : Nat) (w : (Nat × Nat × Nat) × Y) :
    w ∈ rowStores c deq join cache (block * c.stride) pos r row ↔ ∃ j < 512,
      w = ((r, row, j), element deq join (fun i => cache (byteAddr c (block * c.blockSize + pos) i)) j) := by
  have hdiv := block_div hpos (i := block)
  have hmod := block_mod hpos (i := block)
  unfold rowStores
  simp only [List.mem_append, List.mem_flatMap, List.mem_range, List.mem_map]
  constructor
  · rintro (⟨b, hb, h⟩ | ⟨i, hi, j, hj, rfl⟩)
    · by_cases hlt : b * 64 < 448
      · rw [if_pos hlt] at h
        obtain ⟨j, hj, rfl⟩ := List.mem_map.mp h
        obtain ⟨hj64, hj⟩ := List.mem_filter.mp hj
        have hj := of_decide_eq_true hj
        have hq : (b * 64 + j) / 64 = b := block_div (List.mem_range.mp hj64)
        exact ⟨b * 64 + j, by omega, by
          simp [element, byteAddr, tokenDataSize, hdiv, hmod, hq, hj, Nat.lt_trans hj, Nat.add_assoc]⟩
      · rw [if_neg hlt] at h
        cases h
    · refine ⟨448 + (i * 16 + j), by omega, ?_⟩
      simp [element, byteAddr, tokenDataSize, hdiv, hmod, Nat.add_assoc, show 448 + 2 * (i * 16 + j) < 576 by omega,
        show 448 + (2 * (i * 16 + j) + 1) < 576 by omega]
  · rintro ⟨j, hj, rfl⟩
    by_cases h448 : j < 448
    · left
      have hdm := Nat.div_add_mod' j 64
      refine ⟨j / 64, by omega, ?_⟩
      rw [if_pos (show j / 64 * 64 < 448 by omega)]
      refine List.mem_map.mpr ⟨j % 64, List.mem_filter.mpr ⟨List.mem_range.mpr (Nat.mod_lt j (by decide)), ?_⟩, ?_⟩
      · rw [hdm]
        exact decide_eq_true h448
      · rw [hdm]
        simp [element, byteAddr, tokenDataSize, hdiv, hmod, h448, Nat.lt_trans h448, Nat.add_assoc]
    · right
      have hdm := Nat.div_add_mod' (j - 448) 16
      refine ⟨(j - 448) / 16, by omega, (j - 448) % 16, Nat.mod_lt _ (by decide), ?_⟩
      rw [hdm]
      simp [element, byteAddr, tokenDataSize, hdiv, hmod, h448, Nat.add_assoc, Nat.add_sub_cancel' (Nat.le_of_not_lt h448),
        show 448 + 2 * (j - 448) < 576 by omega, show 448 + (2 * (j - 448) + 1) < 576 by omega]

/-- In a window the offset does not wrap. -/
theorem window_base {start block : Nat} (hlo : start ≤ block) (hhi : block < start + windowBlocks c.stride) :
    (((start * c.stride : Nat) : Int) + int32 (((block - start) * c.stride : Nat) : Int)).toNat = block * c.stride := by
  have hle := window_offset_le c.stride (show block - start < windowBlocks c.stride by omega)
  have hw : int32 (((block - start) * c.stride : Nat) : Int) = (((block - start) * c.stride : Nat) : Int) := by
    unfold int32
    apply Int.bmod_eq_of_le <;> omega
  rw [hw, ← Int.natCast_add, Int.toNat_natCast, ← Nat.add_mul, Nat.add_sub_cancel' hlo]

theorem mem_gatherList {g : GatherArgs} (hblocks : ∀ r < g.numReqs, ∀ i < g.gatherLen r, g.block c r i < c.numBlocks) {windowed : Bool}
    {order : Nat → List (Nat × Nat)} (horder : InOrder order g.programs) (cache : Nat → B) (w : (Nat × Nat × Nat) × Y) :
    w ∈ gatherList c deq join g windowed order cache ↔ ∃ r < g.numReqs, ∃ i < g.gatherLen r, ∃ j < 512,
      w = ((r, g.offset + i, j), element deq join (fun b => cache (byteAddr c (g.slot c r i) b)) j) := by
  have hmem : ∀ start r worker, (r, worker) ∈ order start ↔ r < g.numReqs ∧ worker < 128 := by
    intro start r worker
    rw [(horder start).mem_iff]
    simp [GatherArgs.programs]
  have hmod : ∀ r i, g.pos r i % c.blockSize < c.blockSize := fun r i => Nat.mod_lt _ c.blockSize_pos
  have hworker : ∀ {r i : Nat}, i < g.gatherLen r → ∃ worker < 128, i ∈ strided worker (g.gatherLen r) 128 := by
    intro r i hi
    have h : ∃ worker < 128, i ∈ strided (0 + worker) (g.gatherLen r) 128 := (exists_worker (by decide)).mpr ⟨Nat.zero_le i, hi⟩
    simpa only [Nat.zero_add] using h
  have hlt : ∀ {r worker i : Nat}, i ∈ strided worker (g.gatherLen r) 128 → i < g.gatherLen r := by
    intro r worker i hi
    obtain ⟨_, _, h⟩ := (mem_strided (by decide)).mp hi
    exact h
  unfold gatherList
  cases windowed with
  | false =>
    simp only [Bool.false_eq_true, if_false, List.mem_flatMap, Prod.exists, hmem, gatherProgram]
    constructor
    · rintro ⟨r, worker, ⟨hr, _⟩, i, hi, h⟩
      obtain ⟨j, hj, rfl⟩ := (mem_rowStores c deq join cache (hmod r i) _ _ _).mp h
      exact ⟨r, hr, i, hlt hi, j, hj, rfl⟩
    · rintro ⟨r, hr, i, hi, j, hj, rfl⟩
      obtain ⟨worker, hw, hiw⟩ := hworker hi
      exact ⟨r, worker, ⟨hr, hw⟩, i, hiw, (mem_rowStores c deq join cache (hmod r i) _ _ _).mpr ⟨j, hj, rfl⟩⟩
  | true =>
    simp only [if_true, List.mem_flatMap, Prod.exists, hmem, gatherWindowProgram]
    constructor
    · rintro ⟨start, _, r, worker, ⟨hr, _⟩, i, hi, h⟩
      by_cases hin : start ≤ g.block c r i ∧ g.block c r i < start + windowBlocks c.stride
      · rw [if_pos hin, window_base c hin.1 hin.2] at h
        obtain ⟨j, hj, rfl⟩ := (mem_rowStores c deq join cache (hmod r i) _ _ _).mp h
        exact ⟨r, hr, i, hlt hi, j, hj, rfl⟩
      · rw [if_neg hin] at h
        cases h
    · rintro ⟨r, hr, i, hi, j, hj, rfl⟩
      obtain ⟨worker, hw, hiw⟩ := hworker hi
      obtain ⟨hstart, hin⟩ := (mem_window c.stride (hblocks r hr i hi)).mpr rfl
      refine ⟨_, hstart, r, worker, ⟨hr, hw⟩, i, hiw, ?_⟩
      rw [if_pos hin, window_base c hin.1 hin.2]
      exact (mem_rowStores c deq join cache (hmod r i) _ _ _).mpr ⟨j, hj, rfl⟩

/-- Each gathered row holds the elements of the token in its slot, and the other rows stay. -/
theorem gather_spec {g : GatherArgs} (hblocks : ∀ r < g.numReqs, ∀ i < g.gatherLen r, g.block c r i < c.numBlocks) (windowed : Bool)
    {order : Nat → List (Nat × Nat)} (horder : InOrder order g.programs) (cache : Nat → B) (out : Nat × Nat × Nat → Y) :
    (∀ r < g.numReqs, ∀ i < g.gatherLen r, ∀ j < 512, dequantizeAndGatherKCache c deq join g windowed order cache out (r, g.offset + i, j) =
      element deq join (fun b => cache (byteAddr c (g.slot c r i) b)) j) ∧
    ∀ key, (∀ r < g.numReqs, ∀ i < g.gatherLen r, ∀ j < 512, key ≠ (r, g.offset + i, j)) →
      dequantizeAndGatherKCache c deq join g windowed order cache out key = out key := by
  unfold dequantizeAndGatherKCache
  constructor
  · intro r hr i hi j hj
    apply scatter_eq_of_agree
    · intro w hw he
      obtain ⟨r', _, i', _, j', _, rfl⟩ := (mem_gatherList c deq join hblocks horder cache w).mp hw
      simp only [Prod.mk.injEq, Nat.add_right_inj] at he
      obtain ⟨rfl, rfl, rfl⟩ := he
      rfl
    · exact .inr ⟨_, (mem_gatherList c deq join hblocks horder cache _).mpr ⟨r, hr, i, hi, j, hj, rfl⟩, rfl⟩
  · intro key hkey
    apply scatter_of_not_mem
    intro hmem
    obtain ⟨w, hw, rfl⟩ := List.mem_map.mp hmem
    obtain ⟨r, hr, i, hi, j, hj, rfl⟩ := (mem_gatherList c deq join hblocks horder cache w).mp hw
    exact hkey r hr i hi j hj rfl

end

/-! ## Round trip -/

section
variable {B Y : Type} [Zero B] (c : KCache) (deq join : B → B → Y) {slots : Nat → Option Nat} {k : Nat → TokenBytes B} {n : Nat}

/-- Element `j` of a quantised row. -/
def TokenBytes.element (q : TokenBytes B) (j : Nat) : Y :=
  if j < 448 then deq (q.fp8 j) (q.scale (j / 64)) else join (q.bf16 (2 * (j - 448))) (q.bf16 (2 * (j - 448) + 1))

theorem element_byte (q : TokenBytes B) {j : Nat} (hj : j < 512) : element deq join q.byte j = q.element deq join j := by
  unfold element TokenBytes.element TokenBytes.byte
  by_cases h : j < 448
  · simp [h, show ¬ 576 + j / 64 < 448 by omega, show 576 + j / 64 < 583 by omega]
  · simp [h, show 448 + 2 * (j - 448) < 576 by omega, show 448 + (2 * (j - 448) + 1) < 576 by omega, Nat.add_assoc]

/-- Windowed or not, the launches leave the same bytes and rows as the plain ones, in whatever order their programs run.
A row gathered from a slot that was written is the row written there, any other row is what the cache held before. -/
theorem cache_round_trip {g : GatherArgs} (hslots : SlotsOk c slots n)
    (hblocks : ∀ r < g.numReqs, ∀ i < g.gatherLen r, g.block c r i < c.numBlocks) {order : Nat → List Nat}
    (horder : InOrder order (List.range n)) {gatherOrder : Nat → List (Nat × Nat)} (hgather : InOrder gatherOrder g.programs)
    (useCustomOps enabled : Bool) (cache : Nat → B) (out : Nat × Nat × Nat → Y) :
    let windowed := enableCacheWindow useCustomOps enabled c.numBlocks
    let cache' := quantizeAndInsertKCache c windowed order slots k cache
    let out' := dequantizeAndGatherKCache c deq join g windowed gatherOrder cache' out
    cache' = quantizeAndInsertKCache c false (fun _ => List.range n) slots k cache ∧
    out' = dequantizeAndGatherKCache c deq join g false (fun _ => g.programs) cache' out ∧
    (∀ r < g.numReqs, ∀ i < g.gatherLen r, ∀ j < 512,
      (∀ pid < n, slots pid = some (g.slot c r i) → out' (r, g.offset + i, j) = (k pid).element deq join j) ∧
      ((∀ pid < n, slots pid ≠ some (g.slot c r i)) →
        out' (r, g.offset + i, j) = element deq join (fun b => cache (byteAddr c (g.slot c r i) b)) j)) ∧
    ∀ key, (∀ r < g.numReqs, ∀ i < g.gatherLen r, ∀ j < 512, key ≠ (r, g.offset + i, j)) → out' key = out key := by
  intro windowed cache' out'
  obtain ⟨hin, hout⟩ := insert_spec (k := k) c hslots windowed horder cache
  obtain ⟨hrows, hother⟩ := gather_spec c deq join hblocks windowed hgather cache' out
  refine ⟨?_, ?_, fun r hr i hi j hj => ⟨fun pid hpid hslot => ?_, fun hno => ?_⟩, hother⟩
  · funext a
    obtain ⟨hin', hout'⟩ := insert_spec (k := k) c hslots false (fun _ => .refl (List.range n)) cache
    by_cases ha : ∃ pid < n, ∃ slot, slots pid = some slot ∧ ∃ i < 584, a = byteAddr c slot i
    · obtain ⟨pid, hpid, slot, hslot, i, hi, rfl⟩ := ha
      exact (hin pid hpid slot hslot i hi).trans (hin' pid hpid slot hslot i hi).symm
    · have hne : ∀ pid < n, ∀ slot, slots pid = some slot → ∀ i < 584, a ≠ byteAddr c slot i :=
        fun pid hpid slot hslot i hi he => ha ⟨pid, hpid, slot, hslot, i, hi, he⟩
      exact (hout a hne).trans (hout' a hne).symm
  · funext key
    obtain ⟨hrows', hother'⟩ := gather_spec c deq join hblocks false (fun _ => .refl g.programs) cache' out
    by_cases hkey : ∃ r < g.numReqs, ∃ i < g.gatherLen r, ∃ j < 512, key = (r, g.offset + i, j)
    · obtain ⟨r, hr, i, hi, j, hj, rfl⟩ := hkey
      exact (hrows r hr i hi j hj).trans (hrows' r hr i hi j hj).symm
    · have hne : ∀ r < g.numReqs, ∀ i < g.gatherLen r, ∀ j < 512, key ≠ (r, g.offset + i, j) :=
        fun r hr i hi j hj he => hkey ⟨r, hr, i, hi, j, hj, he⟩
      exact (hother key hne).trans (hother' key hne).symm
  · rw [← element_byte deq join (k pid) hj]
    exact (hrows r hr i hi j hj).trans (element_congr deq join (fun b hb => hin pid hpid _ hslot b hb) hj)
  · refine (hrows r hr i hi j hj).trans (element_congr deq join (fun b hb => hout _ ?_) hj)
    intro pid hpid slot hslot i' hi' he
    obtain ⟨rfl, _⟩ := byteAddr_inj c hb hi' he
    exact hno pid hpid hslot

/-- So many blocks that the cache is windowed, 1024 blocks at a time. -/
def manyWindows : KCache where
  numBlocks := 40000
  blockSize := 2
  stride := 2 ^ 20
  blockSize_pos := Nat.two_pos
  fits := by decide

def manyWindowsGather : GatherArgs :=
  { numReqs := 1, seqLens := fun _ => 4, gatherLens := none, blockTable := fun _ b => 39999 - b, offset := 5 }

def manyWindowsSlots : Nat → Option Nat
  | 0 => some 79999
  | 2 => some 0
  | _ => none

def countedTokens (pid : Nat) : TokenBytes Nat where
  fp8 := fun j => 1000 * pid + j
  scale := fun i => i
  bf16 := fun j => 1000 * pid + j

theorem cache_round_trip_small :
    enableCacheWindow true true 40000 = true ∧ windowBlocks (2 ^ 20) = 1024 ∧ ∀ j < 512,
      dequantizeAndGatherKCache manyWindows Prod.mk Prod.mk manyWindowsGather true (fun _ => manyWindowsGather.programs.reverse)
        (quantizeAndInsertKCache manyWindows true (fun _ => [2, 0, 1]) manyWindowsSlots countedTokens fun _ => 0)
        (fun _ => (0, 0)) (0, 6, j) = (countedTokens 0).element Prod.mk Prod.mk j := by
  refine ⟨rfl, rfl, fun j hj => ?_⟩
  have hslots : SlotsOk manyWindows manyWindowsSlots 3 := by
    refine ⟨?_, ?_⟩
    · rintro (_ | _ | _ | pid) h slot hslot <;> cases hslot <;> decide
    · rintro (_ | _ | _ | pid) h (_ | _ | _ | pid') h' slot hslot hslot' <;> first | rfl | (cases hslot <;> cases hslot')
  have horder : InOrder (fun _ => [2, 0, 1]) (List.range 3) := fun _ => show [2, 0, 1].Perm [0, 1, 2] by decide
  have hgather : InOrder (fun _ => manyWindowsGather.programs.reverse) manyWindowsGather.programs := fun _ => List.reverse_perm _
  have hblocks : ∀ r < manyWindowsGather.numReqs, ∀ i < manyWindowsGather.gatherLen r,
      manyWindowsGather.block manyWindows r i < manyWindows.numBlocks := by
    intro r _ i _
    exact Nat.lt_succ_of_le (Nat.sub_le _ _)
  obtain ⟨-, -, hrows, -⟩ := cache_round_trip (k := countedTokens) manyWindows Prod.mk Prod.mk hslots hblocks horder hgather
    true true (fun _ => 0) (fun _ => (0, 0))
  exact (hrows 0 Nat.one_pos 1 (by decide) j hj).1 0 (by decide) rfl

end

end VllmHcu.DeepseekV4
