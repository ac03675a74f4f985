import VllmHcu.Quant.Int4Layout
import VllmHcu.Lib.Loops
import VllmHcu.Lib.RowMajor

/-!
# The INT4 layouts decode to the same values

Every path decodes one signed nibble of the raw weight into each output entry.
The nibble is the same on both PACK5 paths: the seven-axis permutation of the
raw nibbles. The repacked words give each nibble less its offset of eight.
-/

namespace VllmHcu.Quant

open Nibbles

/-! ## One byte -/

theorem nibble_byteToInt32 (t : DType) (b : BitVec 8) {i : Nat} (hi : i < 2) : nibble i (byteToInt32 t b) = nibble i b := by
  apply BitVec.eq_of_getLsbD_eq
  intro j hj
  have h₃₂ : 4 * i + j < 32 := by omega
  have h₈ : 4 * i + j < 8 := by omega
  rw [getLsbD_nibble, getLsbD_nibble]
  unfold byteToInt32
  split
  · rw [BitVec.getLsbD_signExtend, if_pos h₈, decide_eq_true h₃₂, Bool.true_and]
  · rw [BitVec.getLsbD_setWidth, decide_eq_true h₃₂, Bool.true_and]

theorem sign_flip : ∀ v : BitVec 4, ((v.setWidth 32 ^^^ 8#32) - 8#32).setWidth 8 = v.signExtend 8 := by decide

theorem decodeNibble_eq (t : DType) (b : BitVec 8) (even : Bool) :
    decodeNibble t b even = (nibble (if even then 1 else 0) b).signExtend 8 := by
  have hshift : (if even then 4 else 0) = 4 * (if even then 1 else 0) := by cases even <;> rfl
  have hlt : (if even then 1 else 0) < 2 := by cases even <;> decide
  rw [decodeNibble, hshift, sshiftRight_and_fifteen (by omega), nibble_byteToInt32 t b hlt, sign_flip]

/-- Nibble `j` of the raw weight, the high nibble of a byte first. -/
def rawNibble (raw : Bytes) (j : Nat) : BitVec 4 := nibble (if j % 2 = 0 then 1 else 0) (raw.entry (j / 2))

/-! ## The permutation -/

/-- The raw nibble of output `i`: PACK5 permutes the axes of `(E, NB, 16, 16, KB, 4, 16)`. -/
def pack5Pos (e nb kb : Nat) : Nat → Nat := Axes.permutePos [e, nb, 16, 16, kb, 4, 16] pack5Axes

theorem pack5Axes_perm : pack5Axes.Perm (List.range 7) := by decide

theorem inverse_pack5Axes : Axes.inverse pack5Axes = [0, 2, 3, 5, 1, 4, 6] := by decide

theorem pack5Pos_bijOn (e nb kb : Nat) :
    Set.BijOn (pack5Pos e nb kb) (Set.Iio (e * (nb * 256) * (kb * 64))) (Set.Iio (e * (nb * 256) * (kb * 64))) := by
  have hprod : [e, nb, 16, 16, kb, 4, 16].prod = e * (nb * 256) * (kb * 64) := by
    simp only [List.prod_cons, List.prod_nil]
    ring
  have := Axes.permutePos_bijOn (show pack5Axes.Perm (List.range [e, nb, 16, 16, kb, 4, 16].length) from pack5Axes_perm)
  rwa [hprod] at this

/-- The permuted position, `last` entries to the innermost axis. -/
theorem permutePos_pack5 (e nb kb last f : Nat) :
    Axes.permutePos [e, nb, 16, 16, kb, 4, last] pack5Axes f =
      (f / (kb * nb * 1024 * last) % e * (nb * 256) + f / (1024 * last) % nb * 256 + f / (64 * last) % 16 * 16 + f / last % 16) *
          (kb * 4 * last) + f / (nb * 1024 * last) % kb * (4 * last) + f / (16 * last) % 4 * last + f % last := by
  rw [Axes.permutePos, inverse_pack5Axes]
  simp only [pack5Axes, Axes.pick, Axes.unravel, Axes.ravel, List.map_cons, List.map_nil, List.prod_cons, List.prod_nil,
    List.getD_cons_zero, List.getD_cons_succ, Nat.mul_one, Nat.div_one, Nat.add_zero]
  ring_nf

theorem pack5Pos_packed (e nb kb i : Nat) :
    2 * Axes.permutePos [e, nb, 16, 16, kb, 4, 8] pack5Axes (i / 2) + i % 2 = pack5Pos e nb kb i := by
  rw [pack5Pos, permutePos_pack5, permutePos_pack5]
  have hhalf : ∀ d, i / 2 / (d * 8) = i / (d * 16) := by
    intro d
    rw [Nat.div_div_eq_div_mul]
    congr 1
    ring
  have hlast : i / 2 / 8 = i / 16 := by rw [Nat.div_div_eq_div_mul]
  have hlow : 2 * (i / 2 % 8) + i % 2 = i % 16 := by omega
  rw [hhalf, hhalf, hhalf, hhalf, hhalf, hlast, ← hlow]
  ring

theorem pack5Pos_raw {e nb kb i : Nat} (hi : i < e * (nb * 256) * (kb * 64)) :
    2 * rawByte (nb * 256) (kb * 64) i + i % 2 = pack5Pos e nb kb i := by
  have hexpert : i / (kb * nb * 1024 * 16) % e = i / (nb * 256 * (kb * 64)) := by
    have hsize : kb * nb * 1024 * 16 = nb * 256 * (kb * 64) := by ring
    rw [hsize]
    apply Nat.mod_eq_of_lt
    apply Nat.div_lt_of_lt_mul
    rwa [Nat.mul_comm, ← Nat.mul_assoc]
  have hkb : i / (nb * 1024 * 16) = i / (16384 * nb) := by
    congr 1
    ring
  have hlow : i % 16 = 2 * (i % 16 / 2) + i % 2 := by omega
  have hk : kb * 64 / 2 = kb * 32 := by omega
  rw [pack5Pos, permutePos_pack5, hexpert, hkb, hlow, rawByte]
  simp only [Nat.mul_div_cancel nb (show 0 < 256 by omega), Nat.mul_div_cancel kb (show 0 < 64 by omega), hk]
  ring

theorem rawNibble_of_pos (raw : Bytes) {i p byte : Nat} (h : 2 * byte + i % 2 = p) :
    nibble (if i % 2 = 0 then 1 else 0) (raw.entry byte) = rawNibble raw p := by
  have hdiv : p / 2 = byte := by omega
  have hmod : p % 2 = i % 2 := by omega
  rw [rawNibble, hdiv, hmod]

/-! ## The PACK5 paths -/

/-- The arguments that all three functions accept: `(E, NB * 256, KB * 32)` raw bytes on one GPU and an output of their size. -/
structure Pack5Args (raw out : Bytes) (scaleShape : List Nat) (e nb kb : Nat) : Prop where
  sizes : 0 < e ∧ 0 < nb ∧ 0 < kb
  rawShape : raw.shape = [e, nb * 256, kb * 32]
  rawByte : isByte raw.dtype = true
  contiguous : raw.contiguous = true ∧ out.contiguous = true
  outShape : out.shape = [e, nb * 256 * (kb * 32) * 2]
  outByte : out.dtype = .int8
  device : raw.device = out.device ∧ raw.device.isCuda = true
  scale : scaleShape = [e, nb * 256] ∨ scaleShape = [e, nb * 256, 1]

section
variable {raw out : Bytes} {scaleShape : List Nat} {e nb kb : Nat}

theorem Pack5Args.out_numel (h : Pack5Args raw out scaleShape e nb kb) : out.numel = e * (nb * 256) * (kb * 64) := by
  rw [Tensor.numel, h.outShape, List.prod_cons, List.prod_singleton]
  ring

theorem Pack5Args.raw_size (h : Pack5Args raw out scaleShape e nb kb) :
    raw.size 0 = e ∧ raw.size 1 = nb * 256 ∧ raw.size 2 = kb * 32 ∧ raw.ndim = 3 := by
  simp [Tensor.size, Tensor.ndim, h.rawShape]

theorem Pack5Args.checks (h : Pack5Args raw out scaleShape e nb kb) :
    0 < e ∧ 0 < nb * 256 ∧ 0 < kb * 32 ∧ nb * 256 % 256 = 0 ∧ kb * 32 % 32 = 0 := by
  obtain ⟨he, hn, hk⟩ := h.sizes
  omega

/-- The prepacked weight: the raw bytes, their axes permuted. -/
def prepacked (raw : Bytes) (e nb kb : Nat) : Bytes :=
  { shape := [e, nb * 256 * (kb * 32)], dtype := raw.dtype, contiguous := true, device := raw.device,
    entry := fun i => raw.entry (Axes.permutePos [e, nb, 16, 16, kb, 4, 8] pack5Axes i) }

theorem pack_returns (h : Pack5Args raw out scaleShape e nb kb) :
    pack raw scaleShape raw.device true = .ok (.normalInt4 (prepacked raw e nb kb)) := by
  obtain ⟨h₀, h₁, h₂, hdim⟩ := h.raw_size
  have hn : nb * 256 / 256 = nb := Nat.mul_div_cancel nb (by omega)
  have hk : kb * 32 / 32 = kb := Nat.mul_div_cancel kb (by omega)
  simp only [pack, h₀, h₁, h₂, hdim, bind_eq_ok, ensure_eq_ok, hn, hk]
  exact ⟨(), ⟨trivial, h.rawByte⟩, (), h.checks, (), ⟨h.scale, trivial⟩, rfl⟩

theorem unpack_prepacked (h : Pack5Args raw out scaleShape e nb kb) (block : Nat) :
    unpackSignedInt4Out (prepacked raw e nb kb) out block =
      .ok (unpackSignedInt4 (prepacked raw e nb kb) out.numel block out.entry) := by
  have hsize : out.numel = 2 * (prepacked raw e nb kb).toTensor.numel := by
    rw [h.out_numel, Tensor.numel, prepacked, List.prod_cons, List.prod_singleton]
    ring
  simp only [unpackSignedInt4Out, bind_eq_ok, ensure_eq_ok]
  exact ⟨(), ⟨h.rawByte, h.outByte⟩, (), ⟨rfl, h.contiguous.2⟩, (), h.device, (), hsize, rfl⟩

theorem unpack_raw (h : Pack5Args raw out scaleShape e nb kb) (block : Nat) :
    unpackRawInt4Pack5Out raw out block =
      .ok (unpackRawInt4Pack5 raw out.numel (nb * 256) (kb * 64) block out.entry) := by
  obtain ⟨h₀, h₁, h₂, hdim⟩ := h.raw_size
  have hk : kb * 32 * 2 = kb * 64 := by omega
  simp only [unpackRawInt4Pack5Out, h₀, h₁, h₂, hdim, bind_eq_ok, ensure_eq_ok, hk]
  exact ⟨(), ⟨trivial, h.rawByte⟩, (), h.checks, (), ⟨h.outShape, h.outByte⟩, (), h.contiguous, (), h.device, rfl⟩

theorem prepacked_entry (h : Pack5Args raw out scaleShape e nb kb) {block : Nat} (hb : 0 < block) {i : Nat}
    (hi : i < e * (nb * 256) * (kb * 64)) :
    unpackSignedInt4 (prepacked raw e nb kb) out.numel block out.entry i =
      (rawNibble raw (pack5Pos e nb kb i)).signExtend 8 := by
  rw [unpackSignedInt4, launch_apply hb _ _ (by rwa [h.out_numel]), decodeNibble_eq,
    ← rawNibble_of_pos raw (pack5Pos_packed e nb kb i)]
  simp only [prepacked, decide_eq_true_eq]

theorem raw_entry (h : Pack5Args raw out scaleShape e nb kb) {block : Nat} (hb : 0 < block) {i : Nat}
    (hi : i < e * (nb * 256) * (kb * 64)) :
    unpackRawInt4Pack5 raw out.numel (nb * 256) (kb * 64) block out.entry i =
      (rawNibble raw (pack5Pos e nb kb i)).signExtend 8 := by
  have hpar : i % 16 % 2 = i % 2 := by omega
  rw [unpackRawInt4Pack5, launch_apply hb _ _ (by rwa [h.out_numel]), decodeNibble_eq,
    ← rawNibble_of_pos raw (pack5Pos_raw hi)]
  simp only [hpar, decide_eq_true_eq]

end

/-! ## The repacked words -/

/-- Every byte of the result once, with what is stored there. -/
def byteGrid (words : Nat → Nat → Nat → BitVec 32) (experts rows columns : Nat) : List ((Nat × Nat × Nat) × BitVec 8) :=
  (List.range experts).flatMap fun e => (List.range rows).flatMap fun r =>
    (List.range (columns * 4)).map fun b => ((e, r, b), repackByte (words e r (b / 4)) (b % 4))

section
variable (words : Nat → Nat → Nat → BitVec 32)

/-- What is stored for byte `byte` of one word. -/
def store (e r c byte : Nat) : (Nat × Nat × Nat) × BitVec 8 := ((e, r, c * 4 + byte), repackByte (words e r c) byte)

theorem blockStores_perm (e row stopRow column stopColumn : Nat) :
    (blockStores words e row stopRow column stopColumn).Perm
      ((List.range' row (stopRow - row)).flatMap fun r => (List.range' column (stopColumn - column)).flatMap fun c =>
        (List.range 4).map (store words e r c)) := by
  have hblock : blockStores words e row stopRow column stopColumn =
      (List.range 4).flatMap fun byte => (List.range' row (stopRow - row)).flatMap fun r =>
        (List.range' column (stopColumn - column)).flatMap fun c => [store words e r c byte] := by
    simp only [blockStores, store, List.range'_eq_map_range, List.flatMap_map]
    refine List.flatMap_congr fun byte _ => List.flatMap_congr fun r _ => ?_
    rw [← List.flatMap_pure_eq_map]
    refine List.flatMap_congr fun c _ => ?_
    have : column * 4 + (c * 4 + byte) = (column + c) * 4 + byte := by omega
    simp only [Function.comp_apply, this]
    rfl
  rw [hblock]
  refine (flatMap_comm_perm _ _ _).trans (List.Perm.flatMap_left _ fun r _ => ?_)
  refine (flatMap_comm_perm _ _ _).trans (List.Perm.flatMap_left _ fun c _ => ?_)
  exact List.Perm.of_eq (List.flatMap_pure_eq_map _ _)

theorem word_bytes (e r columns : Nat) :
    ((List.range columns).flatMap fun c => (List.range 4).map (store words e r c)) =
      (List.range (columns * 4)).map fun b => ((e, r, b), repackByte (words e r (b / 4)) (b % 4)) := by
  have hcols : List.range (columns * 4) = (List.range columns).flatMap fun c => (List.range 4).map (c * 4 + ·) := by
    rw [List.range_eq_range', ← flatMap_range']
    simp only [Nat.zero_add, List.range'_eq_map_range]
  rw [hcols, List.map_flatMap]
  refine List.flatMap_congr fun c _ => ?_
  rw [List.map_map]
  apply List.map_congr_left
  intro byte hbyte
  have hlt := List.mem_range.mp hbyte
  simp only [store, Function.comp_apply, block_div hlt, block_mod hlt]

/-- The tiles, whatever their sizes, store every byte once. -/
theorem repackStores_perm (experts rows columns : Nat) {maxWords : Nat} (hc : 0 < columns) (hm : 0 < maxWords) :
    (repackStores words experts rows columns maxWords).Perm (byteGrid words experts rows columns) := by
  have hcolumn : 0 < min columns maxWords := by omega
  have hrow : 0 < max 1 (maxWords / min columns maxWords) := by omega
  refine List.Perm.flatMap_left _ fun e _ => ?_
  rw [← flatMap_strided_min rows hrow, List.flatMap_assoc]
  refine List.Perm.flatMap_left _ fun row _ => ?_
  refine (List.Perm.flatMap_left _ fun column _ => blockStores_perm words e row _ column _).trans ?_
  refine (flatMap_comm_perm _ _ _).trans (List.Perm.flatMap_left _ fun r _ => List.Perm.of_eq ?_)
  rw [← word_bytes, ← List.flatMap_assoc, flatMap_strided_min columns hcolumn]

theorem byteGrid_keys (experts rows columns : Nat) :
    (byteGrid words experts rows columns).map Prod.fst =
      (List.range experts).flatMap fun e => (List.range rows).flatMap fun r => (List.range (columns * 4)).map fun b => (e, r, b) := by
  simp only [byteGrid, List.map_flatMap, List.map_map]
  rfl

theorem byteGrid_keys_nodup (experts rows columns : Nat) : ((byteGrid words experts rows columns).map Prod.fst).Nodup := by
  rw [byteGrid_keys]
  refine List.nodup_flatMap.mpr ⟨fun e _ => List.nodup_flatMap.mpr ⟨fun r _ => ?_, ?_⟩, ?_⟩
  · exact List.nodup_range.map fun b b' h => by simpa using h
  · refine List.nodup_range.pairwise_of_forall_ne fun r _ r' _ hne => ?_
    intro key hkey hkey'
    obtain ⟨b, -, rfl⟩ := List.mem_map.mp hkey
    obtain ⟨b', -, he⟩ := List.mem_map.mp hkey'
    simp only [Prod.mk.injEq] at he
    exact hne he.2.1.symm
  · refine List.nodup_range.pairwise_of_forall_ne fun e _ e' _ hne => ?_
    intro key hkey hkey'
    obtain ⟨r, -, hr⟩ := List.mem_flatMap.mp hkey
    obtain ⟨r', -, hr'⟩ := List.mem_flatMap.mp hkey'
    obtain ⟨b, -, rfl⟩ := List.mem_map.mp hr
    obtain ⟨b', -, he⟩ := List.mem_map.mp hr'
    exact hne (Prod.mk.inj he).1.symm

variable {words} {experts rows columns : Nat} {e r b : Nat} (he : e < experts) (hr : r < rows) (hb : b < columns * 4)
include he hr hb

theorem mem_byteGrid : ((e, r, b), repackByte (words e r (b / 4)) (b % 4)) ∈ byteGrid words experts rows columns := by
  refine List.mem_flatMap.mpr ⟨e, List.mem_range.mpr he, List.mem_flatMap.mpr ⟨r, List.mem_range.mpr hr, ?_⟩⟩
  exact List.mem_map.mpr ⟨b, List.mem_range.mpr hb, rfl⟩

theorem repackStores_count {maxWords : Nat} (hm : 0 < maxWords) :
    ((repackStores words experts rows columns maxWords).map Prod.fst).count (e, r, b) = 1 := by
  have hperm := (repackStores_perm words experts rows columns (by omega) hm).map Prod.fst
  have hmem : (e, r, b) ∈ (byteGrid words experts rows columns).map Prod.fst := List.mem_map.mpr ⟨_, mem_byteGrid he hr hb, rfl⟩
  rw [hperm.count_eq]
  exact List.count_eq_one_of_mem (byteGrid_keys_nodup words experts rows columns) hmem

theorem repackStores_read {maxWords : Nat} (hm : 0 < maxWords) (empty : Nat × Nat × Nat → BitVec 8) :
    scatter empty (repackStores words experts rows columns maxWords) (e, r, b) = repackByte (words e r (b / 4)) (b % 4) := by
  have hperm := repackStores_perm words experts rows columns (by omega) hm
  apply scatter_of_mem
  · exact (hperm.map Prod.fst).nodup_iff.mpr (byteGrid_keys_nodup words experts rows columns)
  · exact hperm.mem_iff.mpr (mem_byteGrid he hr hb)

end

theorem nibble_setWidth {w : Nat} (x : BitVec 32) {i : Nat} (hi : 4 * i + 4 ≤ w) : nibble i (x.setWidth w) = nibble i x := by
  apply BitVec.eq_of_getLsbD_eq
  intro j hj
  have hlt : 4 * i + j < w := by omega
  rw [getLsbD_nibble, getLsbD_nibble, BitVec.getLsbD_setWidth, decide_eq_true hlt, Bool.true_and]

theorem sign_bits : ∀ i < 2, nibble i 0x88#32 = 8#4 := by decide

theorem offset_flip : ∀ v : BitVec 4, (v ^^^ 8#4).toInt = (v.toNat : Int) - 8 := by decide

/-- The nibbles of a repacked byte: the pair swapped, each sign bit flipped. -/
theorem nibble_repackByte (word : BitVec 32) {byte : Nat} (h : byte < 4) :
    nibble 1 (repackByte word byte) = nibble (2 * byte) word ^^^ 8#4 ∧
      nibble 0 (repackByte word byte) = nibble (2 * byte + 1) word ^^^ 8#4 := by
  have hhigh : byte * 8 = 4 * (2 * byte) := by omega
  have hlow : 4 * (2 * byte) + 4 = 4 * (2 * byte + 1) := by omega
  have hform : repackByte word byte =
      ((lane 32 1 (nibble (2 * byte) word) ||| lane 32 0 (nibble (2 * byte + 1) word)) ^^^ 0x88#32).setWidth 8 := by
    rw [repackByte, hhigh, hlow, sshiftRight_and_fifteen (by omega), sshiftRight_and_fifteen (by omega)]
    simp only [lane, Nat.mul_zero, BitVec.shiftLeft_zero, Nat.mul_one]
  rw [hform]
  constructor
  · rw [nibble_setWidth _ (by omega), nibble_xor, nibble_or, nibble_lane_self (by omega), nibble_lane_of_ne (by omega),
      sign_bits 1 (by omega), BitVec.or_zero]
  · rw [nibble_setWidth _ (by omega), nibble_xor, nibble_or, nibble_lane_self (by omega), nibble_lane_of_ne (by omega),
      sign_bits 0 (by omega), BitVec.zero_or]

/-- The signed nibble `k` of a repacked row is the offset-binary nibble `k` of its words less eight. -/
theorem repacked_value (row : Nat → BitVec 32) (k : Nat) :
    (nibble (if k % 2 = 0 then 1 else 0) (repackByte (row (k / 2 / 4)) (k / 2 % 4))).toInt =
      ((nibble (k % 8) (row (k / 8))).toNat : Int) - 8 := by
  have hword : k / 2 / 4 = k / 8 := by omega
  obtain ⟨hhigh, hlow⟩ := nibble_repackByte (row (k / 8)) (show k / 2 % 4 < 4 by omega)
  rw [hword]
  split
  · have hk : k % 8 = 2 * (k / 2 % 4) := by omega
    rw [hhigh, offset_flip, hk]
  · have hk : k % 8 = 2 * (k / 2 % 4) + 1 := by omega
    rw [hlow, offset_flip, hk]

theorem repack_returns {packed : Tensor (BitVec 32)} (hd : packed.dtype = .int32) (hn : packed.ndim = 3) (transposed : Bool)
    (empty : Nat × Nat × Nat → BitVec 8) :
    ∃ result, repackCtInt4 packed transposed empty =
        .ok ([packed.size 0, if transposed then packed.size 2 else packed.size 1,
          (if transposed then packed.size 1 else packed.size 2) * 4], result) ∧
      (packed.numel ≠ 0 → result = scatter empty (repackStores (ctWords packed transposed) (packed.size 0)
        (if transposed then packed.size 2 else packed.size 1) (if transposed then packed.size 1 else packed.size 2)
        repackMaxWords)) := by
  by_cases h : packed.numel = 0
  · refine ⟨empty, ?_, fun hne => absurd h hne⟩
    simp only [repackCtInt4, bind_eq_ok, ensure_eq_ok, if_pos h]
    exact ⟨(), ⟨hd, hn⟩, rfl⟩
  · refine ⟨_, ?_, fun _ => rfl⟩
    simp only [repackCtInt4, bind_eq_ok, ensure_eq_ok, if_neg h]
    exact ⟨(), ⟨hd, hn⟩, rfl⟩

theorem numel_pos {packed : Tensor (BitVec 32)} (hn : packed.ndim = 3) {transposed : Bool} {e r b : Nat}
    (he : e < packed.size 0) (hr : r < if transposed then packed.size 2 else packed.size 1)
    (hb : b < (if transposed then packed.size 1 else packed.size 2) * 4) : packed.numel ≠ 0 := by
  obtain ⟨i, j, l, hshape⟩ := List.length_eq_three.mp hn
  have hsize : packed.size 0 = i ∧ packed.size 1 = j ∧ packed.size 2 = l := by simp [Tensor.size, hshape]
  obtain ⟨rfl, rfl, rfl⟩ := hsize
  have h₁ : packed.size 1 ≠ 0 ∧ packed.size 2 ≠ 0 := by
    cases transposed
    · simp only [Bool.false_eq_true, if_false] at hr hb
      omega
    · simp only [if_true] at hr hb
      omega
  simp only [Tensor.numel, hshape, List.prod_cons, List.prod_nil, Nat.mul_one]
  exact Nat.mul_ne_zero (by omega) (Nat.mul_ne_zero h₁.1 h₁.2)

end VllmHcu.Quant
