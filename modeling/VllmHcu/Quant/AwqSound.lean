import VllmHcu.Quant.Awq
import VllmHcu.Lib.RowMajor
import Mathlib.Algebra.Field.Rat

/-!
# The AutoAWQ conversion loses nothing

Both packed tensors use the same lane order, once along the columns of the
weight and once along its rows. Every nibble of the new words is one nibble of
the old ones, and the pairs hold the zero point and the bits of the scale.
-/

namespace VllmHcu.Quant

open Nibbles

def order (lane : Nat) : Nat := awqPackOrder.getD lane 0

theorem order_lt : ∀ lane < 8, order lane < 8 := by decide

theorem order_surj : ∀ j < 8, ∃ lane < 8, order lane = j := by decide

theorem order_nodup : ((List.range 8).map order).Nodup := by decide

theorem shift_eq : ∀ lane < 8, shift lane = 4 * order lane := by decide

theorem logical_eq (words : Nat → BitVec 32) (i : Nat) :
    logical words i = (nibble (order (i % 8)) (words (i / 8))).setWidth 32 := by
  have hlane : i % 8 < 8 := Nat.mod_lt i (by omega)
  rw [logical, shift_eq _ hlane, sshiftRight_and_fifteen (order_lt _ hlane)]

/-- The wrapping sum is the union of the shifted nibbles. -/
theorem packRows_eq (x : Nat → BitVec 32) (i : Nat) :
    packRows x i = union 32 order (fun lane => nibble 0 (x (i * 8 + lane))) (List.range 8) := by
  rw [packRows, ← sum_lanes (n := 8) (by omega) _ order_nodup]
  congr 1
  apply List.map_congr_left
  intro lane hlane
  rw [and_fifteen, shift_eq lane (List.mem_range.mp hlane), Nibbles.lane]

theorem nibble_packRows (x : Nat → BitVec 32) (i : Nat) {lane : Nat} (hlane : lane < 8) :
    nibble (order lane) (packRows x i) = nibble 0 (x (i * 8 + lane)) := by
  have hw : 4 * order lane + 4 ≤ 32 := by
    have := order_lt lane hlane
    omega
  rw [packRows_eq, nibble_union hw order_nodup (List.mem_range.mpr hlane)]

theorem transpose_apply {α : Type} {rows : Nat} (cols : Nat) (x : Nat → α) {r : Nat} (c : Nat) (hr : r < rows) :
    transpose rows cols x (c * rows + r) = x (r * cols + c) := by
  rw [transpose, block_mod hr, block_div hr]

/-- Position `(row, col)` of rows of `8 * m` entries, in words of eight. -/
theorem row_split (m row col : Nat) :
    (row * (m * 8) + col) / 8 = row * m + col / 8 ∧ (row * (m * 8) + col) % 8 = col % 8 := by
  have hmul : row * (m * 8) = row * m * 8 := (Nat.mul_assoc row m 8).symm
  omega

theorem nibble_logical (words : Nat → BitVec 32) (m row col : Nat) :
    nibble 0 (logical words (row * (m * 8) + col)) = awqDecode words (m * 8) row col := by
  obtain ⟨hdiv, hmod⟩ := row_split m row col
  rw [logical_eq, hdiv, hmod, nibble_zero_setWidth, awqDecode, Nat.mul_div_cancel m (by omega)]
  rfl

/-- Lane `b` of word `i` of column `c` is row `8 * i + b` of the weight. -/
theorem packRows_transpose (words : Nat → BitVec 32) {k8 np c i lane : Nat} (hi : i < k8) (hlane : lane < 8) :
    nibble 0 (transpose (k8 * 8) (np * 8) (logical words) ((c * k8 + i) * 8 + lane)) =
      awqDecode words (np * 8) (i * 8 + lane) c := by
  have hpos : (c * k8 + i) * 8 + lane = c * (k8 * 8) + (i * 8 + lane) := by
    rw [Nat.add_mul, Nat.mul_assoc, Nat.add_assoc]
  rw [hpos, transpose_apply _ _ _ (by omega), nibble_logical]

theorem weight_decode (words : Nat → BitVec 32) {k8 np r c : Nat} (hr : r < k8 * 8) :
    awqDecode (packRows (transpose (k8 * 8) (np * 8) (logical words))) (k8 * 8) c r = awqDecode words (np * 8) r c := by
  have hlane : r % 8 < 8 := Nat.mod_lt r (by omega)
  have hi : r / 8 < k8 := by omega
  have hr' : r / 8 * 8 + r % 8 = r := by omega
  have hnib := nibble_packRows (transpose (k8 * 8) (np * 8) (logical words)) (c * k8 + r / 8) hlane
  rw [packRows_transpose words hi hlane, hr'] at hnib
  rw [awqDecode, Nat.mul_div_cancel k8 (by omega)]
  exact hnib

theorem weight_union (words : Nat → BitVec 32) {k8 np c i : Nat} (hi : i < k8) :
    packRows (transpose (k8 * 8) (np * 8) (logical words)) (c * k8 + i) =
      union 32 order (fun lane => awqDecode words (np * 8) (i * 8 + lane) c) (List.range 8) := by
  rw [packRows_eq, ← sum_lanes (n := 8) (by omega) _ order_nodup, ← sum_lanes (n := 8) (by omega) _ order_nodup]
  congr 1
  apply List.map_congr_left
  intro lane hlane
  rw [packRows_transpose words hi (List.mem_range.mp hlane)]

/-- A packed tensor is known by the matrix it decodes to. -/
theorem words_eq_of_decode {x y : Nat → BitVec 32} {rows m : Nat}
    (h : ∀ r < rows, ∀ c < m * 8, awqDecode x (m * 8) r c = awqDecode y (m * 8) r c) :
    ∀ i < rows * m, x i = y i := by
  intro i hi
  have hm : 0 < m := Nat.pos_of_mul_pos_left (Nat.lt_of_le_of_lt (Nat.zero_le i) hi)
  have hr : i / m < rows := Nat.div_lt_of_lt_mul (by rwa [Nat.mul_comm] at hi)
  have hpos : i / m * m + i % m = i := Nat.div_add_mod' i m
  apply eq_of_nibbles (n := 8) (by omega)
  intro j hj
  obtain ⟨lane, hlane, rfl⟩ := order_surj j hj
  have hc : i % m * 8 + lane < m * 8 := block_lt (Nat.mod_lt i hm) hlane
  have := h (i / m) hr (i % m * 8 + lane) hc
  rw [awqDecode, awqDecode, block_div hlane, block_mod hlane, Nat.mul_div_cancel m (by omega), hpos] at this
  exact this

/-! ## Zero points and scales -/

theorem zero_encoding : ∀ z : BitVec 4, toFloat16 (z.setWidth 32 + 64#32).toInt = toFloat16 (z.toNat + 64 : Int) ∧
    float16Value (toFloat16 (z.toNat + 64 : Int)) = (z.toNat : Rat) + 64 := by decide +kernel

theorem zero_encoding_inj {z z' : BitVec 4} (h : toFloat16 (z.toNat + 64 : Int) = toFloat16 (z'.toNat + 64 : Int)) :
    z = z' := by
  have hv := congrArg float16Value h
  rw [(zero_encoding z).2, (zero_encoding z').2] at hv
  exact BitVec.eq_of_toNat_eq (Nat.cast_inj.mp (add_right_cancel hv))

theorem viewPairs_low (zeros scales : Nat → BitVec 16) (i : Nat) : (viewPairs zeros scales i).extractLsb' 0 16 = zeros i :=
  BitVec.extractLsb'_append_eq_right

theorem viewPairs_high (zeros scales : Nat → BitVec 16) (i : Nat) : (viewPairs zeros scales i).extractLsb' 16 16 = scales i :=
  BitVec.extractLsb'_append_eq_left

/-! ## The conversion -/

/-- The checks of the conversion, for a weight of `8 * k8` rows and `8 * np` columns. -/
structure Accepted (qweight qzeros : Tensor (BitVec 32)) (scales : Tensor (BitVec 16)) (groupSize : Int) (k8 np groups : Nat) :
    Prop where
  weight : qweight.shape = [k8 * 8, np]
  zeros : qzeros.shape = [groups, np]
  scale : scales.shape = [groups, np * 8]
  cover : (groups : Int) * groupSize = (k8 * 8 : Nat)

/-- What the conversion returns for an accepted weight. -/
def converted (qweight qzeros : Tensor (BitVec 32)) (scales : Tensor (BitVec 16)) (k8 np groups : Nat) :
    Tensor (BitVec 32) × Tensor (BitVec 32) :=
  (⟨[np * 8, k8], .int32, packRows (transpose (k8 * 8) (np * 8) (logical qweight.entry))⟩,
    ⟨[np * 8, groups], .int32, transpose groups (np * 8)
      (viewPairs (fun i => toFloat16 (logical qzeros.entry i + 64#32).toInt) scales.entry)⟩)

theorem convert_spec {qweight qzeros : Tensor (BitVec 32)} {scales : Tensor (BitVec 16)} {groupSize : Int}
    {out : Tensor (BitVec 32) × Tensor (BitVec 32)}
    (h : convertAwqToLightopLayout qweight qzeros scales groupSize = .ok out) :
    ∃ k8 np groups, Accepted qweight qzeros scales groupSize k8 np groups ∧ out = converted qweight qzeros scales k8 np groups := by
  simp only [convertAwqToLightopLayout, bind_eq_ok, ensure_eq_ok, pure_eq_ok, exists_and_left] at h
  obtain ⟨⟨hrank, -, -⟩, -, hpos, ⟨hk, hgroup⟩, hzeros, hscale, -, -, -, -, -, -, rfl⟩ := h
  obtain ⟨k, np, hshape⟩ := List.length_eq_two.mp hrank
  have hsize : qweight.size 0 = k ∧ qweight.size 1 = np := by simp [Tensor.size, hshape]
  rw [hsize.1] at hk hgroup hzeros hscale ⊢
  rw [hsize.2] at hzeros hscale ⊢
  obtain ⟨k8, rfl⟩ : ∃ k8, k = k8 * 8 := ⟨k / 8, by omega⟩
  have hdiv := Int.ediv_mul_cancel (Int.dvd_of_emod_eq_zero hgroup)
  have hnonneg : 0 ≤ ((k8 * 8 : Nat) : Int) / groupSize := Int.ediv_nonneg (Int.natCast_nonneg _) hpos.le
  refine ⟨k8, np, (((k8 * 8 : Nat) : Int) / groupSize).toNat, ⟨hshape, hzeros, hscale, ?_⟩, ?_⟩
  · rw [Int.toNat_of_nonneg hnonneg, hdiv]
  · rw [converted, Nat.mul_div_cancel k8 (by omega)]

theorem pair_apply (qzeros : Tensor (BitVec 32)) (scales : Tensor (BitVec 16)) {groups g : Nat} (np c : Nat)
    (hg : g < groups) :
    transpose groups (np * 8) (viewPairs (fun i => toFloat16 (logical qzeros.entry i + 64#32).toInt) scales.entry)
      (c * groups + g) =
    viewPairs (fun _ => toFloat16 ((awqDecode qzeros.entry (np * 8) g c).toNat + 64 : Int)) scales.entry (g * (np * 8) + c) := by
  obtain ⟨hdiv, hmod⟩ := row_split np g c
  rw [transpose_apply _ _ _ hg, viewPairs, viewPairs, logical_eq, hdiv, hmod, (zero_encoding _).1, awqDecode,
    Nat.mul_div_cancel np (by omega)]
  rfl

theorem converted_inj {qweight qzeros qweight' qzeros' : Tensor (BitVec 32)} {scales scales' : Tensor (BitVec 16)}
    {g g' : Int} {k8 np groups k8' np' groups' : Nat} (ha : Accepted qweight qzeros scales g k8 np groups)
    (ha' : Accepted qweight' qzeros' scales' g' k8' np' groups')
    (hw : (converted qweight qzeros scales k8 np groups).1.Same (converted qweight' qzeros' scales' k8' np' groups').1)
    (hs : (converted qweight qzeros scales k8 np groups).2.Same (converted qweight' qzeros' scales' k8' np' groups').2) :
    qweight.Same qweight' ∧ qzeros.Same qzeros' ∧ scales.Same scales' := by
  obtain ⟨hwshape, hwords⟩ := hw
  obtain ⟨hsshape, hpairs⟩ := hs
  simp only [converted, List.cons.injEq, and_true, List.prod_cons, List.prod_nil, Nat.mul_one] at hwshape hwords hsshape hpairs
  obtain ⟨hn, rfl⟩ := hwshape
  obtain ⟨-, rfl⟩ := hsshape
  obtain rfl : np = np' := by omega
  have hpair : ∀ c < np * 8, ∀ i < groups,
      awqDecode qzeros.entry (np * 8) i c = awqDecode qzeros'.entry (np * 8) i c ∧
        scales.entry (i * (np * 8) + c) = scales'.entry (i * (np * 8) + c) := by
    intro c hc i hi
    have he := hpairs (c * groups + i) (block_lt hc hi)
    rw [pair_apply _ _ _ _ hi, pair_apply _ _ _ _ hi] at he
    have hlow := congrArg (BitVec.extractLsb' 0 16) he
    have hhigh := congrArg (BitVec.extractLsb' 16 16) he
    rw [viewPairs_low, viewPairs_low] at hlow
    rw [viewPairs_high, viewPairs_high] at hhigh
    exact ⟨zero_encoding_inj hlow, hhigh⟩
  refine ⟨⟨by rw [ha.weight, ha'.weight], ?_⟩, ⟨by rw [ha.zeros, ha'.zeros], ?_⟩, ⟨by rw [ha.scale, ha'.scale], ?_⟩⟩
  · rw [ha.weight, List.prod_cons, List.prod_singleton]
    apply words_eq_of_decode
    intro r hr c hc
    rw [← weight_decode qweight.entry hr, ← weight_decode qweight'.entry hr, awqDecode, awqDecode,
      Nat.mul_div_cancel k8 (by omega), hwords _ (block_lt hc (by omega))]
  · rw [ha.zeros, List.prod_cons, List.prod_singleton]
    exact words_eq_of_decode fun r hr c hc => (hpair c hc r hr).1
  · rw [ha.scale, List.prod_cons, List.prod_singleton]
    intro i hi
    have hn : 0 < np * 8 := Nat.pos_of_mul_pos_left (Nat.lt_of_le_of_lt (Nat.zero_le i) hi)
    have hg : i / (np * 8) < groups := Nat.div_lt_of_lt_mul (by rwa [Nat.mul_comm] at hi)
    have := (hpair (i % (np * 8)) (Nat.mod_lt i hn) (i / (np * 8)) hg).2
    rwa [Nat.div_add_mod'] at this

theorem convert_lossless {qweight qzeros : Tensor (BitVec 32)} {scales : Tensor (BitVec 16)} {groupSize : Int}
    {weightTrans scalesZeros : Tensor (BitVec 32)}
    (h : convertAwqToLightopLayout qweight qzeros scales groupSize = .ok (weightTrans, scalesZeros)) :
    ∃ k n groups : Nat, (8 ∣ k ∧ 8 ∣ n ∧ (groups : Int) * groupSize = k) ∧
      (qweight.shape = [k, n / 8] ∧ qzeros.shape = [groups, n / 8] ∧ scales.shape = [groups, n] ∧
        weightTrans.shape = [n, k / 8] ∧ scalesZeros.shape = [n, groups]) ∧
      (∀ r < k, ∀ c < n, awqDecode weightTrans.entry k c r = awqDecode qweight.entry n r c) ∧
      (∀ c < n, ∀ i < k / 8, weightTrans.entry (c * (k / 8) + i) =
        union 32 order (fun lane => awqDecode qweight.entry n (i * 8 + lane) c) (List.range 8)) ∧
      (∀ g < groups, ∀ c < n,
        let pair := scalesZeros.entry (c * groups + g)
        let point := (awqDecode qzeros.entry n g c).toNat
        pair.extractLsb' 0 16 = toFloat16 (point + 64 : Int) ∧ float16Value (pair.extractLsb' 0 16) = point + 64 ∧
          pair.extractLsb' 16 16 = scales.entry (g * n + c)) ∧
      ∀ (qweight' qzeros' : Tensor (BitVec 32)) (scales' : Tensor (BitVec 16)) (groupSize' : Int)
        (weightTrans' scalesZeros' : Tensor (BitVec 32)),
        convertAwqToLightopLayout qweight' qzeros' scales' groupSize' = .ok (weightTrans', scalesZeros') →
        weightTrans.Same weightTrans' → scalesZeros.Same scalesZeros' →
        qweight.Same qweight' ∧ qzeros.Same qzeros' ∧ scales.Same scales' := by
  obtain ⟨k8, np, groups, ha, hout⟩ := convert_spec h
  obtain ⟨rfl, rfl⟩ := Prod.mk.inj hout
  have hk : k8 * 8 / 8 = k8 := Nat.mul_div_cancel k8 (by omega)
  have hn : np * 8 / 8 = np := Nat.mul_div_cancel np (by omega)
  refine ⟨k8 * 8, np * 8, groups, ⟨Nat.dvd_mul_left .., Nat.dvd_mul_left .., ha.cover⟩, ?_, ?_, ?_, ?_, ?_⟩
  · rw [hk, hn]
    exact ⟨ha.weight, ha.zeros, ha.scale, rfl, rfl⟩
  · intro r hr c _
    exact weight_decode qweight.entry hr
  · rw [hk]
    intro c _ i hi
    exact weight_union qweight.entry hi
  · intro g hg c _
    have hpair := pair_apply qzeros scales np c hg
    simp only [hpair, viewPairs_low, viewPairs_high, (zero_encoding _).2, and_self]
  · intro qweight' qzeros' scales' groupSize' weightTrans' scalesZeros' h' hw hs
    obtain ⟨k8', np', groups', ha', hout'⟩ := convert_spec h'
    obtain ⟨rfl, rfl⟩ := Prod.mk.inj hout'
    exact converted_inj ha ha' hw hs

/-- Eight rows of one word: nibble `b` of the new word of column `c` is lane `c` of row `b`. -/
theorem convert_lossless_word :
    ∃ weightTrans scalesZeros : Tensor (BitVec 32),
      convertAwqToLightopLayout ⟨[8, 1], .int32, fun r => 0xF0000008#32 + BitVec.ofNat 32 r⟩
        ⟨[1, 1], .int32, fun _ => 0x87654321#32⟩ ⟨[1, 8], .float16, fun _ => 0x3C00#16⟩ 8 = .ok (weightTrans, scalesZeros) ∧
      ∃ k n groups : Nat, ∀ r < k, ∀ c < n, ∀ g < groups,
        awqDecode weightTrans.entry k c r = awqDecode (fun r => 0xF0000008#32 + BitVec.ofNat 32 r) n r c ∧
          (scalesZeros.entry (c * groups + g)).extractLsb' 16 16 = 0x3C00#16 := by
  refine ⟨_, _, rfl, ?_⟩
  obtain ⟨k, n, groups, -, -, hdec, -, hpair, -⟩ := convert_lossless
    (show convertAwqToLightopLayout ⟨[8, 1], .int32, fun r => 0xF0000008#32 + BitVec.ofNat 32 r⟩
      ⟨[1, 1], .int32, fun _ => 0x87654321#32⟩ ⟨[1, 8], .float16, fun _ => 0x3C00#16⟩ 8 = .ok (_, _) from rfl)
  exact ⟨k, n, groups, fun r hr c hc g hg => ⟨hdec r hr c hc, (hpair g hg c hc).2.2⟩⟩

end VllmHcu.Quant
