import VllmHcu.Cache.Fp8

/-!
# Rounding and decoding of FP8 codes

The encoders round to the nearest code for every float. The decoders are exact
except that `fp8_to_float` has no case for zero: its renormalising shift takes
`__clz(0) = 32` for the codes of both zeros.
-/

namespace VllmHcu.Cache

open MiniFloat

/-! ## Signs -/

theorem signMask_eq : 0x80000000#32 = BitVec.twoPow 32 31 := by decide

theorem sign_eq (f : BitVec 32) : f &&& 0x80000000#32 = if f.msb then 0x80000000#32 else 0#32 := by
  rw [signMask_eq, BitVec.and_twoPow]
  rfl

theorem toNat_clearSign (f : BitVec 32) : (f ^^^ (f &&& 0x80000000#32)).toNat = magnitude f := by
  have hmask : f ^^^ (f &&& 0x80000000#32) = f &&& ~~~0x80000000#32 := by
    ext i
    simp only [BitVec.getElem_xor, BitVec.getElem_and, BitVec.getElem_not]
    cases f[i] <;> simp
  rw [hmask, BitVec.toNat_and, show (~~~0x80000000#32).toNat = 2 ^ 31 - 1 by decide, Nat.and_two_pow_sub_one_eq_mod]
  rfl

/-- Putting the sign back keeps the magnitude bits. -/
theorem or_sign (f : BitVec 32) {r : BitVec 8} (h : r.toNat < 128) :
    (r ||| ((f &&& 0x80000000#32) >>> 24).setWidth 8).msb = f.msb ∧
    magnitude (r ||| ((f &&& 0x80000000#32) >>> 24).setWidth 8) = r.toNat := by
  have hlow : r.msb = false := by
    rw [BitVec.msb_eq_decide]
    simpa using h
  rw [sign_eq]
  cases f.msb with
  | false =>
    rw [if_neg Bool.false_ne_true, show ((0#32 >>> 24).setWidth 8) = 0#8 by decide, BitVec.or_zero]
    exact ⟨hlow, Nat.mod_eq_of_lt h⟩
  | true =>
    rw [if_pos rfl, show ((0x80000000#32 >>> 24).setWidth 8) = 0x80#8 by decide]
    refine ⟨by rw [BitVec.msb_or, show (0x80#8).msb = true by decide, Bool.or_true], ?_⟩
    unfold magnitude
    rw [BitVec.toNat_or, show (0x80#8).toNat = 2 ^ 7 * 1 by decide, Nat.or_comm, ← Nat.two_pow_add_eq_or_of_lt h]
    omega

/-! ## The two ranges of the encoders -/

/-- The float addition leaves the rounded number of units in the low bits. -/
theorem magic_add {b : BitVec 32} {e : Nat} (he : 1 ≤ e) (he' : e ≤ 200) {n : Nat} (hn : n < 2 ^ 22)
    (hb : sig 23 b.toNat ≤ n * 2 ^ (e - 1)) :
    fp32Add b (BitVec.ofNat 32 (e * 2 ^ 23)) - BitVec.ofNat 32 (e * 2 ^ 23) =
      BitVec.ofNat 32 (roundEven (e - 1) (sig 23 b.toNat)) := by
  obtain ⟨k, rfl⟩ := Nat.exists_eq_add_one_of_ne_zero (Nat.ne_of_gt he)
  rw [Nat.add_sub_cancel] at hb ⊢
  have hmask : (BitVec.ofNat 32 ((k + 1) * 2 ^ 23)).toNat = (k + 1) * 2 ^ 23 := by
    rw [BitVec.toNat_ofNat, Nat.mod_eq_of_lt (by omega)]
  have hle := roundEven_le hb
  have hlog : Nat.log2 (sig 23 b.toNat + 2 ^ 23 * 2 ^ k) = 23 + k := by
    have hlt : sig 23 b.toNat < 2 ^ 23 * 2 ^ k :=
      Nat.lt_of_le_of_lt hb ((Nat.mul_lt_mul_right (Nat.two_pow_pos k)).mpr (by omega))
    rw [← Nat.pow_add] at hlt ⊢
    rw [Nat.log2_eq_iff (by have := Nat.two_pow_pos (23 + k); omega)]
    exact ⟨by omega, by rw [Nat.pow_succ]; omega⟩
  have hsum : ofSig 23 (sig 23 b.toNat + 2 ^ 23 * 2 ^ k) = (k + 1) * 2 ^ 23 + roundEven k (sig 23 b.toNat) := by
    unfold ofSig
    rw [hlog, Nat.add_sub_cancel_left, roundEven_add_mul k _ (by decide)]
    ring
  unfold fp32Add
  rw [hmask, sig_first, hsum, Nat.min_eq_left (by omega)]
  apply BitVec.eq_of_toNat_eq
  rw [BitVec.toNat_sub, BitVec.toNat_ofNat, BitVec.toNat_ofNat, BitVec.toNat_ofNat]
  omega

theorem sig_lt_of_lt {b e : Nat} (h : b < (e + 1) * 2 ^ 23) : sig 23 b < 2 ^ 23 * 2 ^ e := by
  rw [← sig_first]
  exact sig_strictMono 23 h

/-- Adding the bias difference, half a unit and the parity rounds the pattern; the exponents are those of E4M3. -/
theorem carry_e4m3 {b : BitVec 32} (hlo : 121 * 2 ^ 23 ≤ b.toNat) (hhi : b.toNat ≤ 1086 * 2 ^ 20) :
    (((b + ((7#32 - 127#32) <<< 23 + 0x7FFFF#32) + ((b >>> 20) &&& 1#32)) >>> 20).setWidth 8).toNat =
      roundEven 20 (b.toNat - 120 * 2 ^ 23) := by
  have hconst : (7#32 - 127#32) <<< 23 + 0x7FFFF#32 = 3288858623#32 := by decide
  have hodd : ((b >>> 20) &&& 1#32).toNat = b.toNat / 2 ^ 20 % 2 := by
    rw [BitVec.toNat_and, BitVec.toNat_ushiftRight, Nat.shiftRight_eq_div_pow]
    exact Nat.and_one_is_mod _
  have hsum : (b.toNat + 3288858623) % 2 ^ 32 = b.toNat - 120 * 2 ^ 23 + (2 ^ (20 - 1) - 1) := by omega
  have hparity : b.toNat / 2 ^ 20 % 2 = (b.toNat - 120 * 2 ^ 23) / 2 ^ 20 % 2 := by omega
  rw [hconst, roundEven_eq_carry (by decide), BitVec.toNat_setWidth, BitVec.toNat_ushiftRight, Nat.shiftRight_eq_div_pow,
    BitVec.toNat_add, BitVec.toNat_add, hodd, hparity, BitVec.toNat_ofNat, Nat.mod_eq_of_lt (show 3288858623 < 2 ^ 32 by decide), hsum]
  have := Nat.mod_lt ((b.toNat - 120 * 2 ^ 23) / 2 ^ 20) (show 0 < 2 by decide)
  rw [Nat.mod_eq_of_lt (show _ < 2 ^ 32 by omega), Nat.mod_eq_of_lt (show _ < 2 ^ 8 by omega)]

theorem carry_e5m2 {b : BitVec 32} (hlo : 113 * 2 ^ 23 ≤ b.toNat) (hhi : b.toNat < 143 * 2 ^ 23) :
    (((b + ((15#32 - 127#32) <<< 23 + 0xFFFFF#32) + ((b >>> 21) &&& 1#32)) >>> 21).setWidth 8).toNat =
      roundEven 21 (b.toNat - 112 * 2 ^ 23) := by
  have hconst : (15#32 - 127#32) <<< 23 + 0xFFFFF#32 = 3356491775#32 := by decide
  have hodd : ((b >>> 21) &&& 1#32).toNat = b.toNat / 2 ^ 21 % 2 := by
    rw [BitVec.toNat_and, BitVec.toNat_ushiftRight, Nat.shiftRight_eq_div_pow]
    exact Nat.and_one_is_mod _
  have hsum : (b.toNat + 3356491775) % 2 ^ 32 = b.toNat - 112 * 2 ^ 23 + (2 ^ (21 - 1) - 1) := by omega
  have hparity : b.toNat / 2 ^ 21 % 2 = (b.toNat - 112 * 2 ^ 23) / 2 ^ 21 % 2 := by omega
  rw [hconst, roundEven_eq_carry (by decide), BitVec.toNat_setWidth, BitVec.toNat_ushiftRight, Nat.shiftRight_eq_div_pow,
    BitVec.toNat_add, BitVec.toNat_add, hodd, hparity, BitVec.toNat_ofNat, Nat.mod_eq_of_lt (show 3356491775 < 2 ^ 32 by decide), hsum]
  have := Nat.mod_lt ((b.toNat - 112 * 2 ^ 23) / 2 ^ 21) (show 0 < 2 by decide)
  rw [Nat.mod_eq_of_lt (show _ < 2 ^ 32 by omega), Nat.mod_eq_of_lt (show _ < 2 ^ 8 by omega)]

/-! ## Values -/

/-- The least positive float. -/
def unit : ℚ := 1 / 2 ^ 149

theorem unit_pos : 0 < unit := by unfold unit; positivity

theorem floatValue_eq (b : Nat) : floatValue b = sig 23 b * unit := by
  unfold floatValue value unit
  congr 1
  norm_num

theorem e4m3Value_eq : e4m3Value = fun c => (sig 3 c : ℚ) * 2 ^ 140 * unit := by
  funext c
  unfold e4m3Value value unit
  rw [mul_assoc]
  congr 1
  norm_num

theorem e5m2Value_eq : e5m2Value = fun c => (sig 2 c : ℚ) * 2 ^ 133 * unit := by
  funext c
  unfold e5m2Value value unit
  rw [mul_assoc]
  congr 1
  norm_num

/-! ## The encoders -/

/-- What `float_to_fp8_e4m3` puts beside the sign, by the range of the magnitude. -/
theorem e4m3_cases (f : BitVec 32) :
    (floatToFp8E4m3 f).msb = f.msb ∧
    (fp32Inf < magnitude f → magnitude (floatToFp8E4m3 f) = 0x7F) ∧
    (1086 * 2 ^ 20 < magnitude f → magnitude f ≤ fp32Inf → magnitude (floatToFp8E4m3 f) = 0x7E) ∧
    (magnitude f < 121 * 2 ^ 23 →
      magnitude (floatToFp8E4m3 f) = roundEven 140 (sig 23 (magnitude f)) ∧ magnitude (floatToFp8E4m3 f) ≤ 8) ∧
    (121 * 2 ^ 23 ≤ magnitude f → magnitude f ≤ 1086 * 2 ^ 20 →
      magnitude (floatToFp8E4m3 f) = roundEven 20 (magnitude f - 120 * 2 ^ 23) ∧ magnitude (floatToFp8E4m3 f) ≤ 0x7E) := by
  have hb := toNat_clearSign f
  unfold floatToFp8E4m3
  simp only [gt_iff_lt, BitVec.lt_def, show (255#32 <<< 23).toNat = fp32Inf by decide,
    show (1086#32 <<< 20).toNat = 1086 * 2 ^ 20 by decide, show (121#32 <<< 23).toNat = 121 * 2 ^ 23 by decide]
  generalize f ^^^ (f &&& 0x80000000#32) = b at hb
  rw [hb]
  by_cases hnan : fp32Inf < magnitude f
  · rw [if_pos hnan]
    obtain ⟨hs, hm⟩ := or_sign f (r := 0x7F#8) (by decide)
    unfold fp32Inf at *
    exact ⟨hs, fun _ => hm, by omega, by omega, by omega⟩
  by_cases hmax : 1086 * 2 ^ 20 < magnitude f
  · rw [if_neg hnan, if_pos hmax]
    obtain ⟨hs, hm⟩ := or_sign f (r := 0x7E#8) (by decide)
    unfold fp32Inf at *
    exact ⟨hs, by omega, fun _ _ => hm, by omega, by omega⟩
  by_cases hsub : magnitude f < 121 * 2 ^ 23
  · rw [if_neg hnan, if_neg hmax, if_pos hsub]
    have hsig := sig_lt_of_lt (e := 120) hsub
    rw [show 2 ^ 23 * 2 ^ 120 = 8 * 2 ^ 140 by decide, ← hb] at hsig
    have hle := roundEven_le hsig.le
    have hr : ((fp32Add b (141#32 <<< 23) - 141#32 <<< 23).setWidth 8).toNat = roundEven 140 (sig 23 (magnitude f)) := by
      have := magic_add (b := b) (e := 141) (n := 8) (by decide) (by decide) (by decide) hsig.le
      rw [show BitVec.ofNat 32 (141 * 2 ^ 23) = 141#32 <<< 23 by decide, show 141 - 1 = 140 by decide] at this
      rw [this, BitVec.toNat_setWidth, BitVec.toNat_ofNat, Nat.mod_eq_of_lt (show _ < 2 ^ 32 by omega),
        Nat.mod_eq_of_lt (by omega), hb]
    rw [hb] at hle
    obtain ⟨hs, hm⟩ := or_sign f (r := (fp32Add b (141#32 <<< 23) - 141#32 <<< 23).setWidth 8) (by omega)
    exact ⟨hs, by omega, by omega, fun _ => ⟨hm.trans hr, by omega⟩, by omega⟩
  · rw [if_neg hnan, if_neg hmax, if_neg hsub]
    have hr := carry_e4m3 (b := b) (by omega) (by omega)
    have hle : roundEven 20 (b.toNat - 120 * 2 ^ 23) ≤ 126 := roundEven_le (by omega)
    rw [hb] at hr hle
    obtain ⟨hs, hm⟩ := or_sign f (r := ((b + ((7#32 - 127#32) <<< 23 + 0x7FFFF#32) + ((b >>> 20) &&& 1#32)) >>> 20).setWidth 8)
      (by omega)
    exact ⟨hs, by omega, by omega, by omega, fun _ _ => ⟨hm.trans hr, by omega⟩⟩

theorem rounds_e4m3 (f : BitVec 32) : RoundsE4M3 f := by
  obtain ⟨hs, hnan, hmax, hsub, hnormal⟩ := e4m3_cases f
  refine ⟨hs, hnan, fun h => hmax (by rw [h]; decide) h.le, ?_⟩
  intro hfinite
  have hmono : StrictMono e4m3Value := by
    rw [e4m3Value_eq]
    exact scaled_strictMono 3 140 unit_pos
  by_cases h : 1086 * 2 ^ 20 < magnitude f
  · rw [hmax h hfinite.le]
    refine nearestEven_max hmono ?_
    have hle := (sig_strictMono 23 h).le
    rw [show sig 23 (1086 * 2 ^ 20) = sig 3 126 * 2 ^ 140 by decide] at hle
    rw [floatValue_eq, e4m3Value_eq]
    exact mul_le_mul_of_nonneg_right (by exact_mod_cast hle) unit_pos.le
  by_cases h' : magnitude f < 121 * 2 ^ 23
  · obtain ⟨heq, hle⟩ := hsub h'
    rw [heq] at hle ⊢
    rw [floatValue_eq, e4m3Value_eq]
    exact nearestEven_units 140 unit_pos (by have := sig_lt_of_lt (e := 120) h'; omega) (by omega)
  · obtain ⟨heq, hle⟩ := hnormal (by omega) (by omega)
    rw [heq] at hle ⊢
    rw [floatValue_eq, e4m3Value_eq]
    have := nearestEven_narrow (m := 3) 20 120 unit_pos (b := magnitude f - 120 * 2 ^ 23) (by omega) hle
    rwa [show magnitude f - 120 * 2 ^ 23 + 120 * 2 ^ (3 + 20) = magnitude f by omega] at this

/-- What `float_to_fp8_e5m2` puts beside the sign, by the range of the magnitude. -/
theorem e5m2_cases (f : BitVec 32) :
    (floatToFp8E5m2 f).msb = f.msb ∧
    (fp32Inf < magnitude f → magnitude (floatToFp8E5m2 f) = 0x7F) ∧
    (143 * 2 ^ 23 ≤ magnitude f → magnitude f ≤ fp32Inf → magnitude (floatToFp8E5m2 f) = 0x7C) ∧
    (magnitude f < 113 * 2 ^ 23 →
      magnitude (floatToFp8E5m2 f) = roundEven 133 (sig 23 (magnitude f)) ∧ magnitude (floatToFp8E5m2 f) ≤ 4) ∧
    (113 * 2 ^ 23 ≤ magnitude f → magnitude f < 143 * 2 ^ 23 →
      magnitude (floatToFp8E5m2 f) = roundEven 21 (magnitude f - 112 * 2 ^ 23) ∧ magnitude (floatToFp8E5m2 f) ≤ 0x7C) := by
  have hb := toNat_clearSign f
  unfold floatToFp8E5m2
  simp only [gt_iff_lt, ge_iff_le, BitVec.lt_def, BitVec.le_def, show (255#32 <<< 23).toNat = fp32Inf by decide,
    show (143#32 <<< 23).toNat = 143 * 2 ^ 23 by decide, show (113#32 <<< 23).toNat = 113 * 2 ^ 23 by decide]
  generalize f ^^^ (f &&& 0x80000000#32) = b at hb
  rw [hb]
  by_cases hmax : 143 * 2 ^ 23 ≤ magnitude f
  · rw [if_pos hmax]
    by_cases hnan : fp32Inf < magnitude f
    · rw [if_pos hnan]
      obtain ⟨hs, hm⟩ := or_sign f (r := 0x7F#8) (by decide)
      exact ⟨hs, fun _ => hm, by omega, by omega, by omega⟩
    · rw [if_neg hnan]
      obtain ⟨hs, hm⟩ := or_sign f (r := 0x7C#8) (by decide)
      exact ⟨hs, by omega, fun _ _ => hm, by omega, by omega⟩
  have hnan : ¬fp32Inf < magnitude f := by
    unfold fp32Inf
    omega
  by_cases hsub : magnitude f < 113 * 2 ^ 23
  · rw [if_neg hmax, if_pos hsub]
    have hsig := sig_lt_of_lt (e := 112) hsub
    rw [show 2 ^ 23 * 2 ^ 112 = 4 * 2 ^ 133 by decide, ← hb] at hsig
    have hle := roundEven_le hsig.le
    have hr : ((fp32Add b (134#32 <<< 23) - 134#32 <<< 23).setWidth 8).toNat = roundEven 133 (sig 23 (magnitude f)) := by
      have := magic_add (b := b) (e := 134) (n := 4) (by decide) (by decide) (by decide) hsig.le
      rw [show BitVec.ofNat 32 (134 * 2 ^ 23) = 134#32 <<< 23 by decide, show 134 - 1 = 133 by decide] at this
      rw [this, BitVec.toNat_setWidth, BitVec.toNat_ofNat, Nat.mod_eq_of_lt (show _ < 2 ^ 32 by omega),
        Nat.mod_eq_of_lt (by omega), hb]
    rw [hb] at hle
    obtain ⟨hs, hm⟩ := or_sign f (r := (fp32Add b (134#32 <<< 23) - 134#32 <<< 23).setWidth 8) (by omega)
    exact ⟨hs, by omega, by omega, fun _ => ⟨hm.trans hr, by omega⟩, by omega⟩
  · rw [if_neg hmax, if_neg hsub]
    have hr := carry_e5m2 (b := b) (by omega) (by omega)
    have hle : roundEven 21 (b.toNat - 112 * 2 ^ 23) ≤ 124 := roundEven_le (by omega)
    rw [hb] at hr hle
    obtain ⟨hs, hm⟩ := or_sign f (r := ((b + ((15#32 - 127#32) <<< 23 + 0xFFFFF#32) + ((b >>> 21) &&& 1#32)) >>> 21).setWidth 8)
      (by omega)
    exact ⟨hs, by omega, by omega, by omega, fun _ _ => ⟨hm.trans hr, by omega⟩⟩

theorem rounds_e5m2 (f : BitVec 32) : RoundsE5M2 f := by
  obtain ⟨hs, hnan, hmax, hsub, hnormal⟩ := e5m2_cases f
  refine ⟨hs, hnan, fun h => hmax (by rw [h]; decide) h.le, ?_⟩
  intro hfinite
  have hmono : StrictMono e5m2Value := by
    rw [e5m2Value_eq]
    exact scaled_strictMono 2 133 unit_pos
  by_cases h : 143 * 2 ^ 23 ≤ magnitude f
  · rw [hmax h hfinite.le]
    refine nearestEven_max hmono ?_
    have hle := (sig_strictMono 23).monotone h
    rw [show sig 23 (143 * 2 ^ 23) = sig 2 124 * 2 ^ 133 by decide] at hle
    rw [floatValue_eq, e5m2Value_eq]
    exact mul_le_mul_of_nonneg_right (by exact_mod_cast hle) unit_pos.le
  by_cases h' : magnitude f < 113 * 2 ^ 23
  · obtain ⟨heq, hle⟩ := hsub h'
    rw [heq] at hle ⊢
    rw [floatValue_eq, e5m2Value_eq]
    exact nearestEven_units 133 unit_pos (by have := sig_lt_of_lt (e := 112) h'; omega) (by omega)
  · obtain ⟨heq, hle⟩ := hnormal (by omega) (by omega)
    rw [heq] at hle ⊢
    rw [floatValue_eq, e5m2Value_eq]
    have := nearestEven_narrow (m := 2) 21 112 unit_pos (b := magnitude f - 112 * 2 ^ 23) (by omega) hle
    rwa [show magnitude f - 112 * 2 ^ 23 + 112 * 2 ^ (2 + 21) = magnitude f by omega] at this

/-! ## The decoders -/

theorem fp8ToFloat_codes : ∀ n < 256, (fp8ToFloat (BitVec.ofNat 8 n)).msb = (BitVec.ofNat 8 n).msb ∧
    (n % 128 ≠ 0 → magnitude (fp8ToFloat (BitVec.ofNat 8 n)) < fp32Inf ∧
      sig 23 (magnitude (fp8ToFloat (BitVec.ofNat 8 n))) = sig 3 (n % 128) * 2 ^ 140) := by
  decide +kernel

theorem fp8e5m2ToFp32_codes : ∀ n < 256, (fp8e5m2ToFp32 (BitVec.ofNat 8 n)).msb = (BitVec.ofNat 8 n).msb ∧
    (n % 128 = 0x7C → magnitude (fp8e5m2ToFp32 (BitVec.ofNat 8 n)) = fp32Inf) ∧
    (n % 128 < 0x7C → magnitude (fp8e5m2ToFp32 (BitVec.ofNat 8 n)) < fp32Inf ∧
      sig 23 (magnitude (fp8e5m2ToFp32 (BitVec.ofNat 8 n))) = sig 2 (n % 128) * 2 ^ 133) := by
  decide +kernel

/-- The float of a zero code is `2 ^ -35`. -/
theorem magnitude_fp8ToFloat_zero {c : BitVec 8} (h : magnitude c = 0) : magnitude (fp8ToFloat c) = 92 * 2 ^ 23 := by
  have hcode : c = 0#8 ∨ c = 0x80#8 := by
    have := c.isLt
    unfold magnitude at h
    rcases (by omega : c.toNat = 0 ∨ c.toNat = 128) with h0 | h128
    · exact .inl (BitVec.eq_of_toNat_eq h0)
    · exact .inr (BitVec.eq_of_toNat_eq h128)
  rcases hcode with rfl | rfl
  · rfl
  · rfl

theorem decodes_e4m3_iff (c : BitVec 8) : DecodesE4M3 c ↔ magnitude c ≠ 0 := by
  constructor
  · intro ⟨_, _, hval⟩ hzero
    rw [magnitude_fp8ToFloat_zero hzero, hzero, floatValue_eq, e4m3Value_eq] at hval
    simp only [sig_of_lt (show 0 < 2 ^ 3 by decide), Nat.cast_zero, zero_mul, mul_eq_zero, Nat.cast_eq_zero] at hval
    rcases hval with hval | hval
    · revert hval
      decide
    · exact absurd hval unit_pos.ne'
  · intro hne
    have := fp8ToFloat_codes c.toNat c.isLt
    rw [BitVec.ofNat_toNat, BitVec.setWidth_eq] at this
    obtain ⟨hs, hcode⟩ := this
    obtain ⟨hfin, hsig⟩ := hcode hne
    refine ⟨hs, hfin, ?_⟩
    rw [floatValue_eq, hsig, e4m3Value_eq]
    push_cast
    rfl

theorem decodes_e5m2 (c : BitVec 8) : DecodesE5M2 c := by
  have := fp8e5m2ToFp32_codes c.toNat c.isLt
  rw [BitVec.ofNat_toNat, BitVec.setWidth_eq] at this
  obtain ⟨hs, hinf, hcode⟩ := this
  refine ⟨hs, hinf, ?_⟩
  intro hlt
  obtain ⟨hfin, hsig⟩ := hcode hlt
  refine ⟨hfin, ?_⟩
  rw [floatValue_eq, hsig, e5m2Value_eq]
  push_cast
  rfl

/-- The floats up to `2 ^ -10` have a zero code. -/
theorem magnitude_e4m3_eq_zero {f : BitVec 32} (h : magnitude f ≤ fp32Inf) :
    magnitude (floatToFp8E4m3 f) = 0 ↔ magnitude f ≤ 117 * 2 ^ 23 := by
  obtain ⟨-, -, hmax, hsub, hnormal⟩ := e4m3_cases f
  by_cases h₁ : 1086 * 2 ^ 20 < magnitude f
  · rw [hmax h₁ h]
    omega
  by_cases h₂ : magnitude f < 121 * 2 ^ 23
  · have hmono := (sig_strictMono 23).le_iff_le (a := magnitude f) (b := (116 + 1) * 2 ^ 23)
    rw [sig_first, show 2 ^ 23 * 2 ^ 116 = 2 ^ 139 by decide] at hmono
    rw [(hsub h₂).1, roundEven_eq_zero, show 2 ^ 140 = 2 * 2 ^ 139 by decide]
    omega
  · have := div_le_roundEven 20 (magnitude f - 120 * 2 ^ 23)
    rw [(hnormal (by omega) (by omega)).1]
    omega

/-- Both encoders round every float, and `fp8_to_float` is exact on every code that is not a zero. -/
theorem fp8_codes_exact (f : BitVec 32) (c : BitVec 8) :
    RoundsE4M3 f ∧ RoundsE5M2 f ∧
    (magnitude c ≠ 0x7F → (DecodesE4M3 c ↔ magnitude c ≠ 0)) ∧
    DecodesE5M2 c ∧
    (magnitude f ≤ fp32Inf → (DecodesE4M3 (floatToFp8E4m3 f) ↔ 117 * 2 ^ 23 < magnitude f)) ∧
    DecodesE5M2 (floatToFp8E5m2 f) := by
  refine ⟨rounds_e4m3 f, rounds_e5m2 f, fun _ => decodes_e4m3_iff c, decodes_e5m2 c, fun h => ?_, decodes_e5m2 _⟩
  rw [decodes_e4m3_iff, ne_eq, magnitude_e4m3_eq_zero h]
  omega

/-- The code of one decodes to one. -/
theorem fp8_codes_exact_one : DecodesE4M3 (floatToFp8E4m3 0x3F800000#32) :=
  ((fp8_codes_exact 0x3F800000#32 0#8).2.2.2.2.1 (by decide)).mpr (by decide)

/-- Zero has a zero code, which decodes to `2 ^ -35`. -/
theorem not_decodes_zero :
    floatToFp8E4m3 0#32 = 0#8 ∧ fp8ToFloat 0#8 = 92#32 <<< 23 ∧ ¬DecodesE4M3 (floatToFp8E4m3 0#32) := by
  refine ⟨by decide +kernel, by decide +kernel, ?_⟩
  rw [decodes_e4m3_iff]
  decide +kernel

end VllmHcu.Cache
