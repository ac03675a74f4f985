import VllmHcu.Lib.MiniFloat

/-!
# FP8 codes of the cache kernels

The conversions between 32-bit floats and the E4M3 and E5M2 codes, on bit
patterns. The one float addition, of nonnegative finite operands, rounds to
nearest even; the conversion from half to float is the exact one.
-/

namespace VllmHcu.Cache

open MiniFloat

/-- The pattern of `a + b` for nonnegative finite patterns. -/
def fp32Add (a b : BitVec 32) : BitVec 32 := BitVec.ofNat 32 (min (ofSig 23 (sig 23 a.toNat + sig 23 b.toNat)) 0x7F800000)

/-- `__clz`. -/
def clz (x : BitVec 32) : Nat := if x = 0 then 32 else 31 - Nat.log2 x.toNat

/-- `(float)u16.as_value` for a `_Float16`. -/
def floatOfHalf (h : BitVec 16) : BitVec 32 :=
  let sign := (h &&& 0x8000#16).setWidth 32 <<< 16
  let nonsign := h &&& 0x7FFF#16
  if nonsign ≥ 0x7C00#16 then sign ||| 0x7F800000#32 ||| ((nonsign &&& 0x3FF#16).setWidth 32 <<< 13)
  -- a unit of the half format is 2 ^ 125 units of the float format
  else sign ||| BitVec.ofNat 32 (ofSig 23 (sig 10 nonsign.toNat * 2 ^ 125))

def fp8ToFloat (input : BitVec 8) : BitVec 32 :=
  let w := input.setWidth 32 <<< 24
  let sign := w &&& 0x80000000#32
  let nonsign := w &&& 0x7FFFFFFF#32
  let renormShift := clz nonsign
  let renormShift := if renormShift > 4 then renormShift - 4 else 0
  sign ||| ((nonsign <<< renormShift >>> 4) + (0x78#32 - BitVec.ofNat 32 renormShift) <<< 23)

def floatToFp8E4m3 (f : BitVec 32) : BitVec 8 :=
  let fp8FiniteMax := 1086#32 <<< 20
  let fp32Inf := 255#32 <<< 23
  let denormMask := 141#32 <<< 23
  let sign := f &&& 0x80000000#32
  let fBits := f ^^^ sign
  let result : BitVec 8 :=
    if fBits > fp32Inf then 0x7F#8
    else if fBits > fp8FiniteMax then 0x7E#8
    else if fBits < 121#32 <<< 23 then (fp32Add fBits denormMask - denormMask).setWidth 8
    else
      let mantOdd := (fBits >>> 20) &&& 1#32
      ((fBits + ((7#32 - 127#32) <<< 23 + 0x7FFFF#32) + mantOdd) >>> 20).setWidth 8
  result ||| (sign >>> 24).setWidth 8

def floatToFp8E5m2 (f : BitVec 32) : BitVec 8 :=
  let fp32Inf := 255#32 <<< 23
  let fp8Max := 143#32 <<< 23
  let denormMask := 134#32 <<< 23
  let sign := f &&& 0x80000000#32
  let fBits := f ^^^ sign
  let result : BitVec 8 :=
    if fBits ≥ fp8Max then (if fBits > fp32Inf then 0x7F#8 else 0x7C#8)
    else if fBits < 113#32 <<< 23 then (fp32Add fBits denormMask - denormMask).setWidth 8
    else
      let mantOdd := (fBits >>> 21) &&& 1#32
      ((fBits + ((15#32 - 127#32) <<< 23 + 0xFFFFF#32) + mantOdd) >>> 21).setWidth 8
  result ||| (sign >>> 24).setWidth 8

def fp8e5m2ToFp32 (input : BitVec 8) : BitVec 32 := floatOfHalf (input.setWidth 16 <<< 8)

/-! ## What the codes stand for -/

/-- The magnitude bits of a pattern. -/
def magnitude {w : Nat} (b : BitVec w) : Nat := b.toNat % 2 ^ (w - 1)

/-- The value of a magnitude with `m` mantissa bits and exponent bias `bias`. -/
def value (m : Nat) (bias : Int) (b : Nat) : ℚ := sig m b * (2 : ℚ) ^ (1 - bias - m)

def floatValue (b : Nat) : ℚ := value 23 127 b

def e4m3Value (c : Nat) : ℚ := value 3 7 c

def e5m2Value (c : Nat) : ℚ := value 2 15 c

/-- The magnitude of infinity in 32 bits; larger ones are NaNs. -/
def fp32Inf : Nat := 0x7F800000

/-- The E4M3 code of a float: its sign, and the nearest code up to 448 of its magnitude; infinity saturates. -/
def RoundsE4M3 (f : BitVec 32) : Prop :=
  (floatToFp8E4m3 f).msb = f.msb ∧
  (fp32Inf < magnitude f → magnitude (floatToFp8E4m3 f) = 0x7F) ∧
  (magnitude f = fp32Inf → magnitude (floatToFp8E4m3 f) = 0x7E) ∧
  (magnitude f < fp32Inf → NearestEven e4m3Value 0x7E (floatValue (magnitude f)) (magnitude (floatToFp8E4m3 f)))

/-- The E5M2 code of a float. The code `0x7C` of infinity counts as 65536, the value above the largest finite one. -/
def RoundsE5M2 (f : BitVec 32) : Prop :=
  (floatToFp8E5m2 f).msb = f.msb ∧
  (fp32Inf < magnitude f → magnitude (floatToFp8E5m2 f) = 0x7F) ∧
  (magnitude f = fp32Inf → magnitude (floatToFp8E5m2 f) = 0x7C) ∧
  (magnitude f < fp32Inf → NearestEven e5m2Value 0x7C (floatValue (magnitude f)) (magnitude (floatToFp8E5m2 f)))

/-- The float of an E4M3 code has the code's sign and value. -/
def DecodesE4M3 (c : BitVec 8) : Prop :=
  (fp8ToFloat c).msb = c.msb ∧ magnitude (fp8ToFloat c) < fp32Inf ∧
    floatValue (magnitude (fp8ToFloat c)) = e4m3Value (magnitude c)

/-- The float of an E5M2 code has the code's sign and value, or is infinite where the code is. -/
def DecodesE5M2 (c : BitVec 8) : Prop :=
  (fp8e5m2ToFp32 c).msb = c.msb ∧
  (magnitude c = 0x7C → magnitude (fp8e5m2ToFp32 c) = fp32Inf) ∧
  (magnitude c < 0x7C → magnitude (fp8e5m2ToFp32 c) < fp32Inf ∧
    floatValue (magnitude (fp8e5m2ToFp32 c)) = e5m2Value (magnitude c))

end VllmHcu.Cache
