import VllmHcu.Quant.Awq
import VllmHcu.Lib.Axes
import VllmHcu.Lib.Launch
import VllmHcu.Lib.Nibbles
import VllmHcu.Lib.Result

/-!
# INT4 weight layouts

The PACK5 layouts of `hcu_int4_megamoe.py` and the repacking of
compressed-tensors weights of `compressed_tensors_w4a8_runtime.py`.
-/

namespace VllmHcu.Quant

abbrev Bytes := Placed (BitVec 8)

def isByte (t : DType) : Bool := t = .int8 || t = .uint8

/-- `tl.load(P + i).to(tl.int32)` -/
def byteToInt32 (t : DType) (b : BitVec 8) : BitVec 32 := if t = .int8 then b.signExtend 32 else b.setWidth 32

/-- `((byte >> tl.where(even, 4, 0)) & 15 ^ 8) - 8`, stored as int8. -/
def decodeNibble (t : DType) (b : BitVec 8) (even : Bool) : BitVec 8 :=
  let q := (byteToInt32 t b).sshiftRight (if even then 4 else 0) &&& 15#32
  ((q ^^^ 8#32) - 8#32).setWidth 8

/-- `_unpack_signed_int4` -/
def unpackSignedInt4 (packed : Bytes) (size block : Nat) (out : Nat → BitVec 8) : Nat → BitVec 8 :=
  launch size block (fun i => decodeNibble packed.dtype (packed.entry (i / 2)) (i % 2 = 0)) out

def unpackSignedInt4Out (packed out : Bytes) (block : Nat) : Except QuantError (Nat → BitVec 8) := do
  ensure (isByte packed.dtype ∧ out.dtype = .int8) (.typeError "packed must be byte INT4 and out must be signed INT8")
  ensure (packed.contiguous ∧ out.contiguous) (.valueError "packed and output must be contiguous")
  ensure (packed.device = out.device ∧ packed.device.isCuda) (.valueError "packed and output must be on the same GPU")
  ensure (out.numel = 2 * packed.numel) (.valueError "output must contain exactly two elements per packed byte")
  pure (unpackSignedInt4 packed out.numel block out.entry)

/-- The byte that `_unpack_raw_int4_pack5` loads for output `i`. -/
def rawByte (n k i : Nat) : Nat :=
  let k16 := i % 16
  let n16b := i / 16 % 16
  let k4 := i / 256 % 4
  let n16a := i / 1024 % 16
  let nb := i / 16384 % (n / 256)
  let kb := i / (16384 * (n / 256)) % (k / 64)
  let expert := i / (n * k)
  (expert * n + nb * 256 + n16a * 16 + n16b) * (k / 2) + kb * 32 + k4 * 8 + k16 / 2

/-- `_unpack_raw_int4_pack5` -/
def unpackRawInt4Pack5 (packed : Bytes) (size n k block : Nat) (out : Nat → BitVec 8) : Nat → BitVec 8 :=
  launch size block (fun i => decodeNibble packed.dtype (packed.entry (rawByte n k i)) (i % 16 % 2 = 0)) out

def unpackRawInt4Pack5Out (packed out : Bytes) (block : Nat) : Except QuantError (Nat → BitVec 8) := do
  ensure (packed.ndim = 3 ∧ isByte packed.dtype) (.valueError "raw INT4 must be byte [E,N,K/2]")
  let e := packed.size 0
  let n := packed.size 1
  let kh := packed.size 2
  ensure (0 < e ∧ 0 < n ∧ 0 < kh ∧ n % 256 = 0 ∧ kh % 32 = 0) (.valueError "normal PACK5 requires N%256=0 and K%64=0")
  ensure (out.shape = [e, n * kh * 2] ∧ out.dtype = .int8) (.valueError "PACK5 output must be signed INT8 [E,N*K]")
  ensure (packed.contiguous ∧ out.contiguous) (.valueError "raw INT4 and output must be contiguous")
  ensure (packed.device = out.device ∧ packed.device.isCuda) (.valueError "raw INT4 and output must be on the same GPU")
  pure (unpackRawInt4Pack5 packed out.numel n (kh * 2) block out.entry)

/-- The weight part of what `_pack` returns. -/
inductive PackedWeight
  | rawInt4 (weight : Bytes)
  | normalInt4 (packed : Bytes)

/-- The axes of the raw weight in the order of PACK5. -/
def pack5Axes : List Nat := [0, 4, 1, 2, 5, 3, 6]

/-- `_pack`, less the scales themselves. -/
def pack (weight : Bytes) (scaleShape : List Nat) (scaleDevice : Device) (prepack : Bool) :
    Except QuantError PackedWeight := do
  ensure (weight.ndim = 3 ∧ isByte weight.dtype) (.valueError "checkpoint weight must be byte [E,N,K/2]")
  let e := weight.size 0
  let n := weight.size 1
  let kh := weight.size 2
  ensure (0 < e ∧ 0 < n ∧ 0 < kh ∧ n % 256 = 0 ∧ kh % 32 = 0) (.valueError "normal PACK5 requires N%256=0 and K%64=0")
  ensure ((scaleShape = [e, n] ∨ scaleShape = [e, n, 1]) ∧ scaleDevice = weight.device)
    (.valueError "per-channel scale must be [E,N] or [E,N,1] on weight device")
  if prepack then
    pure (.normalInt4
      { shape := [e, n * kh], dtype := weight.dtype, contiguous := true, device := weight.device,
        entry := fun i => weight.entry (Axes.permutePos [e, n / 256, 16, 16, kh / 32, 4, 8] pack5Axes i) })
  else
    pure (.rawInt4 weight)

/-! ## repack_ct_int4 -/

/-- `_REPACK_MAX_WORDS` -/
def repackMaxWords : Nat := 1 <<< 20

/-- Byte `byte` of a word: its two nibbles swapped, each sign bit flipped. -/
def repackByte (word : BitVec 32) (byte : Nat) : BitVec 8 :=
  let high := (word.sshiftRight (byte * 8) &&& 15#32) <<< 4
  let low := word.sshiftRight (byte * 8 + 4) &&& 15#32
  ((high ||| low) ^^^ 0x88#32).setWidth 8

/-- The stores of one block, in the order of the loops; `output` is the slice of the result viewed as `(rows, columns, 4)`. -/
def blockStores (words : Nat → Nat → Nat → BitVec 32) (expert row stopRow column stopColumn : Nat) :
    List ((Nat × Nat × Nat) × BitVec 8) :=
  (List.range 4).flatMap fun byte =>
    (List.range (stopRow - row)).flatMap fun r =>
      (List.range (stopColumn - column)).map fun c =>
        ((expert, row + r, column * 4 + (c * 4 + byte)), repackByte (words expert (row + r) (column + c)) byte)

def repackStores (words : Nat → Nat → Nat → BitVec 32) (experts rows columns maxWords : Nat) :
    List ((Nat × Nat × Nat) × BitVec 8) :=
  let columnStep := min columns maxWords
  let rowStep := max 1 (maxWords / columnStep)
  (List.range experts).flatMap fun expert =>
    (strided 0 rows rowStep).flatMap fun row =>
      (strided 0 columns columnStep).flatMap fun column =>
        blockStores words expert row (min (row + rowStep) rows) column (min (column + columnStep) columns)

/-- Entry `(i, j, l)` of a rank-three tensor. -/
def Tensor.at3 {α : Type} (t : Tensor α) (i j l : Nat) : α := t.entry ((i * t.size 1 + j) * t.size 2 + l)

/-- The packed words, and `packed.transpose(1, 2)` where the checkpoint is transposed. -/
def ctWords (packed : Tensor (BitVec 32)) (transposed : Bool) : Nat → Nat → Nat → BitVec 32 :=
  if transposed then fun e r c => packed.at3 e c r else packed.at3

/-- `repack_ct_int4`: the shape of the result and its entries, `empty` being the unset memory of `torch.empty`. -/
def repackCtInt4 (packed : Tensor (BitVec 32)) (transposed : Bool) (empty : Nat × Nat × Nat → BitVec 8) :
    Except QuantError (List Nat × (Nat × Nat × Nat → BitVec 8)) := do
  ensure (packed.dtype = .int32 ∧ packed.ndim = 3) (.valueError "HCU CT W4A8 expects rank-3 packed INT32 weights")
  let words := ctWords packed transposed
  let experts := packed.size 0
  let rows := if transposed then packed.size 2 else packed.size 1
  let columns := if transposed then packed.size 1 else packed.size 2
  let shape := [experts, rows, columns * 4]
  if packed.numel = 0 then
    pure (shape, empty)
  else
    pure (shape, scatter empty (repackStores words experts rows columns repackMaxWords))

end VllmHcu.Quant
