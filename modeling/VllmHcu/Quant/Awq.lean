import VllmHcu.Lib.Nibbles
import VllmHcu.Lib.Result
import Mathlib.Data.Rat.Defs
import Mathlib.Algebra.BigOperators.Group.List.Basic

/-!
# Conversion of AutoAWQ tensors to the LightOp layout

A tensor is its shape and its entries by flat row-major position.

`convert_awq_to_lightop_layout` of `lightop_autoawq.py`. An fp16 entry is its
bit pattern.
-/

namespace VllmHcu.Quant

inductive DType
  | int8
  | uint8
  | int32
  | float16
  | other
deriving DecidableEq

inductive Device
  | cpu
  | cuda (index : Nat)
deriving DecidableEq

def Device.isCuda : Device → Bool
  | .cpu => false
  | .cuda _ => true

structure Tensor (α : Type) where
  shape : List Nat
  dtype : DType
  entry : Nat → α

def Tensor.ndim {α : Type} (t : Tensor α) : Nat := t.shape.length

def Tensor.size {α : Type} (t : Tensor α) (axis : Nat) : Nat := t.shape.getD axis 0

def Tensor.numel {α : Type} (t : Tensor α) : Nat := t.shape.prod

/-- Same shape and same entries. -/
def Tensor.Same {α : Type} (t t' : Tensor α) : Prop :=
  t.shape = t'.shape ∧ ∀ i < t.shape.prod, t.entry i = t'.entry i

/-- A tensor with the placement that the kernels check. -/
structure Placed (α : Type) extends Tensor α where
  contiguous : Bool
  device : Device

inductive QuantError
  | valueError (message : String)
  | typeError (message : String)

/-- `_AWQ_PACK_ORDER` -/
def awqPackOrder : List Nat := [0, 4, 1, 5, 2, 6, 3, 7]

/-- `shifts = torch.tensor(_AWQ_PACK_ORDER) * 4` -/
def shifts : List Nat := awqPackOrder.map (· * 4)

def shift (i : Nat) : Nat := shifts.getD i 0

/-! ## Integers as fp16 -/

/-- Division with ties to even. -/
def divHalfEven (m d : Nat) : Nat :=
  let q := m / d
  let r := m % d
  if 2 * r < d then q else if d < 2 * r then q + 1 else q + q % 2

/-- Bits of `m.to(torch.float16)`, `m` not negative: rounded to eleven digits, infinity from 65520 on. -/
def float16Magnitude (m : Nat) : Nat :=
  if m = 0 then 0
  else
    let e := m.log2
    let q := if e ≤ 10 then m * 2 ^ (10 - e) else divHalfEven m (2 ^ (e - 10))
    min 0x7C00 ((e + 15) * 1024 + (q - 1024))

/-- `v.to(torch.float16)` of an integer. -/
def toFloat16 (v : Int) : BitVec 16 :=
  BitVec.ofNat 16 (float16Magnitude v.natAbs + if v < 0 then 0x8000 else 0)

/-- The number a finite fp16 bit pattern stands for. -/
def float16Value (b : BitVec 16) : Rat :=
  let exponent := b.toNat / 1024 % 32
  let fraction := b.toNat % 1024
  let magnitude : Rat :=
    if exponent = 0 then (fraction : Rat) / 2 ^ 24 else ((1024 + fraction : Nat) : Rat) * 2 ^ exponent / 2 ^ 25
  if b.toNat < 0x8000 then magnitude else -magnitude

/-! ## convert_awq_to_lightop_layout -/

/-- `((words.unsqueeze(-1) >> shifts) & 0xF).reshape(rows, n)` -/
def logical (words : Nat → BitVec 32) : Nat → BitVec 32 :=
  fun i => (words (i / 8)).sshiftRight (shift (i % 8)) &&& 15#32

/-- `x.T.contiguous()` of a tensor of shape `(rows, cols)`. -/
def transpose {α : Type} (rows cols : Nat) (x : Nat → α) : Nat → α :=
  fun i => x (i % rows * cols + i / rows)

/-- `torch.sum((x.reshape(n, k // 8, 8) & 0xF) << shifts, dim=2, dtype=torch.int32)` -/
def packRows (x : Nat → BitVec 32) : Nat → BitVec 32 :=
  fun i => ((List.range 8).map fun lane => (x (i * 8 + lane) &&& 15#32) <<< shift lane).sum

/-- `torch.stack((zeros, scales), dim=-1).view(torch.int32).squeeze(-1)`: the first of a pair is the low half. -/
def viewPairs (zeros scales : Nat → BitVec 16) : Nat → BitVec 32 :=
  fun i => scales i ++ zeros i

def convertAwqToLightopLayout (qweight qzeros : Tensor (BitVec 32)) (scales : Tensor (BitVec 16)) (groupSize : Int) :
    Except QuantError (Tensor (BitVec 32) × Tensor (BitVec 32)) := do
  ensure (qweight.ndim = 2 ∧ qzeros.ndim = 2 ∧ scales.ndim = 2)
    (.valueError "AutoAWQ qweight, qzeros, and scales must be rank two")
  ensure (qweight.dtype = .int32 ∧ qzeros.dtype = .int32)
    (.typeError "AutoAWQ packed weights and zero points must be int32")
  ensure (0 < groupSize) (.valueError "AutoAWQ group size must be positive")
  let k := qweight.size 0
  let nPacked := qweight.size 1
  let n := nPacked * 8
  ensure (k % 8 = 0 ∧ (k : Int) % groupSize = 0)
    (.valueError "AutoAWQ K must be divisible by 8 and group size")
  let expectedGroups := ((k : Int) / groupSize).toNat
  ensure (qzeros.shape = [expectedGroups, nPacked]) (.valueError "AutoAWQ qzeros shape does not match qweight")
  ensure (scales.shape = [expectedGroups, n]) (.valueError "AutoAWQ scales shape does not match qweight")
  let logicalWeight := logical qweight.entry
  let weightTrans := packRows (transpose k n logicalWeight)
  let logicalZeros := logical qzeros.entry
  let zeros : Nat → BitVec 16 := fun i => toFloat16 (logicalZeros i + 64#32).toInt
  let scalesZeros := transpose expectedGroups n (viewPairs zeros scales.entry)
  pure (⟨[n, k / 8], .int32, weightTrans⟩, ⟨[n, expectedGroups], .int32, scalesZeros⟩)

/-! ## What a packed tensor stands for -/

/-- Entry `(row, col)` of the matrix that `words` packs along its rows of `cols` entries, in AWQ nibble order. -/
def awqDecode (words : Nat → BitVec 32) (cols row col : Nat) : BitVec 4 :=
  Nibbles.nibble (awqPackOrder.getD (col % 8) 0) (words (row * (cols / 8) + col / 8))

end VllmHcu.Quant
