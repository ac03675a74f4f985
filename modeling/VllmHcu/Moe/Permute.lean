import Mathlib.Data.Nat.Log
import VllmHcu.Lib.Counters
import VllmHcu.Lib.Result
import VllmHcu.Lib.Scatter
import VllmHcu.Lib.Stride

/-!
# Permuting tokens into expert slices

`deepgemm_moe_permute` sizes a workspace, gives each local expert an aligned
slice of it and copies each token to a row of every local expert it is routed
to. The rows of a slice are reserved by atomic adds. `deepgemm_unpermute_and_reduce`
reads the rows back through the index that the scatter wrote. Where a row starts
is a product of 32-bit integers in the gather, of 64-bit ones for the rows that
the scatter stores.
-/

namespace VllmHcu.Moe

/-- `topk_ids` and the expert map that both kernels apply. -/
structure Routing where
  numTokens : Nat
  numTopk : Nat
  topkIds : Nat → Nat → Int
  expertMap : Option (Int → Int)
  localNumExperts : Nat

namespace Routing

def applyExpertMap (expertMap : Option (Int → Int)) (expertId : Int) : Int :=
  match expertMap with
  | none => expertId
  | some load => if expertId ≠ -1 then load expertId else expertId

variable (r : Routing)

def expertId (token k : Nat) : Int := applyExpertMap r.expertMap (r.topkIds token k)

/-- The choices of a token that a local expert takes. -/
def validTopk (token : Nat) : List Nat := (List.range r.numTopk).filter fun k => 0 ≤ r.expertId token k

/-- The local expert of a valid choice. -/
def expertOf (p : Nat × Nat) : Nat := (r.expertId p.1 p.2).toNat

end Routing

/-! ## Capacity -/

/-- The counts that a dispatch has attached, by expert, with the tags of the layouts that it vouches for. -/
structure ExpertTokensMeta where
  expertNumTokens : Nat → Nat
  expertNumTokensCpu : Option (List Int)
  deepepHtLayout : Option (Nat × Nat × Nat × Nat)
  step5CompactRows : Bool

/-- What the sizes depend on beside the call. -/
structure Device where
  isRocm : Bool
  exactLayoutEnabled : Bool
  /-- `get_theoretical_mk_alignment_for_contiguous_layout`, by the expected rows and the groups -/
  theoreticalAlignment : Nat → Nat → Option Nat

def hcuTokenAlignment : Nat := 256

/-- `(counts + (alignment - 1)) // alignment * alignment`, summed. -/
def roundUpAndSum (counts : List Int) (alignment : Nat) : Int :=
  (counts.map fun c => (c + ((alignment : Int) - 1)) / alignment * alignment).sum

/-- A tagged layout of the same shape, where exact layouts are enabled. -/
def exactLayout (dev : Device) (m numTopk localNumExperts alignment : Nat) (md : Option ExpertTokensMeta) : Option Nat :=
  match md.bind (·.deepepHtLayout) with
  | some (m', k', e', rows) =>
    if dev.exactLayoutEnabled ∧ alignment = hcuTokenAlignment ∧ m' = m ∧ k' = numTopk ∧ e' = localNumExperts then
      some rows
    else none
  | none => none

def rocmAlignedM (m numTopk localNumExperts alignment : Nat) (md : Option ExpertTokensMeta) : Except String Int :=
  let upper : Int := roundUp (m * numTopk + localNumExperts * (alignment - 1)) alignment
  match md with
  | none => .ok upper
  | some md =>
    match md.expertNumTokensCpu with
    | none => .ok upper
    | some counts => do
      let metaSum := roundUpAndSum counts alignment
      if md.step5CompactRows then
        ensure (counts.length = localNumExperts ∧ ∀ c ∈ counts, 0 ≤ c) "Invalid post-dispatch Step5 expert counts"
        return max (alignment : Int) metaSum
      else return max upper metaSum

/-- The rows of the workspace and the alignment of its slices. -/
def computeAlignedM (dev : Device) (m numTopk localNumExperts alignment : Nat) (md : Option ExpertTokensMeta) :
    Except String (Int × Nat) :=
  if dev.isRocm then
    let alignment := max alignment hcuTokenAlignment
    match exactLayout dev m numTopk localNumExperts alignment md with
    | some rows => .ok (rows, alignment)
    | none => (rocmAlignedM m numTopk localNumExperts alignment md).map (·, alignment)
  else
    match md.bind (·.expertNumTokensCpu) with
    | some counts => .ok (roundUpAndSum counts alignment, alignment)
    | none =>
      let alignment := match dev.theoreticalAlignment (m * numTopk) localNumExperts with
        | some perCall => if 0 < perCall ∧ perCall ≤ alignment then perCall else alignment
        | none => alignment
      let maxActiveExperts := min (m * numTopk) localNumExperts
      .ok (roundUp (m * numTopk + maxActiveExperts * (alignment - 1)) alignment, alignment)

/-! ## Addresses -/

/-- A matrix in memory: its columns and the elements from one row to the next. -/
structure MatrixRows where
  cols : Nat
  stride0 : Nat
  cols_le : cols ≤ stride0

def MatrixRows.at (m : MatrixRows) (row col : Nat) : Nat := row * m.stride0 + col

/-- A 32-bit index times a stride. A stride that fits 32 bits is passed to the kernel as such, and the product wraps. -/
def kernelMul (index : Int) (stride0 : Nat) : Int :=
  if stride0 < 2 ^ 31 then Int.bmod (index * stride0) (2 ^ 32) else index * stride0

/-! ## Scatter -/

section
variable (numExperts alignM : Nat) (numRecvTokens : Nat → Nat)

/-- The rounded counts by lane; the lanes past the experts are masked. -/
def roundedCount (lane : Nat) : Nat := roundUp (if lane < numExperts then numRecvTokens lane else 0) alignM

/-- `tl.cumsum(tokens) - tokens` -/
def laneCumsum (lane : Nat) : Nat :=
  ((List.range (lane + 1)).map (roundedCount numExperts alignM numRecvTokens)).sum -
    roundedCount numExperts alignM numRecvTokens lane

/-- The start that the program of an expert picks out of all `blockExpertNum` lanes. -/
def expertStart (blockExpertNum curExpert : Nat) : Nat :=
  ((List.range blockExpertNum).map fun lane =>
    if lane = curExpert then laneCumsum numExperts alignM numRecvTokens lane else 0).sum

/-- The rows of `m_indices` that the program of an expert fills, tile by tile. -/
def filledRows (blockE blockExpertNum curExpert : Nat) : List (Nat × Int) :=
  ((strided 0 (numRecvTokens curExpert) blockE).flatMap fun startM =>
    (List.range' startM blockE).filter (· < numRecvTokens curExpert)).map fun off =>
      (expertStart numExperts alignM numRecvTokens blockExpertNum curExpert + off, (curExpert : Int))

end

/-- `triton.next_power_of_2` -/
def nextPowerOf2 (n : Nat) : Nat := 2 ^ Nat.clog 2 n

def blockE : Nat := 128

/-- The choices that one program of the copy kernel reserves rows for, in its order. -/
def programPairs (r : Routing) (gridNum program : Nat) : List (Nat × Nat) :=
  (strided program r.numTokens gridNum).flatMap fun token => (r.validTopk token).map (token, ·)

/-- Those of all programs. -/
def scatterPairs (r : Routing) : List (Nat × Nat) :=
  (List.range (min r.numTokens 8192)).flatMap (programPairs r (min r.numTokens 8192))

/-- What the scatter leaves: the expert of each row, the index of each choice and the elements of the output. -/
structure Scattered (α : Type) where
  mIndices : Nat → Int
  outputIndex : Nat × Nat → Int
  output : Nat → α

section
variable {α : Type} (r : Routing) (alignM : Nat) (numRecvTokens : Nat → Nat)

def startLoc (expert : Nat) : Nat :=
  expertStart r.localNumExperts alignM numRecvTokens (nextPowerOf2 r.localNumExperts) expert

/-- The reserved rows, for the atomic adds in the order `order`. -/
def reserved (order : List (Nat × Nat)) : List ((Nat × Nat) × Nat) :=
  handOut r.expertOf (startLoc r alignM numRecvTokens) order

/-- The stores of a token into a row of the output: the loads are at a 32-bit product, the row is converted to 64 bits. -/
def copyRow (recv out : MatrixRows) (recvX : Int → α) (token dest : Nat) : List (Nat × α) :=
  (List.range recv.cols).map fun col => (out.at dest col, recvX (kernelMul token recv.stride0 + col))

/-- `ep_scatter` for the programs of the fill kernel in the order `experts`. -/
def epScatter (recv out : MatrixRows) (recvX : Int → α) (experts : List Nat) (order : List (Nat × Nat)) (before : Scattered α) :
    Scattered α where
  mIndices := scatter before.mIndices (experts.flatMap
    (filledRows r.localNumExperts alignM numRecvTokens blockE (nextPowerOf2 r.localNumExperts)))
  outputIndex := scatter before.outputIndex ((reserved r alignM numRecvTokens order).map fun p => (p.1, (p.2 : Int)))
  output := scatter before.output ((reserved r alignM numRecvTokens order).flatMap fun p =>
    copyRow recv out recvX p.1.1 p.2)

end

/-! ## Permute and unpermute -/

/-- The expert counts that the scatter is given. `counted` is what `count_expert_num_tokens` finds. -/
def scatterCounts (dev : Device) (md : Option ExpertTokensMeta) (counted : Nat → Nat) : Nat → Nat :=
  if dev.isRocm then counted
  else match md with
    | some md => md.expertNumTokens
    | none => counted

/-- The rows of the workspace, the alignment and what the scatter leaves in it. -/
def deepgemmMoePermute {α : Type} (dev : Device) (r : Routing) (blockM : Nat) (md : Option ExpertTokensMeta)
    (counted : Nat → Nat) (aq aqOut : MatrixRows) (recvX : Int → α) (experts : List Nat) (order : List (Nat × Nat))
    (before : Scattered α) : Except String (Int × Nat × Scattered α) := do
  let size ← computeAlignedM dev r.numTokens r.numTopk r.localNumExperts blockM md
  ensure (aqOut.cols = aq.cols) "aq_out is None or aq_out.shape == (M_sum, H)"
  ensure (size.1 % (size.2 : Int) = 0) "m_indices.shape[0] % align_m == 0"
  return (size.1, size.2,
    epScatter r size.2 (scatterCounts dev md counted) aq aqOut recvX experts order { before with mIndices := fun _ => -1 })

def blockD (hiddenSize : Nat) : Nat := min hiddenSize 1024

/-- The elements that the gather loads for a choice, block by block. -/
def gatherLoads (a : MatrixRows) (sourceTokenIndex : Int) : List Int :=
  (List.range (cdiv a.cols (blockD a.cols))).flatMap fun curBlock => (List.range (blockD a.cols)).map fun offD =>
    kernelMul sourceTokenIndex a.stride0 + (curBlock * blockD a.cols + offD : Nat)

/-- The loads of the gather for a token, choice by choice. -/
def gatherRows (r : Routing) (a : MatrixRows) (inputIndex : Nat × Nat → Int) (token : Nat) : List (Nat × List Int) :=
  (r.validTopk token).map fun k => (k, gatherLoads a (inputIndex (token, k)))

/-- `ep_gather` as far as the loads: for each token those of its choices. -/
def epGather (r : Routing) (a : MatrixRows) (inputIndex : Nat × Nat → Int) : Except String (Nat → List (Nat × List Int)) := do
  ensure (a.cols % blockD a.cols = 0) "hidden_size % BLOCK_D == 0"
  return gatherRows r a inputIndex

end VllmHcu.Moe
