import Mathlib.Data.Nat.Size
import Mathlib.Logic.Function.Iterate
import VllmHcu.Lib.Interleave

/-!
# PLE short convolution

A dilated convolution over the tokens of a request. A slot of the state keeps the
last inputs of its request, and after a chunk of drafts one window for every
number of drafts that can be accepted. A value is that of one channel.
-/

namespace VllmHcu.Ple

inductive ConvMode
  | decode
  | spec
  | prefill
deriving DecidableEq

structure ConvShape where
  kernelSize : Nat
  dilation : Nat
  specQueryLen : Nat
  -- `conv_state.shape[2]`
  window : Nat
  nullBlockId : Nat

def ConvShape.stateLen (shape : ConvShape) : Nat := (shape.kernelSize - 1) * shape.dilation

/-- An entry of `conv_state`: a slot and an index in its window. -/
abbrev StateAddr := Nat × Nat

/-- The arguments of `ple_conv`. -/
structure ConvCall (α : Type) where
  mode : ConvMode
  inputs : List α
  stateIndices : List Nat
  queryStartLoc : List Nat := []
  numAcceptedTokens : List Int := []
  hasInitialStates : Option (List Bool) := none
  tokenIndices : Option (List Nat) := none

namespace ConvCall

variable {α : Type}

def numTokens (c : ConvCall α) : Nat := (c.tokenIndices.map (·.length)).getD c.inputs.length

def numReqs (c : ConvCall α) : Nat :=
  match c.mode with
  | .decode => c.numTokens
  | .spec => c.stateIndices.length
  | .prefill => c.stateIndices.length

def qsl (c : ConvCall α) (r : Nat) : Nat := c.queryStartLoc.getD r 0

def slot (c : ConvCall α) (r : Nat) : Nat := c.stateIndices.getD r 0

/-- `token_idx_ptr` where there is a token map. -/
def token (c : ConvCall α) (t : Nat) : Nat := (c.tokenIndices.map (·.getD t 0)).getD t

/-! ## The request of a token -/

/-- One round of the binary search for the first row that starts after `t`. -/
def searchRound (c : ConvCall α) (t : Nat) (range : Nat × Nat) : Nat × Nat :=
  let mid := (range.1 + range.2) / 2
  let qmid := if mid ≤ c.numReqs then c.qsl mid else 0
  if qmid ≤ t then (mid + 1, range.2) else (range.1, mid)

def binarySearchIters (c : ConvCall α) : Nat := (max c.numReqs 1).size

def findRow (c : ConvCall α) (t : Nat) : Nat :=
  min (((c.searchRound t)^[c.binarySearchIters] (1, c.numReqs + 1)).1 - 1) (c.numReqs - 1)

/-- The row of a token, where it starts, and whether the token is one of a request. -/
def rowOf (c : ConvCall α) (t : Nat) : Nat × Nat × Bool :=
  match c.mode with
  | .decode => (t, t, true)
  | _ => (c.findRow t, c.qsl (c.findRow t), t < c.qsl c.numReqs)

/-- Where the window of the last accepted token starts. -/
def slotOff (shape : ConvShape) (c : ConvCall α) (r : Nat) : Nat :=
  match c.mode with
  | .spec => (min (max (c.numAcceptedTokens.getD r 0 - 1) 0) (shape.specQueryLen - 1)).toNat
  | _ => 0

section
variable [Zero α]

def input (c : ConvCall α) (t : Nat) : α := c.inputs.getD (c.token t) 0

/-! ## `_ple_conv_kernel` -/

def hasInit (shape : ConvShape) (c : ConvCall α) (r : Nat) : Bool :=
  match c.mode, c.hasInitialStates with
  | .spec, _ => c.slot r ≠ shape.nullBlockId
  | _, some hasInit => c.slot r ≠ shape.nullBlockId && hasInit.getD r false
  | _, none => c.slot r ≠ shape.nullBlockId

/-- The tap `k` of the token `t`. -/
def tapSource (shape : ConvShape) (c : ConvCall α) (t k : Nat) : MemSource StateAddr α :=
  let (r, qStart, inRange) := c.rowOf t
  let stateOk : Bool := c.slot r ≠ shape.nullBlockId
  let readState := stateOk && (c.mode = .spec || c.hasInit shape r)
  let outOk := inRange && (c.mode = .spec || stateOk)
  let h := t - qStart + shape.dilation * k
  if h < shape.stateLen then
    if readState then .from (c.slot r, h + c.slotOff shape r) else .value 0
  else .value (if outOk then c.input (qStart + h - shape.stateLen) else 0)

/-- Entry `i` of the state after a decode: the state moves by one, and the input is its last entry. -/
def decodeSource (shape : ConvShape) (c : ConvCall α) (t i : Nat) : MemSource StateAddr α :=
  if i + 1 < shape.stateLen then
    if c.hasInit shape t then .from (c.slot t, i + 1) else .value 0
  else .value (if c.slot t ≠ shape.nullBlockId then c.input t else 0)

def convProgram (shape : ConvShape) (c : ConvCall α) (t : Nat) : List (MemOp StateAddr α) :=
  readOps (c.tapSource shape t) shape.kernelSize ++
    if c.mode = .decode then
      moveOps shape.kernelSize (c.decodeSource shape t) (fun i => (c.slot t, i))
        (fun _ => c.slot t ≠ shape.nullBlockId) shape.stateLen
    else []

/-! ## `_ple_conv_writeback_kernel` -/

def qlen (c : ConvCall α) (r : Nat) : Nat := c.qsl (r + 1) - c.qsl r

def doWrite (shape : ConvShape) (c : ConvCall α) (r i : Nat) : Bool :=
  c.mode ≠ .spec || i + 1 < shape.stateLen + c.qlen r

def writebackSource (shape : ConvShape) (c : ConvCall α) (r i : Nat) : MemSource StateAddr α :=
  let shift := if c.mode = .spec then 1 else c.qlen r
  let m := shift + i
  let srcOk := c.mode = .spec || c.hasInit shape r
  if m < shape.stateLen then
    if srcOk then .from (c.slot r, c.slotOff shape r + m) else .value 0
  else .value (if c.doWrite shape r i then c.input (c.qsl r + m - shape.stateLen) else 0)

/-- `STATE_WIDTH` -/
def stateWidth (shape : ConvShape) (c : ConvCall α) : Nat :=
  shape.stateLen + (if c.mode = .spec then shape.specQueryLen else 1) - 1

def writebackProgram (shape : ConvShape) (c : ConvCall α) (r : Nat) : List (MemOp StateAddr α) :=
  if c.slot r = shape.nullBlockId then []
  else if c.mode ≠ .spec ∧ c.qlen r = 0 then []
  else
    moveOps 0 (c.writebackSource shape r) (fun i => (c.slot r, i)) (c.doWrite shape r)
      (if c.mode = .spec then c.stateWidth shape else shape.stateLen)

/-! ## `ple_conv` -/

/-- A launch: its programs run in the order of the schedule, to their end. -/
def launch (numPrograms : Nat) (program : Nat → List (MemOp StateAddr α)) (state : StateAddr → α) (schedule : List Nat) :
    Option (Machine Nat StateAddr α) :=
  (runFrom Machine.step (Machine.start (fun p => if p < numPrograms then program p else []) (state, fun _ => 0))
    schedule).filter fun m => (List.range numPrograms).all fun p => (m.todo p).isEmpty

end

end ConvCall

/-- What a call leaves: the taps of every token, the state, and the operations of its launches. -/
structure ConvOutput (α : Type) where
  taps : Nat → Nat → α
  state : StateAddr → α
  launches : List (List (MemOp StateAddr α))

section
variable {α : Type} [Zero α]

def pleConv (shape : ConvShape) (c : ConvCall α) (state : StateAddr → α) (schedule writeback : List Nat) :
    Option (ConvOutput α) :=
  if shape.window < c.stateWidth shape then none
  else
    (ConvCall.launch c.numTokens (c.convProgram shape) state schedule).bind fun conv =>
      if c.mode = .decode then some ⟨conv.regs, conv.mem, [conv.history.map (·.2)]⟩
      else
        (ConvCall.launch c.numReqs (c.writebackProgram shape) conv.mem writeback).map fun back =>
          ⟨conv.regs, back.mem, [conv.history.map (·.2), back.history.map (·.2)]⟩

/-! ## `_short_conv_dilated_dispatch` -/

structure ConvMetadata where
  numActualTokens : Nat
  numPrefills : Nat
  numDecodes : Nat
  numPrefillTokens : Nat
  numDecodeTokens : Nat
  -- `spec_sequence_masks is not None`
  hasSpec : Bool
  numSpecDecodes : Nat
  specTokenIndx : Option (List Nat)
  nonSpecTokenIndx : Option (List Nat)
  specStateIndices : Option (List Nat)
  specQueryStartLoc : Option (List Nat)
  numAcceptedTokens : Option (List Int)
  stateIndices : Option (List Nat)
  queryStartLocP : Option (List Nat)
  hasInitialStatesD : Option (List Bool)
  hasInitialStatesP : Option (List Bool)

namespace ConvMetadata

def hasNonSpec (md : ConvMetadata) : Bool := 0 < md.numPrefills || 0 < md.numDecodes

/-- The call for the drafts; the asserts that fail give nothing. -/
def specCall (md : ConvMetadata) (inputs : List α) : Option (ConvCall α) :=
  match md.specStateIndices, md.specQueryStartLoc, md.numAcceptedTokens with
  | some indices, some queryStartLoc, some numAcceptedTokens =>
    if md.hasNonSpec && (md.specTokenIndx.isNone || md.nonSpecTokenIndx.isNone) then none
    else some {
      mode := .spec, inputs, stateIndices := indices.take md.numSpecDecodes, queryStartLoc, numAcceptedTokens,
      tokenIndices := if md.hasNonSpec then md.specTokenIndx else none }
  | _, _, _ => none

def nonSpecCalls (md : ConvMetadata) (inputs : List α) : Option (List (ConvCall α)) :=
  let tokenIndices := if md.hasSpec then md.nonSpecTokenIndx else none
  match md.stateIndices with
  | none => none
  | some indices =>
    if 0 < md.numPrefills then
      -- `torch.split` checks the sizes
      if indices.length ≠ md.numDecodes + md.numPrefills then none
      else if (tokenIndices.map (·.length)).getD inputs.length ≠ md.numDecodeTokens + md.numPrefillTokens then none
      else
        let split := tokenIndices.isNone
        let decode : ConvCall α := {
          mode := .decode, inputs := if split then inputs.take md.numDecodeTokens else inputs,
          stateIndices := indices.take md.numDecodes, hasInitialStates := md.hasInitialStatesD,
          tokenIndices := tokenIndices.map (·.take md.numDecodeTokens) }
        match md.queryStartLocP, md.hasInitialStatesP with
        | some queryStartLoc, some hasInitialStates =>
          let prefill : ConvCall α := {
            mode := .prefill, inputs := if split then inputs.drop md.numDecodeTokens else inputs,
            stateIndices := indices.drop md.numDecodes, queryStartLoc, hasInitialStates := some hasInitialStates,
            tokenIndices := tokenIndices.map (·.drop md.numDecodeTokens) }
          some ((if 0 < md.numDecodes then [decode] else []) ++ [prefill])
        | _, _ => none
    else
      let rows := (tokenIndices.map (·.length)).getD inputs.length
      some [{ mode := .decode, inputs, stateIndices := indices.take rows, hasInitialStates := md.hasInitialStatesD,
              tokenIndices }]

def dispatch (md : ConvMetadata) (inputs : List α) : Option (List (ConvCall α)) :=
  let inputs := inputs.take md.numActualTokens
  let spec := if md.hasSpec then (md.specCall inputs).map ([·]) else some []
  let nonSpec := if md.hasNonSpec then md.nonSpecCalls inputs else some []
  spec.bind fun spec => nonSpec.map (spec ++ ·)

end ConvMetadata

end

end VllmHcu.Ple
