import VllmHcu.Pcp.Layout

/-!
# Rank-local batches

`partition_batch` copies the global tokens of a rank's rows into its padded
buffers and marks the replicated decode rows, together with the row each of
them has on rank 0. `_convert_slot_mappings` and `restore_hidden_states` use the
index tensors of the layout.
-/

namespace VllmHcu.Pcp

/-- What the constructor of `HcuPCPManager` fixes, with its assertion on the size. -/
structure HcuPCPManager where
  pcpSize : Nat
  one_lt_pcpSize : 1 < pcpSize
  useMla : Bool
  maxLocalReqs : Nat
  maxLocalTokens : Nat

/-- `PAD_SLOT_ID` of vLLM. -/
def padSlotId : Int := -1

/-- The part of the rank-local `InputBatch` that the cache writes read. `globalToken`
is the global token copied into a padded row (`input_ids`, `positions` and
`is_padding` are all copied with it), `none` on a padding row. -/
structure LocalBatch where
  segments : List BatchSegment
  numTokens : Nat
  numTokensAfterPadding : Nat
  globalToken : Nat → Option Nat
  replicatedTokenMask : Nat → Bool
  replicatedSlotIndices : Nat → Nat

namespace HcuPCPManager
variable (m : HcuPCPManager)

def rank0 : Fin m.pcpSize := ⟨0, Nat.lt_trans Nat.zero_lt_one m.one_lt_pcpSize⟩

def buildBatchLayout (b : InputBatch) (paddedNumTokens : Option Nat) :
    Except String (BatchLayout m.pcpSize) :=
  Pcp.buildBatchLayout m.useMla b m.pcpSize paddedNumTokens

end HcuPCPManager

/-- `rank0_decode_position`: the row of a decode token on rank 0, `none` for the fill value `-1`. -/
def rank0DecodePosition (b : InputBatch) (segs : List BatchSegment) : Nat → Option Nat :=
  segs.foldl (fun pos s =>
    if s.numActualTokens = 0 || b.isPrefilling s.globalReqIdx then pos
    else writeSlice pos s.globalStart ((List.range' s.localStart s.numActualTokens).map some))
    fun _ => none

/-- The body of the loop of `partition_batch` over the local rows. -/
def copyRow (b : InputBatch) (ownerPosition : Nat → Option Nat) (lb : LocalBatch) (s : BatchSegment) :
    Except String LocalBatch :=
  if s.numActualTokens = 0 then .ok lb
  else
    let tokens := List.range' s.globalStart s.numActualTokens
    let lb := { lb with globalToken := writeSlice lb.globalToken s.localStart (tokens.map some) }
    if b.isPrefilling s.globalReqIdx then .ok lb
    else
      let owners := tokens.map ownerPosition
      if owners.any Option.isNone then .error "PCP rank-0 decode slot ownership is incomplete"
      else
        .ok { lb with
          replicatedTokenMask :=
            writeSlice lb.replicatedTokenMask s.localStart (List.replicate s.numActualTokens true)
          replicatedSlotIndices :=
            writeSlice lb.replicatedSlotIndices s.localStart (owners.map (·.getD 0)) }

/-- The local rows of a rank: one empty row when the rank has none. -/
def localSegments (segs : List BatchSegment) : List BatchSegment :=
  if segs.isEmpty then [{ globalReqIdx := 0, globalStart := 0, globalStop := 0 }] else segs

def HcuPCPManager.partitionBatch (m : HcuPCPManager) (b : InputBatch) (paddedNumTokens : Option Nat)
    (rank : Fin m.pcpSize) : Except String LocalBatch := do
  let l ← m.buildBatchLayout b paddedNumTokens
  let segs := localSegments (l.segmentsByRank rank)
  if segs.length > m.maxLocalReqs then throw "PCP local request count exceeds its buffer"
  if l.paddedNumTokens > m.maxLocalTokens then throw "PCP local token count exceeds its buffer"
  segs.foldlM (copyRow b (rank0DecodePosition b (l.segmentsByRank m.rank0)))
    { segments := segs
      numTokens := l.perRankNumTokens rank
      numTokensAfterPadding := l.paddedNumTokens
      globalToken := fun _ => none
      replicatedTokenMask := fun _ => false
      replicatedSlotIndices := fun _ => 0 }

/-- One KV-cache group of `_convert_slot_mappings`. -/
def convertSlotMappings {P : Nat} (l : BatchLayout P) (globalSlots : Nat → Int) (v : Nat) : Int :=
  if l.kvWriteMask v then globalSlots (l.paddedGatherIdx v) else padSlotId

/-- `all_gather` along the rows: the ranks' rows in rank order. -/
def allGather {P : Nat} {β : Type*} (rows : Fin P → List β) : List β := (List.finRange P).flatMap rows

/-- `restore_hidden_states`: entry `t` is the gathered row that `hidden_restore_idx` names. -/
def restoreHiddenStates {P : Nat} {β : Type*} (l : BatchLayout P) (b : InputBatch)
    (hiddenStates : Fin P → List β) : List (Option β) :=
  (List.range b.numTokens).map fun t =>
    (l.hiddenRestoreIdx t).bind fun v => (allGather hiddenStates)[v]?

end VllmHcu.Pcp
