import VllmHcu.Mooncake.Sender

/-!
# Transfer regions

A registered KV tensor is one transfer region, or two where K and V are split.
The regions of the two sides are aligned by layer, their lengths checked against
the TP ratio, and the blocks of a request turned into descriptors, region by
region. `RegionTransfer.plan` is the part that the sender loop calls.
-/

namespace VllmHcu.Mooncake

structure TransferRegion where
  layerName : String
  layerIndex : Int
  baseAddr : Nat
  blockLen : Nat
  kvBlockLen : Nat
  groupIndex : Int := 0
  numBlocks : Option Nat := none

/-! ## Expansion -/

/-- The metadata of one side. -/
structure RegionMetadata where
  baseAddrs : List Int
  blockLens : List Int
  kvBlockLens : List Int
  layerNames : List String
  layerIndices : List Int
  isKvLayoutBlocksFirst : Bool := false
  groupIndices : Option (List Int) := none
  splitKvRegions : Option (List Bool) := none
  numBlocksPerLayer : Option (List Int) := none

def validBlockCapacities (counts : List Int) (regionCount : Nat) : Bool :=
  counts.length == regionCount && counts.all (0 < ·)

/-- One round of the loop: the checks of a tensor and its regions. -/
def expandEntry : Int × Int × Int × String × Int × Int × Bool × Option Int → Except String (List TransferRegion)
  | (baseAddr, blockLen, kvBlockLen, layerName, layerIndex, groupIndex, splitKvRegion, numBlocks) =>
    let payloadSpan := kvBlockLen * (if splitKvRegion then 2 else 1)
    if baseAddr ≤ 0 then
      .error s!"Mooncake cache base addresses must be positive; layer={layerName}, base_address={baseAddr}."
    else if blockLen ≤ 0 ∨ kvBlockLen ≤ 0 then
      .error s!"Mooncake block strides and payload lengths must be positive; layer={layerName}, block_stride={blockLen}, payload_length={kvBlockLen}."
    else if payloadSpan > blockLen then
      .error s!"Mooncake KV payload exceeds its physical block stride; layer={layerName}, block_stride={blockLen}, payload_span={payloadSpan}."
    else
      let region : TransferRegion :=
        { layerName, layerIndex, baseAddr := baseAddr.toNat, blockLen := blockLen.toNat
          kvBlockLen := kvBlockLen.toNat, groupIndex, numBlocks := numBlocks.map Int.toNat }
      .ok (if splitKvRegion then [region, { region with baseAddr := (baseAddr + kvBlockLen).toNat }] else [region])

def expandTransferRegions (m : RegionMetadata) : Except String (List TransferRegion) :=
  let n := m.layerNames.length
  if ¬ (m.baseAddrs.length = m.blockLens.length ∧ m.blockLens.length = m.kvBlockLens.length ∧
      m.kvBlockLens.length = n ∧ n = m.layerIndices.length) then
    .error s!"Mooncake transfer regions require matching metadata lengths, got base_addrs={m.baseAddrs.length}, block_lens={m.blockLens.length}, kv_block_lens={m.kvBlockLens.length}, layer_names={n}, layer_indices={m.layerIndices.length}."
  else
    let groupIndices := m.groupIndices.getD (List.replicate n 0)
    let splitKvRegions := m.splitKvRegions.getD (List.replicate n m.isKvLayoutBlocksFirst)
    if groupIndices.length ≠ n then
      .error s!"Mooncake transfer regions require matching group metadata lengths, got group_indices={groupIndices.length}, layer_names={n}."
    else if splitKvRegions.length ≠ n then
      .error s!"Mooncake transfer regions require matching split metadata, got split_kv_regions={splitKvRegions.length}, layer_names={n}."
    else if m.numBlocksPerLayer.any (fun counts => !validBlockCapacities counts n) then
      .error "Mooncake requires one positive block capacity per region."
    else
      -- an empty list of capacities is falsy
      let capacities := match m.numBlocksPerLayer with
        | some (c :: cs) => (c :: cs).map some
        | _ => List.replicate n none
      let entries := m.baseAddrs.zip <| m.blockLens.zip <| m.kvBlockLens.zip <| m.layerNames.zip <|
        m.layerIndices.zip <| groupIndices.zip <| splitKvRegions.zip capacities
      (entries.mapM expandEntry).map List.flatten

/-! ## Alignment -/

/-- `keyed_regions`: a region with its name and its occurrence under that name. -/
def keyedRegions (counts : String → Nat) : List TransferRegion → List ((String × Nat) × TransferRegion)
  | [] => []
  | region :: regions =>
    ((region.layerName, counts region.layerName), region) ::
      keyedRegions (Function.update counts region.layerName (counts region.layerName + 1)) regions

def alignKeyed (remoteByKey : List ((String × Nat) × TransferRegion)) :
    List ((String × Nat) × TransferRegion) → Except String (List TransferRegion × List TransferRegion)
  | [] => .ok ([], [])
  | (key, localRegion) :: rest =>
    match remoteByKey.lookup key with
    | none =>
      .error s!"Mooncake producer registered layer has no matching consumer occurrence: {key.1} occurrence {key.2}."
    | some remoteRegion =>
      if localRegion.layerIndex ≠ remoteRegion.layerIndex then
        .error s!"Mooncake registered layer index mismatch for {localRegion.layerName}: producer={localRegion.layerIndex}, consumer={remoteRegion.layerIndex}."
      else if localRegion.groupIndex ≠ remoteRegion.groupIndex then
        .error s!"Mooncake registered group index mismatch for {localRegion.layerName}: producer={localRegion.groupIndex}, consumer={remoteRegion.groupIndex}."
      else do
        let (alignedLocal, alignedRemote) ← alignKeyed remoteByKey rest
        return (localRegion :: alignedLocal, remoteRegion :: alignedRemote)

def alignTransferRegions (localRegions remoteRegions : List TransferRegion) :
    Except String (List TransferRegion × List TransferRegion) :=
  alignKeyed (keyedRegions (fun _ => 0) remoteRegions) (keyedRegions (fun _ => 0) localRegions)

/-! ## The TP plan -/

/-- What the plan reads of vLLM's transfer topology. -/
structure TransferTopology where
  tpRank : Nat
  tpRatio : Nat → Int

structure TransferPlan where
  shouldTransfer : Bool
  srcRegionOffset : Nat
  dstRegionOffset : Nat
  transferLen : Nat

def computeSenderTransferPlan (topo : TransferTopology) (remoteTpRank remoteTpSize : Nat)
    (localKvBlockLen remoteKvBlockLen : Nat) (producerCacheReplicated : Bool) : TransferPlan :=
  let tpRatio := topo.tpRatio remoteTpSize
  if tpRatio = 1 then ⟨true, 0, 0, localKvBlockLen⟩
  else if 0 < tpRatio then
    let rank := topo.tpRank % tpRatio.toNat
    if producerCacheReplicated then ⟨rank == 0, 0, 0, localKvBlockLen⟩
    else ⟨true, 0, rank * localKvBlockLen, localKvBlockLen⟩
  else if producerCacheReplicated then ⟨true, 0, 0, localKvBlockLen⟩
  else
    let ratioAbs := (-tpRatio).toNat
    ⟨true, remoteTpRank % ratioAbs * remoteKvBlockLen, 0, remoteKvBlockLen⟩

def validateAsymmetricRegionLengths (localRegions remoteRegions : List TransferRegion) (topo : TransferTopology)
    (remoteTpSize : Nat) (producerCacheReplicated : Bool) : Option String :=
  let tpRatio := topo.tpRatio remoteTpSize
  let check : (TransferRegion × TransferRegion) × Nat → Option String := fun ((l, r), idx) =>
    if producerCacheReplicated then
      if l.kvBlockLen ≠ r.kvBlockLen then
        some s!"Mooncake replicated KV region length mismatch at region {idx}: local={l.kvBlockLen}, remote={r.kvBlockLen}."
      else none
    else if tpRatio = 1 then
      if l.kvBlockLen ≠ r.kvBlockLen then
        some s!"Mooncake KV region length mismatch for homogeneous TP at region {idx}: local={l.kvBlockLen}, remote={r.kvBlockLen}."
      else none
    else if 0 < tpRatio then
      if (r.kvBlockLen : Int) ≠ l.kvBlockLen * tpRatio then
        some s!"Mooncake destination KV region length does not match the producer TP ratio at region {idx}: local={l.kvBlockLen}, remote={r.kvBlockLen}, tp_ratio={tpRatio}."
      else none
    else if (l.kvBlockLen : Int) ≠ r.kvBlockLen * -tpRatio then
      some s!"Mooncake source KV region length does not match the consumer TP ratio at region {idx}: local={l.kvBlockLen}, remote={r.kvBlockLen}, tp_ratio={tpRatio}."
    else none
  if localRegions.length ≠ remoteRegions.length then
    some "Mooncake asymmetric TP requires matching KV region counts between producer and consumer."
  else (localRegions.zip remoteRegions).zipIdx.findSome? check

/-! ## Descriptors -/

def canCoalesceBlockTransfers (localRegionBlockLen remoteRegionBlockLen : Nat) (p : TransferPlan) : Bool :=
  p.srcRegionOffset == 0 && p.dstRegionOffset == 0 && p.transferLen == localRegionBlockLen &&
    p.transferLen == remoteRegionBlockLen

/-- The groups that are contiguous on both sides; the lists have one length. -/
def groupConcurrentContiguous (srcIndices dstIndices : List Int) : List (List Int) × List (List Int) :=
  let groups := (srcIndices.zip dstIndices).splitBy fun a b => b.1 - a.1 == 1 && b.2 - a.2 == 1
  (groups.map (·.map Prod.fst), groups.map (·.map Prod.snd))

/-- What a pull fixes for the region loops. -/
structure RegionTransfer where
  topo : TransferTopology
  producerCacheReplicated : Bool
  remoteTpRank : Nat
  remoteTpSize : Nat
  localRegions : List TransferRegion
  remoteRegions : List TransferRegion

namespace RegionTransfer

def senderPlan (x : RegionTransfer) (l r : TransferRegion) : TransferPlan :=
  computeSenderTransferPlan x.topo x.remoteTpRank x.remoteTpSize l.kvBlockLen r.kvBlockLen x.producerCacheReplicated

def coalesces (x : RegionTransfer) (l r : TransferRegion) : Bool :=
  canCoalesceBlockTransfers l.blockLen r.blockLen (x.senderPlan l r)

def descriptor (x : RegionTransfer) (l r : TransferRegion) (localId remoteId : Int) (blocks : Nat) : Int × Int × Nat :=
  (l.baseAddr + localId * l.blockLen + (x.senderPlan l r).srcRegionOffset,
    r.baseAddr + remoteId * r.blockLen + (x.senderPlan l r).dstRegionOffset,
    (x.senderPlan l r).transferLen * blocks)

/-- The descriptors of one region pair. -/
def descriptors (x : RegionTransfer) (l r : TransferRegion) (localIds remoteIds : List Int) : List (Int × Int × Nat) :=
  let (localGroups, remoteGroups) := groupConcurrentContiguous localIds remoteIds
  (localGroups.zip remoteGroups).flatMap fun (localGroup, remoteGroup) =>
    if x.coalesces l r then [x.descriptor l r (localGroup.headD 0) (remoteGroup.headD 0) localGroup.length]
    else (localGroup.zip remoteGroup).map fun (a, b) => x.descriptor l r a b 1

/-- One round of the region loop, with its assertions. -/
def transferRegion (x : RegionTransfer) (locals remotes : List (List Int)) (l r : TransferRegion) :
    Except String (List (Int × Int × Nat)) :=
  let plan := x.senderPlan l r
  if l.groupIndex ≠ r.groupIndex then .error "Aligned Mooncake transfer regions must belong to the same KV group."
  else if ¬ l.groupIndex < locals.length then .error "Transfer region references a missing KV group."
  else
    let localIds := locals.getD l.groupIndex.toNat []
    let remoteIds := remotes.getD l.groupIndex.toNat []
    if localIds.isEmpty then .ok []
    else if !plan.shouldTransfer then .ok []
    else if ¬ plan.srcRegionOffset + plan.transferLen ≤ l.kvBlockLen then
      .error "Computed source transfer region exceeds local KV block size."
    else if ¬ plan.dstRegionOffset + plan.transferLen ≤ r.kvBlockLen then
      .error "Destination transfer region exceeds remote KV block size."
    else .ok (x.descriptors l r localIds remoteIds)

def transferRegions (x : RegionTransfer) (locals remotes : List (List Int)) :
    List (TransferRegion × TransferRegion) → Except String (List (Int × Int × Nat))
  | [] => .ok []
  | (l, r) :: pairs => do
    let ds ← x.transferRegion locals remotes l r
    let rest ← x.transferRegions locals remotes pairs
    return ds ++ rest

/-- The capacity check of one side. -/
def boundsError (side : String) (regions : List TransferRegion) (groups : List (List Int)) : Option String :=
  regions.findSome? fun region =>
    if ¬ (0 ≤ region.groupIndex ∧ region.groupIndex < (groups.length : Int)) then
      some s!"Mooncake {side} region references a missing KV group."
    else
      let maxBlockId := (groups.getD region.groupIndex.toNat []).max?.getD (-1)
      match region.numBlocks with
      | some numBlocks =>
        if (numBlocks : Int) ≤ maxBlockId then
          some s!"Mooncake {side} block ID exceeds region capacity {numBlocks} for {region.layerName}."
        else none
      | none => none

def plan (x : RegionTransfer) (locals remotes : List (List Int)) : RegionPlan :=
  match (boundsError "producer" x.localRegions locals).or (boundsError "consumer" x.remoteRegions remotes) with
  | some msg => .boundsError msg
  | none =>
    match x.transferRegions locals remotes (x.localRegions.zip x.remoteRegions) with
    | .error msg => .raised msg
    | .ok ds => .descriptors ds

/-- The worker whose region loops are those of the pull. -/
def worker {ReqId TransferId : Type} (x : RegionTransfer) (w : Worker ReqId TransferId) : Worker ReqId TransferId :=
  { w with regionPlan := fun _ => x.plan }

end RegionTransfer

end VllmHcu.Mooncake
