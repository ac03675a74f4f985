import VllmHcu.Pcp.Partition

/-!
# Gathering cache inputs

`_gather_prefill_cache_inputs` on every rank at once: the tensors of all ranks
are arguments because `all_gather` reads them. A row of `tensors` stands for the
rows of all the tensors of the tuple at that position. A failed assertion is an
error with the assertion's text.
-/

namespace VllmHcu.Pcp

/-- The attributes of the attention metadata that the gather reads. -/
structure CacheMetadata where
  pcpHasGlobalPrefill : Option Bool := none
  numActualTokens : Option Nat := none
  pcpWorldSize : Nat
  numDecodeTokens : Option Nat
  pcpReplicatedTokenMask : Option (List Bool) := none
  pcpReplicatedSlotIndices : Option (List Nat) := none
  pcpTokenCounts : Option (List Nat) := none

def assertThat (c : Bool) (msg : String) : Except String Unit := if c then .ok () else .error msg

/-- Boolean indexing `xs[mask]`. -/
def select {α : Type*} (mask : List Bool) (xs : List α) : List α :=
  ((xs.zip mask).filter (·.2)).map (·.1)

/-- Row `r` of `slots.view(world_size, width)`. -/
def rankSlots (width : Nat) (slots : List Int) (r : Nat) : List Int := (slots.drop (r * width)).take width

def lookupAll (slots : List Int) (idx : List Nat) : Except String (List Int) :=
  idx.mapM fun i => match slots[i]? with
    | some s => .ok s
    | none => .error "index out of range"

/-- `_rank_slot_slice`. -/
def rankSlotSlice (slots : List Int) (localNumTokens : Nat) (md : CacheMetadata) (worldSize rank : Nat) :
    Except String (List Int) :=
  match md.pcpTokenCounts with
  | none => do
    assertThat (slots.length == worldSize * localNumTokens)
      "PCP cache inputs require one equal-width slot segment per rank"
    return rankSlots localNumTokens slots rank
  | some counts => do
    assertThat (counts.length == worldSize) "PCP token counts must contain one entry per rank"
    assertThat (counts[rank]? == some localNumTokens)
      "PCP local tensor length does not match its token count"
    assertThat (slots.length == counts.sum)
      "PCP gathered slot mapping length does not match token counts"
    return (slots.drop (counts.take rank).sum).take localNumTokens

section
variable {P : Nat} {β : Type}

/-- The ownership-aware branch on `rank`, its shape assertions passed. -/
def gatherOwned (tensors : Fin P → List β) (masks : Fin P → List Bool) (slotIndices : List Nat)
    (slots : List Int) (rank : Fin P) : Except String (List β × List Int) := do
  let width := (tensors rank).length
  let mask := masks rank
  let gathered := allGather fun r => select ((masks r).map (!·)) (tensors r)
  let replicated ← lookupAll (rankSlots width slots 0) (select mask slotIndices)
  return (select mask (tensors rank) ++ gathered,
    replicated ++ (List.finRange P).flatMap fun r : Fin P => select (mask.map (!·)) (rankSlots width slots r))

/-- The branch without an ownership mask: the leading decode rows stay local. -/
def gatherLeading (tensors : Fin P → List β) (localSlots : Fin P → List Int) (slots : List Int)
    (numDecodeTokens : Nat) (rank : Fin P) : List β × List Int :=
  let prefills := allGather fun r => (tensors r).drop numDecodeTokens
  let prefillSlots := allGather fun r => (localSlots r).drop numDecodeTokens
  if numDecodeTokens = 0 then (prefills, prefillSlots)
  else ((tensors rank).take numDecodeTokens ++ prefills, slots.take numDecodeTokens ++ prefillSlots)

def gatherPrefillCacheInputs (tensors : Fin P → List β) (slots : List Int)
    (md : Fin P → Option CacheMetadata) (rank : Fin P) : Except String (List β × List Int) :=
  match md rank with
  | none => .ok (tensors rank, slots)
  | some cm =>
    let width := (tensors rank).length
    if cm.pcpHasGlobalPrefill = some false then do
      let numActual := cm.numActualTokens.getD width
      assertThat (numActual ≤ width) "PCP actual token count is outside the local tensor"
      assertThat (numActual ≤ slots.length)
        "PCP cache slot mapping is shorter than the actual token prefix"
      return ((tensors rank).take numActual, slots.take numActual)
    else if cm.pcpWorldSize = 1 then .ok (tensors rank, slots)
    else
      match cm.numDecodeTokens with
      | none => .ok (tensors rank, slots)
      | some numDecodeTokens => do
        assertThat (numDecodeTokens ≤ width) "PCP decode token count is outside the local tensor"
        match cm.pcpReplicatedTokenMask with
        | some mask =>
          assertThat (mask.length == width) "PCP replicated-token ownership length mismatch"
          match cm.pcpReplicatedSlotIndices with
          | none => throw "PCP replicated-token ownership requires rank-0 slot indices"
          | some idx =>
            assertThat (idx.length == width) "PCP replicated slot index length mismatch"
            assertThat (slots.length == cm.pcpWorldSize * width)
              "PCP ownership-aware cache gather requires exactly one rank-ordered slot segment per PCP rank"
            assertThat (P == cm.pcpWorldSize) "PCP metadata/process-group size mismatch"
            -- every rank selects its own rows with its own mask before the collective
            gatherOwned tensors
              (fun r => ((md r).bind (·.pcpReplicatedTokenMask)).getD []) idx slots rank
        | none =>
          if numDecodeTokens = width then do
            assertThat (numDecodeTokens ≤ slots.length)
              "PCP cache slot mapping is shorter than the decode segment"
            return (tensors rank, slots.take numDecodeTokens)
          else do
            assertThat (P == cm.pcpWorldSize) "PCP metadata/process-group size mismatch"
            let ownSlots ← rankSlotSlice slots width cm cm.pcpWorldSize rank
            -- the other ranks contribute the slices they cut from the same slots
            let localSlots := fun r => if r = rank then ownSlots else
              ((md r).map fun m => (rankSlotSlice slots (tensors r).length m m.pcpWorldSize r).toOption.getD []).getD []
            return gatherLeading tensors localSlots slots numDecodeTokens rank

end

end VllmHcu.Pcp
