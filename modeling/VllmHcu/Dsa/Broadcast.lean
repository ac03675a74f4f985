import Mathlib.Data.Finset.Card

/-!
# Owner broadcasts of one cache family

Every rank runs the same bookkeeping on the same inputs, so one
`FamilyRemoteState` and one active set stand for all ranks; the cache contents
are per rank. A covered layer is durable on its owner and lives in the one
scratch buffer of every other rank. The side stream of a prefetch waits for the
work queued before it, and nothing touches a scratch buffer until the prefetch
is finalized, so its copies are applied where it is enqueued.
-/

namespace VllmHcu.Dsa

/-- `_FamilyRemoteState`, less the stream handle. -/
structure FamilyRemoteState where
  remoteLayerId : Option Int := none
  remoteBlockIds : Option (Finset Int) := none
  remoteFull : Bool := false
  pendingRemoteLayerId : Option Int := none
  pendingRemoteBlockIds : Option (Finset Int) := none
  pendingRemoteFull : Bool := false
  pendingRemoteBroadcast : Bool := false

/-- What a run reads and never changes: the shard plan (`covers`, `owner_of`), the blocks of a
cache, the sparse opt-out and whether the side communicator exists. -/
structure Runtime (Rank : Type) where
  covers : Int → Bool
  ownerOf : Int → Rank
  numBlocks : Nat
  sparseBroadcastEnabled : Bool
  bcastComm : Bool

/-! ## Bookkeeping -/

section
variable {Rank : Type} (rt : Runtime Rank)

def activeBlockIdsFor (ids : Option (Finset Int)) : Option (Finset Int) :=
  if rt.sparseBroadcastEnabled = false then none
  else
    match ids with
    | none => none
    | some ids =>
      if ids = ∅ then none
      else if rt.numBlocks = 0 then none
      -- the source compares the least and the greatest id
      else if ¬ ∀ i ∈ ids, 0 ≤ i ∧ i < rt.numBlocks then none
      else if rt.numBlocks ≤ ids.card then none
      else some ids

/-- What an owner synchronization sends: the rows, whether it is the full pool, whether a
collective is needed. -/
structure Selection where
  blockIds : Option (Finset Int)
  full : Bool
  needsCollective : Bool

def resetOther (fam : FamilyRemoteState) (layerIdx : Int) : FamilyRemoteState :=
  if fam.remoteLayerId ≠ some layerIdx then { fam with remoteBlockIds := none, remoteFull := false } else fam

def neededRows (known : Option (Finset Int)) (blockIds : Finset Int) : Finset Int :=
  match known with
  | none => blockIds
  | some known => if known = ∅ then blockIds else blockIds \ known

def prepareRemoteSelection (active : Option (Finset Int)) (layerIdx : Int) (family : FamilyRemoteState) :
    FamilyRemoteState × Selection :=
  let family := resetOther family layerIdx
  match activeBlockIdsFor rt active with
  | none => (family, ⟨none, true, !family.remoteFull⟩)
  | some blockIds =>
    if family.remoteFull then (family, ⟨some blockIds, false, false⟩)
    else
      let needed := neededRows family.remoteBlockIds blockIds
      (family, ⟨some needed, false, decide (needed ≠ ∅)⟩)

end

def recordRemoteSelection (family : FamilyRemoteState) (layerIdx : Int) (blockIds : Option (Finset Int))
    (full : Bool) : FamilyRemoteState :=
  let family := { resetOther family layerIdx with remoteLayerId := some layerIdx }
  if full then { family with remoteBlockIds := none, remoteFull := true }
  else
    let family := { family with remoteFull := false }
    match blockIds with
    | none => family
    | some ids =>
      if ids = ∅ then family
      else
        match family.remoteBlockIds with
        | none => { family with remoteBlockIds := some ids }
        | some known => { family with remoteBlockIds := some (known ∪ ids) }

def finalizePendingBroadcast (fam : FamilyRemoteState) (setRemoteLayerId : Bool) : FamilyRemoteState :=
  if fam.pendingRemoteBroadcast = false then fam
  else
    let fam := { fam with pendingRemoteBroadcast := false }
    let fam :=
      match setRemoteLayerId, fam.pendingRemoteLayerId with
      | true, some layerIdx =>
        recordRemoteSelection fam layerIdx fam.pendingRemoteBlockIds fam.pendingRemoteFull
      | _, _ => fam
    { fam with pendingRemoteLayerId := none, pendingRemoteBlockIds := none, pendingRemoteFull := false }

def invalidateRemoteBroadcastState (family : FamilyRemoteState) (activeIds : Option (Finset Int)) :
    FamilyRemoteState :=
  let family := if family.pendingRemoteBroadcast then finalizePendingBroadcast family true else family
  match activeIds with
  | none => if family.remoteFull then family else { family with remoteBlockIds := none }
  | some ids =>
    if family.remoteFull then family
    else
      match family.remoteBlockIds with
      | none => family
      | some known => { family with remoteBlockIds := some (known ∩ ids) }

/-! ## Caches -/

inductive Buffer
  | layer (layerIdx : Int)
  | scratch
deriving DecidableEq

/-- The state of all ranks; `store` holds the rows of every buffer by block id. -/
structure Caches (Rank V : Type) where
  activeBlockIds : Option (Finset Int) := none
  family : FamilyRemoteState := {}
  store : Rank → Buffer → Int → V

section
variable {Rank V : Type} [DecidableEq Rank] (rt : Runtime Rank)

/-- `LayerSplitState.is_owned` of a rank. -/
def Runtime.isOwned (rank : Rank) (layerIdx : Int) : Bool :=
  !rt.covers layerIdx || rank == rt.ownerOf layerIdx

/-- The buffer behind a rank's cache tensor of a layer. -/
def Runtime.bufferOf (rank : Rank) (layerIdx : Int) : Buffer :=
  if rt.isOwned rank layerIdx then .layer layerIdx else .scratch

def Caches.view (s : Caches Rank V) (rank : Rank) (layerIdx : Int) (block : Int) : V :=
  s.store rank (rt.bufferOf rank layerIdx) block

/-- `cache[ids] = rows` on the cache of one layer, on every rank that `on` holds of. -/
def Caches.update (s : Caches Rank V) (layerIdx : Int) (on : Rank → Bool) (ids : Int → Bool)
    (rows : Rank → Int → V) : Caches Rank V :=
  { s with store := fun rank buf block =>
      if on rank && buf == rt.bufferOf rank layerIdx && ids block then rows rank block
      else s.store rank buf block }

/-- The collective: the owner's rows replace those of every other rank. -/
def Caches.sendRows (s : Caches Rank V) (layerIdx : Int) (blockIds : Option (Finset Int)) : Caches Rank V :=
  s.update rt layerIdx (· != rt.ownerOf layerIdx)
    (fun block => match blockIds with | none => true | some ids => decide (block ∈ ids))
    fun _ block => s.view rt (rt.ownerOf layerIdx) layerIdx block

def broadcastTensorFromOwner (s : Caches Rank V) (layerIdx : Int) : Caches Rank V :=
  let (family, sel) := prepareRemoteSelection rt s.activeBlockIds layerIdx s.family
  if sel.needsCollective = false then
    { s with family := recordRemoteSelection family layerIdx sel.blockIds sel.full }
  else
    { s.sendRows rt layerIdx sel.blockIds with
      family := recordRemoteSelection family layerIdx sel.blockIds sel.full }

/-- The asynchronous broadcast, with `false` where the caller falls back to the synchronous one. -/
def broadcastTensorFromOwnerAsync (s : Caches Rank V) (layerIdx : Int) : Caches Rank V × Bool :=
  if rt.bcastComm = false then (s, false)
  else
    let (family, sel) := prepareRemoteSelection rt s.activeBlockIds layerIdx s.family
    if sel.needsCollective = false then
      ({ s with family := recordRemoteSelection family layerIdx sel.blockIds sel.full }, false)
    else
      ({ s.sendRows rt layerIdx sel.blockIds with
          family := { family with
            pendingRemoteLayerId := some layerIdx
            pendingRemoteBlockIds := sel.blockIds
            pendingRemoteFull := sel.full
            pendingRemoteBroadcast := true } }, true)

def beginMlaDsaCacheWrite (s : Caches Rank V) (layerIdx : Int) : Caches Rank V × Bool :=
  let fam := if s.family.pendingRemoteLayerId = some layerIdx then finalizePendingBroadcast s.family true
    else s.family
  let (fam, sel) := prepareRemoteSelection rt s.activeBlockIds layerIdx fam
  ({ s with family := fam }, fam.remoteLayerId == some layerIdx && !sel.needsCollective)

def broadcastDsaCacheFromOwner (s : Caches Rank V) (layerIdx : Int) : Caches Rank V :=
  if rt.covers layerIdx = false then s
  else
    let fam :=
      if s.family.pendingRemoteBroadcast then
        finalizePendingBroadcast s.family (s.family.pendingRemoteLayerId == some layerIdx)
      else s.family
    let s := { s with family := fam }
    if fam.remoteLayerId = some layerIdx ∧ fam.remoteFull = true then s
    else broadcastTensorFromOwner rt s layerIdx

def prefetchDsaCacheFromOwner (s : Caches Rank V) (layerIdx : Int) : Caches Rank V :=
  if rt.covers layerIdx = false then s
  else if s.family.remoteLayerId = some layerIdx then s
  else if s.family.pendingRemoteBroadcast = true ∧ s.family.pendingRemoteLayerId = some layerIdx then s
  else
    let fam := if s.family.pendingRemoteBroadcast then finalizePendingBroadcast s.family false else s.family
    match broadcastTensorFromOwnerAsync rt { s with family := fam } layerIdx with
    | (s, true) => s
    | (s, false) => broadcastDsaCacheFromOwner rt s layerIdx

/-- `torch.unique` of a nonempty tensor of ids; `none` falls back to the full pool. -/
def uniqueIds : Option (List Int) → Option (Finset Int)
  | none => none
  | some blockIds => if blockIds = [] then none else some blockIds.toFinset

def setActiveDsaBroadcastBlockIds (s : Caches Rank V) (blockIds : Option (List Int)) : Caches Rank V :=
  let ids := uniqueIds blockIds
  let family := if s.activeBlockIds ≠ ids then invalidateRemoteBroadcastState s.family ids else s.family
  { s with activeBlockIds := ids, family := family }

/-- A cache update: the blocks it touches and what it makes of a block's content. -/
structure KvUpdate (V : Type) where
  blocks : Finset Int
  apply : Int → V → V

def doKvCacheUpdate (s : Caches Rank V) (layerIdx : Int) (on : Rank → Bool) (u : KvUpdate V) :
    Caches Rank V :=
  s.update rt layerIdx on (fun block => decide (block ∈ u.blocks)) fun rank block =>
    u.apply block (s.view rt rank layerIdx block)

/-- The cache part of the MLA forward of one layer, on all ranks. A profile or warm-up forward has
no metadata and so no update: it only enters the broadcast. -/
def mlaForward (s : Caches Rank V) (layerIdx : Int) : Option (KvUpdate V) → Caches Rank V
  | none => broadcastDsaCacheFromOwner rt s layerIdx
  | some u =>
    let (s, remoteUpdatable) := beginMlaDsaCacheWrite rt s layerIdx
    let s := doKvCacheUpdate rt s layerIdx (fun rank => rt.isOwned rank layerIdx || remoteUpdatable) u
    broadcastDsaCacheFromOwner rt s layerIdx

inductive Event (V : Type)
  | setActive (blockIds : Option (List Int))
  | prefetch (layerIdx : Int)
  | forward (layerIdx : Int) (u : Option (KvUpdate V))

def step (s : Caches Rank V) : Event V → Caches Rank V
  | .setActive blockIds => setActiveDsaBroadcastBlockIds s blockIds
  | .prefetch layerIdx => prefetchDsaCacheFromOwner rt s layerIdx
  | .forward layerIdx u => mlaForward rt s layerIdx u

def run (s : Caches Rank V) (events : List (Event V)) : Caches Rank V := events.foldl (step rt) s

end

end VllmHcu.Dsa
