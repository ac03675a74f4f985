import Mathlib.Data.List.MinMax
import VllmHcu.Lib.Result

/-!
# Locality-fair replica order

A replica map has, for each logical expert of each layer, the physical ids of
its replicas and `-1` in the columns left over. Each source rank puts one
replica, its primary, in column 0. The primaries of all ranks come from one
assignment, which every rank computes again for itself.
-/

namespace VllmHcu.Eplb

structure Topology where
  epSize : Nat
  numNodes : Nat
  numPhysicalExperts : Nat

namespace Topology
variable (t : Topology)

def numLocalExperts : Nat := t.numPhysicalExperts / t.epSize

def numGpusPerNode : Nat := t.epSize / t.numNodes

def numNodeExperts : Nat := t.numLocalExperts * t.numGpusPerNode

def gpuOf (physicalId : Nat) : Nat := physicalId / t.numLocalExperts

def nodeOf (physicalId : Nat) : Nat := physicalId / t.numNodeExperts

/-- The locality of a replica for a rank: 0 on the same GPU, 1 on the same node, 2 elsewhere. -/
def distance (rank physicalId : Nat) : Nat :=
  if t.gpuOf physicalId = rank then 0
  else if t.gpuOf physicalId / t.numGpusPerNode = rank / t.numGpusPerNode then 1
  else 2

end Topology

abbrev ReplicaMap := List (List (List Int))

/-- The entries of a row that are not `-1`. -/
def candidatesOf (row : List Int) : List Nat := row.filterMap fun v => if 0 ≤ v then some v.toNat else none

/-! ## Checks -/

def strictInteger (value : Nat) (name : String) (minimum : Nat) : Except String Unit :=
  ensure (minimum ≤ value) (name ++ " must be an integer >= " ++ toString minimum ++ ", got " ++ toString value)

def checkReplicas (layerId : Nat) (row : List Int) (logicalExpertId : Nat) : Except String Unit := do
  let expert := "logical expert " ++ toString logicalExpertId ++ " in layer " ++ toString layerId
  ensure (candidatesOf row ≠ []) (expert ++ " has no physical replicas")
  ensure (candidatesOf row).Nodup (expert ++ " has duplicate physical replicas")

def validatedReplicaMap (m : ReplicaMap) (t : Topology) (epRank : Nat) : Except String ReplicaMap := do
  strictInteger t.epSize "ep_size" 1
  strictInteger epRank "ep_rank" 0
  ensure (epRank < t.epSize) ("ep_rank must be in [0, " ++ toString t.epSize ++ "), got " ++ toString epRank)
  strictInteger t.numNodes "num_nodes" 1
  ensure (t.epSize % t.numNodes = 0)
    ("ep_size must be divisible by num_nodes, got " ++ toString t.epSize ++ " and " ++ toString t.numNodes)
  strictInteger t.numPhysicalExperts "num_physical_experts" 1
  ensure (t.numPhysicalExperts % t.epSize = 0)
    ("num_physical_experts must be divisible by ep_size, got " ++ toString t.numPhysicalExperts ++ " and " ++
      toString t.epSize)
  ensure (∀ layer ∈ m, ∀ row ∈ layer, ∀ v ∈ row, -1 ≤ v ∧ v < t.numPhysicalExperts)
    "logical_to_physical_map contains an invalid physical expert ID"
  m.zipIdx.forM fun layer => layer.1.zipIdx.forM fun row => checkReplicas layer.2 row.1 row.2
  return m

/-! ## Assignments -/

/-- A `random.Random`: what `shuffle` leaves is the same entries in some order. -/
structure Rng where
  State : Type
  ofSeed : Int → State
  shuffle : State → List Nat → List Nat × State
  shuffle_perm : ∀ s l, (shuffle s l).1.Perm l

/-- The assignment so far: `none` for a rank that has no replica yet. -/
structure Draft (σ : Type) where
  assignments : List (Option Nat)
  assignmentCounts : Nat → Nat
  state : σ

namespace Draft
variable {σ : Type} (d : Draft σ)

def isOpen (rank : Nat) : Prop := d.assignments[rank]? = some none

instance (rank : Nat) : Decidable (d.isOpen rank) := inferInstanceAs (Decidable (_ = _))

def assigned (rank choice : Nat) (s : σ) : Draft σ where
  assignments := d.assignments.set rank (some choice)
  assignmentCounts c := if c = choice then d.assignmentCounts c + 1 else d.assignmentCounts c
  state := s

end Draft

section
variable (rng : Rng)

def chooseLeastAssigned (candidates : List Nat) (assignmentCounts : Nat → Nat) (s : rng.State) :
    Except String (Nat × rng.State) := do
  let shuffled := rng.shuffle s candidates
  let choice ← expect (shuffled.1.argmin assignmentCounts) "min() iterable argument is empty"
  return (choice, shuffled.2)

/-- One rank gets the replica of `candidates` that the fewest ranks have. -/
def assignRank (candidates : List Nat) (d : Draft rng.State) (rank : Nat) : Except String (Draft rng.State) := do
  let choice ← chooseLeastAssigned rng candidates d.assignmentCounts d.state
  return d.assigned rank choice.1 choice.2

/-- The ranks of `ranks` that are open, in an order of the shuffle's. -/
def assignOpen (candidates ranks : List Nat) (d : Draft rng.State) : Except String (Draft rng.State) :=
  let remaining := rng.shuffle d.state (ranks.filter fun rank => d.isOpen rank)
  remaining.1.foldlM (assignRank rng candidates) { d with state := remaining.2 }

variable (t : Topology) (candidates : List Nat)

def localCandidates (gpu : Nat) : List Nat := candidates.filter fun c => t.gpuOf c = gpu

def nodeCandidates (node : Nat) : List Nat := candidates.filter fun c => t.nodeOf c = node

def assignGpu (d : Draft rng.State) (rank : Nat) : Except String (Draft rng.State) :=
  if localCandidates t candidates rank = [] then .ok d
  else assignRank rng (localCandidates t candidates rank) d rank

def assignNode (d : Draft rng.State) (node : Nat) : Except String (Draft rng.State) :=
  if nodeCandidates t candidates node = [] then .ok d
  else assignOpen rng (nodeCandidates t candidates node) (List.range' (node * t.numGpusPerNode) t.numGpusPerNode) d

def emptyDraft (seed : Int) : Draft rng.State where
  assignments := List.replicate t.epSize none
  assignmentCounts _ := 0
  state := rng.ofSeed seed

/-- The replica of each rank. No rank of its own is asked for. -/
def assignReplicas (seed : Int) : Except String (List (Option Nat)) := do
  let d ← (List.range t.epSize).foldlM (assignGpu rng t candidates) (emptyDraft rng t seed)
  let d ← (List.range t.numNodes).foldlM (assignNode rng t candidates) d
  let d ← assignOpen rng candidates (List.range t.epSize) d
  return d.assignments

/-! ## Rows -/

/-- The replicas from the primary on, around the row, with `-1` after them. -/
def orderedRow (row : List Int) (primaryIndex : Nat) : List Int :=
  let candidates := candidatesOf row
  let ordered := candidates.drop primaryIndex ++ candidates.take primaryIndex
  ordered.map Int.ofNat ++ List.replicate (row.length - ordered.length) (-1)

def fairRow (epRank : Nat) (seed : Int) (row : List Int) : Except String (List Int) := do
  let assignments ← assignReplicas rng t (candidatesOf row) seed
  let primaryIndex ← expect ((assignments[epRank]?.join).bind fun c => (candidatesOf row).idxOf? c)
    "the primary is not in list"
  return orderedRow row primaryIndex

def rowSeed (seed : Int) (layerOffset layerId logicalExpertId : Nat) : Int :=
  seed + ((layerOffset + layerId : Nat) : Int) * 1000003 + (logicalExpertId : Int) * 9176

/-- Rows with one replica stay as they are. -/
def replicaRow (epRank : Nat) (seed : Int) (row : List Int) : Except String (List Int) :=
  if 1 < (candidatesOf row).length then fairRow rng t epRank seed row else .ok row

def buildLocalityFairReplicaOrder (m : ReplicaMap) (epRank : Nat) (seed : Int) (layerOffset : Nat) :
    Except String ReplicaMap := do
  let result ← validatedReplicaMap m t epRank
  result.zipIdx.mapM fun layer => layer.1.zipIdx.mapM fun row =>
    replicaRow rng t epRank (rowSeed seed layerOffset layer.2 row.2) row.1

end

end VllmHcu.Eplb
