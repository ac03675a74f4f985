import VllmHcu.Dsa.PackedLayout
import VllmHcu.Lib.Assoc
import VllmHcu.Lib.Result
import VllmHcu.Mooncake.Receiver
import Mathlib.Data.List.Lex

/-!
# The bootstrap server

Producer workers register by virtual TP rank and PP rank. A consumer queries the
registry and checks the topology of every engine before it records the engine's
workers, its PCP size and its TP size.
-/

namespace VllmHcu.Mooncake

/-! ## Registration -/

/-- `HCURegisterWorkerPayload`. -/
structure RegisterWorkerPayload where
  engineId : String
  dpRank : Int
  tpRank : Int
  ppRank : Int
  addr : String
  pcpSize : Int := 1
  enableDsaCacheLayerSplit : Bool := false

/-- The workers by virtual TP rank and PP rank. -/
abbrev WorkerAddr := List (Int × List (Int × String))

/-- `HCUEngineEntry`. -/
structure EngineEntry where
  engineId : String
  workerAddr : WorkerAddr
  pcpSize : Int := 1
  enableDsaCacheLayerSplit : Bool := false

abbrev Workers := List (Int × EngineEntry)

/-- `str` of a Boolean. -/
def boolStr (b : Bool) : String := if b then "True" else "False"

/-- The handler: its answer, or the detail of status 400, and the registry that it leaves. -/
def registerWorker (workers : Workers) (p : RegisterWorkerPayload) : Except String Unit × Workers :=
  if p.pcpSize ≤ 0 then (.error s!"pcp_size must be positive, got {p.pcpSize}", workers)
  else if p.tpRank < 0 ∨ p.ppRank < 0 then
    (.error s!"tp_rank and pp_rank must be non-negative, got tp_rank={p.tpRank}, pp_rank={p.ppRank}", workers)
  else
    let workers :=
      if (workers.lookup p.dpRank).isNone then
        insertKey p.dpRank ⟨p.engineId, [], p.pcpSize, p.enableDsaCacheLayerSplit⟩ workers
      else workers
    match workers.lookup p.dpRank with
    | none => (.error "KeyError", workers)
    | some dpEntry =>
      if dpEntry.engineId ≠ p.engineId then
        (.error s!"Engine ID mismatch for dp_rank={p.dpRank}: expected {dpEntry.engineId}, got {p.engineId}", workers)
      else if dpEntry.pcpSize ≠ p.pcpSize ∨ dpEntry.enableDsaCacheLayerSplit ≠ p.enableDsaCacheLayerSplit then
        (.error s!"PCP topology mismatch for dp_rank={p.dpRank}: registered pcp_size={dpEntry.pcpSize}/layer_split={boolStr dpEntry.enableDsaCacheLayerSplit}, got pcp_size={p.pcpSize}/layer_split={boolStr p.enableDsaCacheLayerSplit}", workers)
      else
        let workerAddr :=
          if (dpEntry.workerAddr.lookup p.tpRank).isNone then insertKey p.tpRank [] dpEntry.workerAddr
          else dpEntry.workerAddr
        let workers := insertKey p.dpRank { dpEntry with workerAddr } workers
        let tpEntry := (workerAddr.lookup p.tpRank).getD []
        match tpEntry.lookup p.ppRank with
        | some addr =>
          (.error s!"Worker with dp_rank={p.dpRank}, tp_rank={p.tpRank}, pp_rank={p.ppRank} is already registered at {addr}, but still want to register at {p.addr}", workers)
        | none =>
          let workerAddr := insertKey p.tpRank (insertKey p.ppRank p.addr tpEntry) workerAddr
          (.ok (), insertKey p.dpRank { dpEntry with workerAddr } workers)

/-! ## The check of the consumer -/

/-- `repr` of a tuple of integers. -/
def tupleRepr : List Int → String
  | [a] => s!"({a},)"
  | l => "(" ++ ", ".intercalate (l.map fun a => s!"{a}") ++ ")"

def rangeInt (n : Nat) : List Int := (List.range n).map fun i : Nat => (i : Int)

/-- The virtual ranks: dense under layer split, else the multiples of the PCP size. -/
def validateVirtualRanks (virtualRanks : List Int) (pcpSize : Int) (layerSplit : Bool) : Except String Unit :=
  if layerSplit then do
    ensure (virtualRanks = rangeInt virtualRanks.length)
      s!"Mooncake bootstrap registered non-contiguous virtual TP ranks: {virtualRanks}"
    ensure ((virtualRanks.length : Int) % pcpSize = 0)
      s!"Mooncake bootstrap registered an incomplete PCP topology: workers={virtualRanks.length}, pcp_size={pcpSize}"
  else do
    ensure (∀ rank ∈ virtualRanks, ¬ (rank < 0 ∨ rank % pcpSize ≠ 0))
      s!"Mooncake bootstrap registered invalid replicated-PCP ranks: {virtualRanks} (pcp_size={pcpSize})"
    ensure (virtualRanks = (rangeInt virtualRanks.length).map (· * pcpSize))
      s!"Mooncake bootstrap registered non-contiguous replicated-PCP ranks: {virtualRanks}"

/-- The PP ranks: one dense set for all virtual ranks. -/
def validatePpRanks (workerAddr : WorkerAddr) : Except String Unit := do
  let ppRankSets := (workerAddr.map fun entry => (entry.2.map Prod.fst).mergeSort).dedup
  ensure (ppRankSets.length = 1)
    s!"Mooncake bootstrap registered inconsistent PP rank sets: {(ppRankSets.mergeSort fun a b => decide (a ≤ b)).map tupleRepr}"
  let ppRanks := ppRankSets.headD []
  ensure (ppRanks = rangeInt ppRanks.length)
    s!"Mooncake bootstrap registered non-contiguous PP ranks: {tupleRepr ppRanks}"

def validateBootstrapWorkerTopology (workerAddr : WorkerAddr) (pcpSize : Int) (layerSplit : Bool) : Except String Unit := do
  ensure (0 < pcpSize) s!"Mooncake bootstrap pcp_size must be positive, got {pcpSize}"
  let virtualRanks := (workerAddr.map Prod.fst).mergeSort
  ensure (virtualRanks ≠ []) "Mooncake bootstrap registered no virtual TP workers"
  validateVirtualRanks virtualRanks pcpSize layerSplit
  validatePpRanks workerAddr

/-- `_tp_size` of an engine whose check passed. -/
def recordedTpSize (workerAddr : WorkerAddr) (pcpSize : Nat) (layerSplit : Bool) : Nat :=
  if layerSplit then workerAddr.length / pcpSize else workerAddr.length

/-- `_remote_agents` of an engine whose check passed: its ranks are not negative. -/
def remoteAgents (workerAddr : WorkerAddr) : List (Nat × List (Nat × String)) :=
  workerAddr.map fun (tpRank, ppToAddr) => (tpRank.toNat, ppToAddr.map fun (ppRank, addr) => (ppRank.toNat, addr))

/-! ## The layers that a producer sends -/

/-- `_dsa_owns_layer` on PCP rank `pcpRank`. -/
def dsaOwnsLayer (pcpRank pcpSize dsaTotalLayers layerIndex : Nat) : Bool :=
  if dsaTotalLayers ≤ layerIndex then pcpRank == pcpSize - 1
  else
    let (start, stop) := Dsa.getLayerShardRange pcpRank pcpSize dsaTotalLayers
    decide (start ≤ layerIndex ∧ layerIndex < stop)

end VllmHcu.Mooncake
