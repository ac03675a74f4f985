import VllmHcu.Lib.Rendezvous
import Mathlib.Data.Fintype.Prod
import Mathlib.Algebra.BigOperators.Fin

/-!
# The fused combine of the expert-parallel group

With naive data-parallel dispatch every rank holds partial sums for the tokens
of all ranks. The plain tail reduces them over the data-parallel group, adds the
output of the shared expert and reduces over the tensor-parallel group. Where
the shared expert has run before, its output goes into the rank's own rows, and
one all-reduce over both groups does the rest. `_EP_COMBINE` carries the shared
output from the runner to the experts and to finalize.
-/

namespace VllmHcu.Moe

/-- `SharedExpertsOrder`, without `NONE`. -/
inductive SharedExpertsOrder
  | noOverlap
  | mkInternalOverlapped
  | multiStreamOverlapped
  | fusedRouterOverlapped
  deriving DecidableEq

inductive All2allBackend
  | allgatherReducescatter
  | deepepAuto
  | deepepHighThroughput
  | other
  deriving DecidableEq

/-- What the order of the shared experts depends on, the number of tokens apart. -/
structure SharedExperts where
  useCustomOps : Bool
  earlyLaunch : Bool
  streamForce : Bool
  -- `optional_custom_op_enabled(VLLM_HCU_SHARED_EXPERTS_DEEPEP_EPLB_OVERLAP)`
  deepepEplbOverlap : Bool
  step5Owner : Bool
  lateStreamMinTokens : Nat
  streamTokenThreshold : Nat
  cudaAlike : Bool
  hasStream : Bool
  enableDbo : Bool
  dboEnabled : Bool
  enableEplb : Bool
  all2allBackend : All2allBackend
  useFiNvlTwoSidedKernels : Bool
  mkCanOverlap : Bool
  isMultistreamSafe : Bool
  isSequenceParallel : Bool
  pcpSize : Nat
  -- the fused router of the layer: up to how many tokens, and whether it has left an activation for them
  fusedRouterStream : Bool
  fusedRouterSharedMaxM : Option Nat
  hasActivation : Nat → Bool

namespace SharedExperts

variable (s : SharedExperts)

def canOverlapDeepepEplb : Bool :=
  s.deepepEplbOverlap && s.enableEplb &&
    (s.all2allBackend == .deepepAuto || s.all2allBackend == .deepepHighThroughput) &&
    !s.useFiNvlTwoSidedKernels && !s.enableDbo && s.hasStream && s.isMultistreamSafe

def disableSharedExpertsOverlap : Bool :=
  if s.useCustomOps && s.streamForce then false
  else if s.canOverlapDeepepEplb then false
  else (s.enableEplb && s.all2allBackend != .allgatherReducescatter) || s.useFiNvlTwoSidedKernels

def requiresMainStream (n : Nat) : Bool :=
  match s.fusedRouterSharedMaxM with
  | none => false
  | some maxM => decide (n ≤ maxM)

/-- `maybe_launch_fused_router_activation`: from then on the output is pending. -/
def maybeLaunchFusedRouterActivation (n : Nat) : Bool :=
  s.step5Owner && s.fusedRouterStream && !s.enableDbo && s.hasStream && !s.disableSharedExpertsOverlap &&
    !s.isSequenceParallel && decide (s.pcpSize ≤ 1) && s.requiresMainStream n && s.hasActivation n

def lateStream (n : Nat) : Bool :=
  s.useCustomOps && s.step5Owner && decide (0 < s.lateStreamMinTokens) && s.hasStream &&
    decide (s.lateStreamMinTokens ≤ n) && !s.dboEnabled

def shouldRunSharedInAuxStream (n : Nat) : Bool :=
  s.cudaAlike && s.hasStream && decide (n ≤ s.streamTokenThreshold)

/-- `_determine_shared_experts_order` for an input of `n` tokens -/
def determineSharedExpertsOrder (n : Nat) : Except String SharedExpertsOrder :=
  let forceStream := s.useCustomOps && (s.earlyLaunch || s.streamForce)
  if s.maybeLaunchFusedRouterActivation n then .ok .fusedRouterOverlapped
  else if s.requiresMainStream n then .ok .noOverlap
  else if forceStream && !s.hasStream then
    .error ("HCU shared-expert stream mode was explicitly enabled, but no " ++
      "CUDA-alike auxiliary stream is available")
  else if s.disableSharedExpertsOverlap then .ok .noOverlap
  else if s.lateStream n then .ok .multiStreamOverlapped
  else if s.shouldRunSharedInAuxStream n && s.isMultistreamSafe && (forceStream || s.canOverlapDeepepEplb) then
    .ok .multiStreamOverlapped
  else if s.mkCanOverlap then .ok .mkInternalOverlapped
  else if s.shouldRunSharedInAuxStream n && s.isMultistreamSafe then .ok .multiStreamOverlapped
  else .ok .noOverlap

end SharedExperts

/-- The groups of a layer call. `worldSize` is that of the expert-parallel group. -/
structure EpGroup (dpSize tpSize : Nat) where
  worldSize : Nat
  -- its custom all-reduce is there and not disabled, and takes a tensor of so many rows
  caReady : Bool
  shouldCustomAr : Nat → Bool
  -- `get_chunk_sizes_across_dp_rank()`
  sizes : List Nat

section
variable {dpSize tpSize : Nat}

/-- `_ep_fused_rows` on a data-parallel rank, for a tensor of `n` rows -/
def epFusedRows (g : EpGroup dpSize tpSize) (dpRank n : Nat) : Option (Nat × Nat) :=
  if !g.caReady || g.worldSize != dpSize * tpSize then none
  else if n != g.sizes.sum || !g.shouldCustomAr n then none
  else
    let start := (g.sizes.take dpRank).sum
    some (start, start + g.sizes.getD dpRank 0)

variable {M : Type} [AddCommMonoid M]

/-- `x[start:stop] += add` -/
def addRows (x : Nat → M) (start stop : Nat) (add : Nat → M) : Nat → M := fun i =>
  if start ≤ i ∧ i < stop then x i + add (i - start) else x i

/-- `_EpFusedCombineState`. A tensor is told by its address and its number of rows. -/
structure EpFusedCombineState (M : Type) where
  shared : Option (Nat → M)
  done : Bool
  addedTo : Option (Nat × Nat)

namespace EpFusedCombineState

def init : EpFusedCombineState M := { shared := none, done := false, addedTo := none }

/-- `arm`, with the order of the shared experts and their output so far -/
def arm (order : SharedExpertsOrder) (output : Nat → M) (s : EpFusedCombineState M) : EpFusedCombineState M :=
  { s with done := false, shared := if order = .noOverlap then some output else none, addedTo := none }

/-- `shared_add` for a tensor of `n` rows at `ptr` -/
def sharedAdd (g : EpGroup dpSize tpSize) (dpRank : Nat) (allowed : Bool) (ptr n : Nat) (s : EpFusedCombineState M) :
    EpFusedCombineState M × Option ((Nat → M) × Nat) :=
  match s.shared with
  | none => (s, none)
  | some shared =>
    if !allowed || s.addedTo.isSome then (s, none)
    else match epFusedRows g dpRank n with
      | none => (s, none)
      | some rows => ({ s with addedTo := some (ptr, n) }, some (shared, rows.1))

end EpFusedCombineState

/-- `_ep_fused_all_reduce` up to the collective: what the rank gives to it, and its own rows -/
def epFusedAllReduce (g : EpGroup dpSize tpSize) (dpRank n : Nat) (out : Nat → M) (shared : Option (Nat → M)) :
    Option ((Nat → M) × (Nat × Nat)) :=
  (epFusedRows g dpRank n).map fun rows =>
    ((match shared with
      | none => out
      | some x => addRows out rows.1 rows.2 x), rows)

/-- `finalize_hook`, on the expert output -/
def EpFusedCombineState.finalizeHook (g : EpGroup dpSize tpSize) (dpRank ptr n : Nat) (out : Nat → M) (s : EpFusedCombineState M) :
    Except String (EpFusedCombineState M × Option ((Nat → M) × (Nat × Nat))) :=
  match s.shared with
  | none => .ok ({ s with shared := none }, none)
  | some x =>
    if s.addedTo.isSome && s.addedTo != some (ptr, n) then .error "assert self.added_to == (out.data_ptr(), out.shape)"
    else
      let shared := if s.addedTo.isSome then none else some x
      match epFusedAllReduce g dpRank n out shared with
      | some reduced => .ok ({ s with shared := none, done := true }, some reduced)
      | none =>
        if shared.isSome then .ok ({ s with shared := none }, none)
        else .error "assert shared is not None"

def EpFusedCombineState.finish (s : EpFusedCombineState M) : Except String (EpFusedCombineState M × Bool) :=
  if !s.done && s.addedTo.isSome then .error "assert done or self.added_to is None"
  else .ok ({ done := false, shared := none, addedTo := none }, s.done)

/-- Who combines: the runner, finalize of the modular kernel, or the pipe with its launches of collectives.
The modular kernel calls the experts for one range of rows after another. -/
inductive CombinePath
  | naive
  | modularKernel (chunks : List (Nat × Nat))
  | pipe (chunks : List (Nat × Nat)) (launches : Nat)

/-- The groups whose collectives a rank takes part in. -/
inductive Group
  | ep
  | dp
  | tp
  deriving DecidableEq

/-- How a rank ends its layer: with its part of the fused all-reduce, with the rows that are combined
over the data-parallel group before the tail, or with these as they are. -/
inductive Tail (M : Type)
  | fused (rows : Nat → M) (own : Nat × Nat)
  | plain (rows : Nat → M)
  | bare (rows : Nat → M)

def Tail.isFused : Tail M → Bool
  | fused _ _ => true
  | _ => false

/-- What a rank gives to the fused all-reduce. -/
def Tail.reduceRow : Tail M → Nat → M
  | fused rows _, i => rows i
  | _, _ => 0

/-- What a rank gives to the combine over the data-parallel group. -/
def Tail.combineRow : Tail M → Nat → M
  | plain rows, i => rows i
  | _, _ => 0

/-- One call of an MoE layer on all ranks. -/
structure MoeLayer (dpSize tpSize : Nat) (M : Type) where
  group : EpGroup dpSize tpSize
  sharedExperts : SharedExperts
  path : CombinePath
  -- `_fused_output_is_reduced`
  outputIsReduced : Bool
  ptr : Nat
  rowBytes : Nat
  -- of each rank: what its experts give for the tokens of all ranks, and the shared output for its own
  routed : (dpRank tpRank : Nat) → Nat → M
  shared : (dpRank tpRank : Nat) → Nat → M
  -- the collectives since the last layer
  before : List Group

namespace MoeLayer

variable (L : MoeLayer dpSize tpSize M)

/-- The tokens of all ranks. -/
def numTokens : Nat := L.group.sizes.sum

def size (dpRank : Nat) : Nat := L.group.sizes.getD dpRank 0

def start (dpRank : Nat) : Nat := (L.group.sizes.take dpRank).sum

def order (dpRank : Nat) : Except String SharedExpertsOrder :=
  L.sharedExperts.determineSharedExpertsOrder (L.size dpRank)

/-- One call of the experts, on the rows from `c.1` up to `c.2`. -/
def runChunk (d t : Nat) (allowed : Bool) (s : EpFusedCombineState M × (Nat → M)) (c : Nat × Nat) :
    EpFusedCombineState M × (Nat → M) :=
  let r := s.1.sharedAdd L.group d allowed (L.ptr + c.1 * L.rowBytes) (c.2 - c.1)
  let out := fun i => if c.1 ≤ i ∧ i < c.2 then L.routed d t i else s.2 i
  (r.1, match r.2 with
    | none => out
    | some (x, rowStart) => addRows out (c.1 + rowStart) (c.1 + rowStart + L.size d) x)

/-- `_ep_fused_combine_output`, up to the collectives -/
def epFusedCombineOutput (d t : Nat) (naive : Bool) (out : Nat → M) : Tail M :=
  if naive && !L.outputIsReduced && (epFusedRows L.group d L.numTokens).isSome then
    match epFusedAllReduce L.group d L.numTokens out (some (L.shared d t)) with
    | some (rows, own) => .fused rows own
    | none => .plain out
  else .plain out

/-- `_maybe_combine` of a runner with the fused combine. `combined` is what finalize has returned, if anything. -/
def maybeCombine (d t : Nat) (naive : Bool) (s : EpFusedCombineState M) (out : Nat → M)
    (combined : Option ((Nat → M) × (Nat × Nat))) : Except String (EpFusedCombineState M × Tail M) :=
  match s.finish with
  | .error e => .error e
  | .ok (s, true) => match combined with
    | some (rows, own) => .ok (s, .fused rows own)
    | none => .ok (s, .bare out)
  | .ok (s, false) => .ok (s, L.epFusedCombineOutput d t naive out)

/-- One layer on one rank. What is in the output buffer before is `junk`. -/
def runRank (d t : Nat) (junk : Nat → M) (s : EpFusedCombineState M) : Except String (EpFusedCombineState M × Tail M) :=
  match L.order d with
  | .error e => .error e
  | .ok order =>
    let s := s.arm order (L.shared d t)
    match L.path with
    | .naive => L.maybeCombine d t true s (L.routed d t) none
    | .modularKernel chunks =>
      let r := chunks.foldl (L.runChunk d t true) (s, junk)
      match r.1.finalizeHook L.group d L.ptr L.numTokens r.2 with
      | .error e => .error e
      | .ok (s, combined) => L.maybeCombine d t false s r.2 combined
    | .pipe chunks _ =>
      -- `suspend_ep_shared_add`, and no finalize
      let r := chunks.foldl (L.runChunk d t false) (s, junk)
      L.maybeCombine d t false r.1 r.2 none

/-- The collectives of a rank in one layer, the dispatch among them. -/
def collectives (tail : Tail M) : List Group :=
  L.before ++ match L.path, tail with
    | .pipe _ launches, .plain _ => List.replicate launches .dp ++ [.tp]
    | .pipe _ launches, _ => List.replicate launches .dp
    | _, .fused _ _ => [.dp, .ep]
    | _, .plain _ => [.dp, .dp, .tp]
    | .naive, .bare _ => [.dp]
    | .modularKernel _, .bare _ => [.dp, .dp]

/-- The rows of a rank after the collectives, where all ranks end the layer in the same way. -/
def result (tails : (d t : Nat) → Tail M) (d t i : Nat) : M :=
  match tails d t with
  | .bare rows => rows i
  | .fused _ own => ∑ q : Fin dpSize, ∑ u : Fin tpSize, (tails q u).reduceRow (own.1 + i)
  | .plain _ =>
    let scattered := fun u => ∑ q : Fin dpSize, (tails q u).combineRow (L.start d + i)
    if L.outputIsReduced then (∑ u : Fin tpSize, L.shared d u i) + scattered t
    else ∑ u : Fin tpSize, (L.shared d u i + scattered u)

/-- The layer without the fused combine. -/
def plainResult (d t i : Nat) : M := L.result (fun d t => .plain (L.routed d t)) d t i

end MoeLayer

/-- A run of layers on one rank, with the buffers they find. -/
def runLayers (d t : Nat) (junk : Nat → Nat → M) :
    EpFusedCombineState M → List (MoeLayer dpSize tpSize M) → Except String (EpFusedCombineState M × List (Tail M))
  | s, [] => .ok (s, [])
  | s, L :: layers =>
    match L.runRank d t (junk layers.length) s with
    | .error e => .error e
    | .ok (s', tail) =>
      match runLayers d t junk s' layers with
      | .error e => .error e
      | .ok (s'', tails) => .ok (s'', tail :: tails)

/-- Who shares a collective: all ranks, those of one tensor-parallel rank, those of one data-parallel rank. -/
def groupPeers : Group → Fin dpSize × Fin tpSize → Fin dpSize × Fin tpSize → Prop
  | .ep, _, _ => True
  | .dp, r, q => r.2 = q.2
  | .tp, r, q => r.1 = q.1

/-- The collectives of a rank in a run of layers. -/
def rankProgram (layers : List (MoeLayer dpSize tpSize M)) (tails : List (Tail M)) : List Group :=
  (layers.zip tails).flatMap fun p => p.1.collectives p.2

end

end VllmHcu.Moe
