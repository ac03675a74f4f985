import VllmHcu.Lib.Scatter
import Mathlib.Algebra.BigOperators.Group.Finset.Basic
import Mathlib.Algebra.GroupWithZero.Nat
import Mathlib.Algebra.Ring.Nat

/-!
# The data-parallel expert pipe

`_dp_pipe_apply` gathers the tokens of all ranks group by group, runs the experts
of the rank on each group, and reduces every group to the ranks that own its
tokens. The collectives of a rank run in the order of its side stream and the
experts in that of its compute stream; events tie the two. A rank leaves a
collective once all ranks have come to it.
-/

namespace VllmHcu.Moe

/-- The scale argument of the experts. -/
inductive ScaleArg (X : Type)
  | absent
  | one (x : X)
  | rows (f : Nat → X)

def ScaleArg.at {X : Type} : ScaleArg X → Nat → Option X
  | absent, _ => none
  | one x, _ => some x
  | rows f, i => some (f i)

/-- The arguments of `fe.apply` that belong to the tokens. -/
structure ExpertBatch (X : Type) where
  n : Nat
  hiddenStates : Nat → X
  topkWeights : Nat → X
  topkIds : Nat → X
  scale : ScaleArg X

/-- A collective with its root, its element count, and where its rows lie. -/
inductive Collective
  | broadcast (tensor root start rows count : Nat)
  | allGather (tensor rows count : Nat)
  | reduce (root start rows count : Nat)
  | reduceScatter (rows count : Nat)

/-- What the ranks share. `sizes` is none without the metadata of the group. -/
structure DpPipe where
  customOps : Bool
  -- the types of the prepare, finalize and expert implementations
  supported : Bool
  sizes : Option (List Nat)
  commReady : Bool
  dbo : Bool
  minTokens : Nat
  pipeUniform : Bool
  epDirectSum : Bool
  -- whether there are scales to gather, with one row a token
  perToken : Bool
  cols : Nat → Nat
  k : Nat

namespace DpPipe

/-- Nothing is done, and `None` returned, unless this holds. -/
def applicable (c : DpPipe) : Bool :=
  c.customOps && c.supported &&
    match c.sizes with
    | none => false
    | some sizes => !(!c.dbo && sizes.sum < c.minTokens) && c.commReady && !(sizes.length < 2)

variable (c : DpPipe) (sizes : List Nat)

def size (rank : Nat) : Nat := sizes.getD rank 0

def offs (rank : Nat) : Nat := (sizes.take rank).sum

/-- `range(W)`, or its halves: each from a rank up to another. -/
def groups : List (Nat × Nat) :=
  let w := sizes.length
  if c.dbo then [(0, w)] else [(0, w / 2), (w / 2, w)]

/-- The tensors that are gathered: hidden states, weights, ids, and scales. -/
def tensors : Nat := if c.perToken then 4 else 3

/-- The spare rows after `moe_out`. -/
def spare : Nat := if c.epDirectSum then ((c.groups sizes).map fun g => offs sizes g.2 - offs sizes g.1).foldr max 0 else 0

def uniform : Bool := c.pipeUniform && c.dbo && 0 < size sizes 0 && sizes.all fun n => n == size sizes 0

/-- `broadcast(grp, stream)` on one rank -/
def broadcast (rank : Nat) (g : Nat × Nat) : List Collective :=
  if c.uniform sizes then (List.range c.tensors).map fun j => .allGather j (size sizes rank) (size sizes rank * c.cols j)
  else (List.range c.tensors).flatMap fun j => (List.range' g.1 (g.2 - g.1)).map fun root =>
    .broadcast j root (offs sizes root) (size sizes root) (size sizes root * c.cols j)

/-- `reduce(grp, stream)` on one rank -/
def reduce (rank : Nat) (g : Nat × Nat) : List Collective :=
  if c.uniform sizes then [.reduceScatter (size sizes rank) (size sizes rank * c.k)]
  else (List.range' g.1 (g.2 - g.1)).map fun root => .reduce root (offs sizes root) (size sizes root) (size sizes root * c.k)

/-- The collectives a rank issues, group by group as one launch each. -/
def issues (rank : Nat) : List (List Collective) :=
  (c.groups sizes).map (c.broadcast sizes rank) ++ (c.groups sizes).map (c.reduce sizes rank)

/-- `_dp_pipe_apply`: none where it returns `None`, else what the rank issues. -/
def dpPipeApply (rank : Nat) : Option (List (List Collective)) :=
  if c.applicable then c.sizes.map fun sizes => c.issues sizes rank else none

end DpPipe

/-- The rows of each rank, and what its experts compute. -/
structure PipeData (X Y : Type) where
  tokens : (rank tensor row : Nat) → X
  staticScale : Nat → Option X
  apply : (rank : Nat) → ExpertBatch X → Nat → Y

/-- The buffers of a rank, and how many launches each of its streams has done. -/
structure PipeRank (X Y : Type) where
  side : Nat
  compute : Nat
  gath : Nat × Nat → X
  moeFull : Nat → Y
  result : Nat → Y

section
variable {X Y : Type} [AddCommMonoid Y] (c : DpPipe) (sizes : List Nat) (d : PipeData X Y)

open DpPipe

/-- The rows of the gathered tensors that a collective stores. -/
def Collective.gathers : Collective → List ((Nat × Nat) × X)
  | .broadcast j root start rows _ => (List.range rows).map fun i => ((j, start + i), d.tokens root j i)
  | .allGather j rows _ => (List.range sizes.length).flatMap fun src =>
      (List.range rows).map fun i => ((j, src * rows + i), d.tokens src j i)
  | _ => []

/-- The rows of its result that a collective stores on a rank. -/
def Collective.reduces (moe : Nat → Nat → Y) (rank : Nat) : Collective → List (Nat × Y)
  | .reduce root start rows _ =>
    if root = rank then (List.range rows).map fun i => (i, ∑ q ∈ Finset.range sizes.length, moe q (start + i)) else []
  | .reduceScatter rows _ =>
    (List.range rows).map fun i => (i, ∑ q ∈ Finset.range sizes.length, moe q (rank * rows + i))
  | _ => []

/-- `a1q_scale[a:b] if a1q_scale is not None and a1q_scale.numel() > 1 else a1q_scale` -/
def scaleArg (rank a : Nat) (gath : Nat × Nat → X) : ScaleArg X :=
  if c.perToken then
    if sizes.sum * c.cols 3 > 1 then .rows fun i => gath (3, a + i) else .rows fun i => gath (3, i)
  else match d.staticScale rank with
    | none => .absent
    | some x => .one x

/-- What `experts(grp)` passes on. -/
def expertBatch (rank : Nat) (g : Nat × Nat) (gath : Nat × Nat → X) : ExpertBatch X :=
  let a := offs sizes g.1
  { n := offs sizes g.2 - a
    hiddenStates := fun i => gath (0, a + i)
    topkWeights := fun i => gath (1, a + i)
    topkIds := fun i => gath (2, a + i)
    scale := scaleArg c sizes d rank a gath }

/-- `experts(grp)`: nothing for an empty group; the spare rows are left with anything. -/
def runExperts (rank : Nat) (g : Nat × Nat) (junk : Nat → Y) (s : PipeRank X Y) : PipeRank X Y :=
  let a := offs sizes g.1
  let b := offs sizes g.2
  { s with
    compute := s.compute + 1
    moeFull := fun row =>
      if b ≤ a then s.moeFull row
      else if a ≤ row ∧ row < b then d.apply rank (expertBatch c sizes d rank g s.gath) (row - a)
      else if sizes.sum ≤ row ∧ row < sizes.sum + c.spare sizes then junk row
      else s.moeFull row }

/-- A rank leaves a launch of collectives. -/
def runCollectives (rank : Nat) (launch : List Collective) (moe : Nat → Nat → Y) (s : PipeRank X Y) : PipeRank X Y :=
  { s with
    side := s.side + 1
    gath := scatter s.gath (launch.flatMap (Collective.gathers sizes d))
    result := scatter s.result (launch.flatMap (Collective.reduces sizes moe rank)) }

/-- A rank has come to launch `k` of its side stream; a reduction waits for the experts of its group. -/
def arrived (s : PipeRank X Y) (k : Nat) : Prop :=
  k ≤ s.side ∧ ((c.groups sizes).length ≤ k → k - (c.groups sizes).length < s.compute)

/-- One step of one rank. -/
inductive PipeStep (s : Nat → PipeRank X Y) : (Nat → PipeRank X Y) → Prop
  -- the experts of a group wait for its gathered rows
  | experts (rank : Nat) (g : Nat × Nat) (junk : Nat → Y) : rank < sizes.length → (c.groups sizes)[(s rank).compute]? = some g →
      (s rank).compute < (s rank).side →
      PipeStep s (Function.update s rank (runExperts c sizes d rank g junk (s rank)))
  -- all ranks have come to the launch, with the same collectives
  | collectives (rank : Nat) (launch : List Collective) : rank < sizes.length →
      (∀ q < sizes.length, arrived c sizes (s q) (s rank).side) →
      (∀ q < sizes.length, (c.issues sizes q)[(s rank).side]? = some launch) →
      PipeStep s (Function.update s rank (runCollectives sizes d rank launch (fun q => (s q).moeFull) (s rank)))

/-- `n` steps. -/
inductive PipeRun : Nat → (Nat → PipeRank X Y) → (Nat → PipeRank X Y) → Prop
  | nil (s : Nat → PipeRank X Y) : PipeRun 0 s s
  | snoc {n : Nat} {s t u : Nat → PipeRank X Y} : PipeRun n s t → PipeStep c sizes d t u → PipeRun (n + 1) s u

end

end VllmHcu.Moe
