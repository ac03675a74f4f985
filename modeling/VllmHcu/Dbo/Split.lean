import Mathlib.Algebra.BigOperators.Group.List.Basic
import Mathlib.Algebra.Order.Group.Int
import Mathlib.Algebra.Ring.Int.Defs

/-!
# Splitting a step into two microbatches

Each data parallel rank looks at its own requests and votes; the step is split
when every rank votes for it. The split cuts the tokens of a rank at a point
that all ranks know, and a request that lies across it is in both halves.
-/

namespace VllmHcu.Dbo

/-! ## The gate -/

def minTail : Int := 64

/-- `num_scheduled_tokens` of a batch: absent, not an array of integers in one dimension, or such an array. -/
inductive QueryLens
  | missing
  | malformed
  | ints (lens : List Int)

def cumsum (lens : List Int) : List Int := (List.range lens.length).map fun i => (lens.take (i + 1)).sum

def hasPrefillInBothUbatches (queryLens : QueryLens) (numTokens splitPoint : Int) (decodeThreshold : Option Int) : Bool :=
  match queryLens, decodeThreshold with
  | .ints lens, some threshold =>
    if threshold < 1 then false
    else if lens.any (· ≤ 0) || lens.any (numTokens < ·) then false
    else
      let ends := cumsum lens
      if ends.getLast? ≠ some numTokens then false
      else
        let starts := List.zipWith (· - ·) ends lens
        let left := List.zipWith (fun e s => min e splitPoint - min s splitPoint) ends starts
        let right := List.zipWith (fun e s => max e splitPoint - max s splitPoint) ends starts
        left.any (threshold < ·) && right.any (threshold < ·)
  | _, _ => false

/-- What the runner's attention groups hold of the DSA's builders: the class is not loaded, the walk over the groups
raises, or the thresholds, `none` for one that is not an integer. -/
inductive DsaBuilders
  | noClass
  | raises
  | thresholds (ts : List (Option Int))

def dsaDecodeThreshold : DsaBuilders → Except Unit (Option Int)
  | .noClass => .ok none
  | .raises => .error ()
  | .thresholds ts => if ts = [] || ts.any (·.all (· < 1)) then .ok none else .ok (ts.filterMap id).max?

structure Runner where
  -- `parallel_config is config`
  ownsConfig : Bool
  pcpManager : Bool
  adaptiveVerification : Bool
  builders : DsaBuilders

/-- What a rank knows alone: the `num_tokens` of its caller, -1 when there is none, and the batch of its dispatch. -/
structure Rank where
  uniformDecode : Bool
  numTokens : Int
  current : Option (Runner × QueryLens)

def Rank.eligible (rank : Rank) (splitPoint : Int) : Bool :=
  match rank.current with
  | none => false
  | some (runner, queryLens) =>
    !rank.uniformDecode && runner.ownsConfig && !runner.pcpManager && !runner.adaptiveVerification &&
      match dsaDecodeThreshold runner.builders with
      | .ok threshold => hasPrefillInBothUbatches queryLens rank.numTokens splitPoint threshold
      -- caught, and a veto
      | .error _ => false

inductive Gate
  | returns (decision : Bool)
  | votes (eligible : Bool)

/-- With `_hcu_step5_dbo`. `numTokens` and `across` are what the ranks have all-reduced. -/
def checkUbatchThresholds (dboMinTokens numTokens : Int) (across : Option (List Int)) (rank : Rank) : Gate :=
  if numTokens < dboMinTokens then .returns false
  else
    match across.bind (·.max?) with
    | none => .returns false
    | some largest =>
      let splitPoint := largest / 2
      if numTokens - splitPoint < minTail then .returns false
      else .votes (rank.eligible splitPoint)

/-- What each rank returns: `none` waits for ever in the vote. -/
def decisions (gates : List Gate) : List (Option Bool) :=
  gates.map fun
    | .returns decision => some decision
    | .votes _ =>
      if gates.all fun | .votes _ => true | .returns _ => false then
        some (gates.all fun | .votes eligible => eligible | .returns _ => true)
      else none

/-! ## Slices -/

structure UBatchSlice where
  requestStart : Nat
  requestStop : Nat
  tokenStart : Int
  tokenStop : Int

-- `np.searchsorted` on a sorted array
def searchsortedLeft (a : List Int) (x : Int) : Nat := a.countP (· < x)

def searchsortedRight (a : List Int) (x : Int) : Nat := a.countP (· ≤ x)

def cuNumTokens (numScheduledTokens : List Int) : List Int :=
  (List.range (numScheduledTokens.length + 1)).map fun i => (numScheduledTokens.take i).sum

def createSlices (cu : List Int) : Int → List Int → List UBatchSlice
  | _, [] => []
  | startToken, endToken :: rest =>
    ⟨searchsortedRight cu startToken - 1, searchsortedLeft cu endToken, startToken, endToken⟩ ::
      createSlices cu endToken rest

inductive SplitPoint
  | default
  | every (tokens : Int)
  | points (tokens : List Int)

inductive SliceError
  | numUbatches
  | splitPointCount
  | notIncreasing
  | outOfRange

def tokenSplitPoints (numTokensPadded numUbatches : Int) : SplitPoint → Except SliceError (List Int)
  | .points tokens => if (tokens.length : Int) ≠ numUbatches - 1 then .error .splitPointCount else .ok tokens
  | .every tokens => .ok ((List.range (numUbatches.toNat - 1)).map fun i : Nat => tokens * ((i : Int) + 1))
  | .default => .ok ((List.range (numUbatches.toNat - 1)).map fun i : Nat => numTokensPadded / numUbatches * ((i : Int) + 1))

/-- The slices of the requests' own tokens. -/
def maybeCreateUbatchSlices (numScheduledTokens : List Int) (numTokensPadded numUbatches : Int)
    (splitPoint : SplitPoint) : Except SliceError (List UBatchSlice) := do
  if numUbatches ≤ 0 then throw .numUbatches
  let points ← tokenSplitPoints numTokensPadded numUbatches splitPoint
  if ¬ points.Pairwise (· ≤ ·) then throw .notIncreasing
  if points.any fun p => p < 0 || numTokensPadded < p then throw .outOfRange
  return createSlices (cuNumTokens numScheduledTokens) 0 (points ++ [numScheduledTokens.sum])

/-! ## Microbatches -/

structure InputBatch where
  queryStartLocNp : List Int
  seqLensCpu : Option (List Int)
  blockTablesNp : Option (List (List (List Int)))

structure UBatch where
  queryStartLocNp : List Int
  maxQueryLen : Int
  seqLensCpu : Option (List Int)
  numComputedTokensCpu : Option (List Int)
  blockTablesNp : Option (List (List (List Int)))

def slice {α : Type} (l : List α) (start stop : Nat) : List α := (l.drop start).take (stop - start)

-- `np.diff`
def diff (l : List Int) : List Int := List.zipWith (· - ·) l.tail l

def UBatch.queryLens (ub : UBatch) : List Int := diff ub.queryStartLocNp

/-- `orig` gives the query starts of a slice. -/
def sliceInputBatch (orig : InputBatch → UBatchSlice → List Int) (batch : InputBatch) (s : UBatchSlice) : UBatch :=
  let queryStartLocNp := orig batch s
  let qlens := diff queryStartLocNp
  let seqLensCpu := batch.seqLensCpu.map fun all =>
    let seqLens := slice all s.requestStart s.requestStop
    let cut := batch.queryStartLocNp.getD s.requestStop 0 - s.tokenStop
    if 0 < cut then seqLens.modify (seqLens.length - 1) (· - cut) else seqLens
  { queryStartLocNp
    maxQueryLen := qlens.foldl max 0
    seqLensCpu
    numComputedTokensCpu := seqLensCpu.map fun seqLens => List.zipWith (· - ·) seqLens qlens
    blockTablesNp := batch.blockTablesNp.map fun tables => tables.map fun t => slice t s.requestStart s.requestStop }

end VllmHcu.Dbo
