import Mathlib.Algebra.Order.Group.Int
import Mathlib.Logic.Function.Basic
import Mathlib.Algebra.Ring.Int.Defs
import Mathlib.Algebra.GroupWithZero.Nat

/-!
# Drafting on the tail of a prefill chunk

The modules of a drafter run one after another on the tokens of a query; each
reads its own cache through a sliding window. On a prefill chunk they run on the
last tokens only.
-/

namespace VllmHcu.Mtp

/-! ## The configuration -/

/-- What `_tail_enabled` reads. An integer is `none` where it is absent or not an `int`. -/
structure TailConfig where
  customOpsEnabled : Bool
  isStep5 : Bool
  enablePrefixCaching : Bool
  -- HCU_MTP_PREFILL_TAIL
  tail : Int
  numSpeculativeSteps : Option Int
  mtpStartLayerIdx : Option Int
  numMtpLayers : Option Int
  numHiddenLayers : Option Int
  numNextnPredictLayers : Option Int
  layerTypesWithMtp : Option (List String)
  -- of the attention of a layer, by the layer's name
  slidingWindow : String → Option Int

/-- One round of the loop of `_mtp_tail_required_tokens`. -/
def needStep (layerTypes : List String) (slidingWindow : String → Option Int) (start count : Int) (need : Int) (step : Nat) :
    Option Int := do
  let idx := start + (step : Int) % count
  guard (layerTypes[idx.toNat]? = some "sliding_attention")
  let window ← slidingWindow (toString idx)
  guard (0 < window)
  return need + (window - 1)

def mtpTailRequiredTokens (c : TailConfig) : Option Int := do
  let start ← c.mtpStartLayerIdx
  let count ← c.numMtpLayers
  let steps ← c.numSpeculativeSteps
  let layerTypes ← c.layerTypesWithMtp
  guard (0 ≤ start ∧ 0 < count ∧ 0 < steps ∧ c.numHiddenLayers = some start ∧ c.numNextnPredictLayers = some count ∧
    start + count ≤ layerTypes.length)
  (List.range steps.toNat).foldlM (needStep layerTypes c.slidingWindow start count) 1

def tailEnabled (c : TailConfig) : Bool :=
  c.customOpsEnabled && c.isStep5 && decide (0 < c.tail) && !c.enablePrefixCaching &&
    (mtpTailRequiredTokens c).any (· ≤ c.tail)

/-! ## Trimming a batch -/

structure DpSync where
  eager : Bool
  numTokensAcrossDp : List Int

structure InputBatch where
  -- `is_prefilling_np`, where it is an array of booleans
  isPrefillingNp : Option (List Bool)
  queryStartLocNp : List Int
  inputIds : List Int
  positions : List Int
  seqLensCpu : Option (List Int)

structure Trimmed where
  numScheduledTokens : List Int
  numTokens : Int
  queryStartLocNp : List Int
  -- `gidx`, with which the hidden states are gathered too
  index : List Int
  inputIds : List Int
  positions : List Int
  maxQueryLen : Int
  numComputedTokensCpu : Option (List Int)
  dpSync : Option DpSync

def diff (l : List Int) : List Int := List.zipWith (· - ·) l.tail l

/-- The tokens that a request keeps. -/
def keptLen (tail : Int) (prefilling : Bool) (q : Int) : Int := if prefilling then min q tail else q

-- `np.repeat`
def repeatEach (values counts : List Int) : List Int :=
  (values.zip counts).flatMap fun p => List.replicate p.2.toNat p.1

-- `np.zeros` and `np.cumsum` into its rest
def startLocs : Int → List Int → List Int
  | start, [] => [start]
  | start, n :: ns => start :: startLocs (start + n) ns

def gatherIndex (qsl n : List Int) : List Int :=
  let newQsl := startLocs 0 n
  let arange := (List.range n.sum.toNat).map Int.ofNat
  List.zipWith (· + ·) (List.zipWith (· - ·) arange (repeatEach newQsl.dropLast n))
    (repeatEach (List.zipWith (· - ·) qsl.tail n) n)

/-- `_trim`; `none` leaves the batch as it is. -/
def trim (tail : Int) (dpSize dpRank : Nat) (batch : InputBatch) (dpSync : Option DpSync) : Option Trimmed :=
  match batch.isPrefillingNp with
  | none => none
  | some prefilling =>
    let qsl := batch.queryStartLocNp
    let q := diff qsl
    let n := List.zipWith (keptLen tail) prefilling q
    if prefilling.length ≠ q.length then none
    else if n = q then none
    else if 1 < dpSize ∧ (dpSync.all fun d => !d.eager) then none
    else
      let index := gatherIndex qsl n
      some {
        numScheduledTokens := n
        numTokens := n.sum
        queryStartLocNp := startLocs 0 n
        index
        inputIds := index.map fun i => batch.inputIds.getD i.toNat 0
        positions := index.map fun i => batch.positions.getD i.toNat 0
        maxQueryLen := n.foldl max 0
        numComputedTokensCpu := batch.seqLensCpu.map fun seqLens => List.zipWith (· - ·) seqLens n
        dpSync := dpSync.map fun d => { d with numTokensAcrossDp := d.numTokensAcrossDp.set dpRank n.sum } }

/-! ## The modules -/

section
variable {H V Tok : Type}

/-- What the modules compute at a position, from the output of the step before, a token, and the cache entries of the
window. -/
structure Modules (H V Tok : Type) where
  entry : Nat → Nat → H → Tok → V
  output : Nat → Nat → H → Tok → List (Option V) → H

/-- The positions in `(p - window, p]`. -/
def windowPositions (window p : Nat) : List Nat := List.range' (p + 1 - window) (p + 1 - (p + 1 - window))

/-- The tokens of a request in one batch. -/
structure Query (H Tok : Type) where
  start : Nat
  len : Nat
  prefilling : Bool
  -- whether the batch was trimmed
  trimmed : Bool
  -- the target's hidden state at a position
  hidden : Nat → H
  -- the token at a step and a position; behind the prompt it is drafted from the outputs at the last token
  token : Nat → Nat → List H → Tok

def Query.last (q : Query H Tok) : Nat := q.start + q.len - 1

structure Draft (H V : Type) where
  -- by module and position
  cache : Nat → Nat → Option V
  hidden : Nat → H
  -- the outputs at the last token
  outs : List H

structure Drafter (H V Tok : Type) where
  modules : Modules H V Tok
  count : Nat
  steps : Nat
  -- by module
  window : Nat → Nat

namespace Drafter
variable (dr : Drafter H V Tok)

/-- One step, run on the positions from `first` to the last of the query. -/
def stepAt (q : Query H Tok) (first k : Nat) (d : Draft H V) : Draft H V :=
  let m := k % dr.count
  let inside := fun p => first ≤ p ∧ p ≤ q.last
  let token := fun p => q.token k p d.outs
  let cache := Function.update d.cache m fun p =>
    if inside p then some (dr.modules.entry m p (d.hidden p) (token p)) else d.cache m p
  let hidden := fun p =>
    if inside p then dr.modules.output m p (d.hidden p) (token p) ((windowPositions (dr.window m) p).map (cache m))
    else d.hidden p
  ⟨cache, hidden, d.outs ++ [hidden q.last]⟩

def propose (q : Query H Tok) (first : Nat) (cache : Nat → Nat → Option V) : Nat → Draft H V
  | 0 => ⟨cache, q.hidden, []⟩
  | k + 1 => dr.stepAt q first k (propose q first cache k)

/-- The outputs, by query, step and position. -/
def run (first : Query H Tok → Nat) : (Nat → Nat → Option V) → List (Query H Tok) → List (Nat → Nat → H)
  | _, [] => []
  | cache, q :: qs =>
    (fun k p => (dr.propose q (first q) cache (k + 1)).hidden p) ::
      run first (dr.propose q (first q) cache dr.steps).cache qs

end Drafter

/-- The first position of a query that `_trim` keeps. -/
def firstKept (tail : Nat) (q : Query H Tok) : Nat :=
  if q.trimmed then q.start + q.len - (keptLen tail q.prefilling q.len).toNat else q.start

end

end VllmHcu.Mtp
