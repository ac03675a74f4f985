import VllmHcu.Lib.LogSumExp
import VllmHcu.Lib.Result
import VllmHcu.Lib.RowMajor

/-!
# The attention sink under decode context parallelism

`HYV4FlashMLASparseImpl` in a DCP group. The query heads of all ranks are
gathered and every rank attends with all of them to the selected keys it owns.
Rank 0 gives the gathered sinks to its kernel and later adds them to its LSE.
The kernel, the index conversion and the arithmetic are exact parameters.
-/

namespace VllmHcu.HyV4

open LogSumExp

/-- What an impl of one rank reads; `sinks` are the `numHeads` local sinks of every rank. -/
structure DcpImpl where
  dcpWorldSize : Nat
  dcpRank : Nat
  numHeads : Nat
  sinks : Option (Nat → Nat → ℝ)
  fp8DecodePaddedHeads : Nat
  needToReturnLseForDecode : Bool
  dcp_gt : 1 < dcpWorldSize

/-- A sink tensor: its length and its entries. -/
structure SinkTensor where
  numel : Nat
  entry : Nat → ℝ

/-- The arguments of `flash_mla_with_kvcache` that matter here. -/
structure KernelArgs (Q Key : Type) where
  heads : Nat
  query : Nat → Nat → Q
  cache : Nat → Key
  width : Nat
  indices : Nat → Nat → Int
  attnSink : Option (Nat → Lse)

/-- Output by token, head and channel, and LSE by head and token. -/
structure KernelResult where
  out : Nat → Nat → Nat → ℝ
  lse : Nat → Nat → Lse

namespace DcpImpl
variable (i : DcpImpl)

/-- `process_weights_after_loading`: `_dcp_gathered_sinks`. -/
def dcpGatheredSinks : Option SinkTensor :=
  i.sinks.map fun sinks => ⟨i.dcpWorldSize * i.numHeads, allGather i.numHeads sinks⟩

/-- `_fp8_sink_for_gathered_query` with more than one rank: none off rank 0, else the sinks padded with minus infinity. -/
def fp8SinkForGatheredQuery (queryHeads : Nat) : Except String (Option (Nat → Lse)) :=
  if i.dcpRank ≠ 0 ∨ i.sinks.isNone then .ok none
  else
    match i.dcpGatheredSinks with
    | none => .error ("HY V4 DCP sink does not match gathered query heads: sink_heads=None, query_heads=" ++
        toString queryHeads ++ ".")
    | some sinks =>
      if sinks.numel ≠ queryHeads then
        .error ("HY V4 DCP sink does not match gathered query heads: sink_heads=" ++ toString sinks.numel ++
          ", query_heads=" ++ toString queryHeads ++ ".")
      else if i.fp8DecodePaddedHeads < queryHeads then
        .error ("HY V4 DCP FP8 kernel head count cannot be smaller than the gathered query: kernel_heads=" ++
          toString i.fp8DecodePaddedHeads ++ ", query_heads=" ++ toString queryHeads ++ ".")
      else if i.fp8DecodePaddedHeads = queryHeads then .ok (some fun h => (sinks.entry h : ℝ))
      else .ok (some fun h => if h < queryHeads then (sinks.entry h : ℝ) else ⊥)

section
variable {Q Key : Type} [Zero Q] (kernel : KernelArgs Q Key → KernelResult)

/-- `_fp8_flash_mla_kernel`: the query is padded with zero heads; the result is read for the query's own heads. -/
def fp8FlashMlaKernel (queryHeads : Nat) (query : Nat → Nat → Q) (cache : Nat → Key) (width : Nat)
    (topkIndices : Nat → Nat → Int) : Except String KernelResult := do
  let attnSink ← i.fp8SinkForGatheredQuery queryHeads
  let padded := queryHeads < i.fp8DecodePaddedHeads
  pure (kernel
    { heads := if padded then i.fp8DecodePaddedHeads else queryHeads
      query := if padded then fun t h => if h < queryHeads then query t h else 0 else query
      cache := cache, width := width, indices := topkIndices, attnSink := attnSink })

/-- `_add_single_dcp_sink_to_lse` on rows of `lseHeads` entries. -/
noncomputable def addSingleDcpSinkToLse (lseHeads : Nat) (rawLse : Nat → Nat → Lse) : Except String (Nat → Nat → Lse) :=
  if i.dcpRank ≠ 0 ∨ i.sinks.isNone then .ok rawLse
  else
    match i.dcpGatheredSinks with
    | none => .error "HY V4 DCP requires loaded sink weights and per-head LSE."
    | some sinks =>
      if lseHeads ≠ sinks.numel then
        .error ("HY V4 DCP LSE head count does not match gathered sinks: lse_heads=" ++ toString lseHeads ++
          ", sink_heads=" ++ toString sinks.numel ++ ".")
      else .ok fun t h => logaddexp (rawLse t h) (sinks.entry h : ℝ)

/-- `_forward_fp8_kv_mixed_batch` with more than one rank; `convert` is `triton_filter_and_convert_dcp_index` on
the selected indices. -/
noncomputable def forwardFp8KvMixedBatch (queryHeads : Nat) (query : Nat → Nat → Q) (cache : Nat → Key) (width : Nat)
    (convert : Nat → Nat → Int) : Except String ((Nat → Nat → Nat → ℝ) × Option (Nat → Nat → Lse)) := do
  let result ← i.fp8FlashMlaKernel kernel queryHeads query cache width convert
  if !i.needToReturnLseForDecode then
    pure (result.out, none)
  else
    let rawLse := fun t h => result.lse h t
    let emptyRow := fun t => (List.range width).all fun j => convert t j = -1
    let output := fun t h d => if emptyRow t then 0 else result.out t h d
    let rawLse := fun t h => if emptyRow t then ⊥ else rawLse t h
    let lse ← i.addSingleDcpSinkToLse queryHeads rawLse
    pure (output, some lse)

end

end DcpImpl

/-! ## What the kernel and the conversion do -/

section
variable {Q Key : Type} (score : Q → Key → ℝ) (value : Key → Nat → ℝ)

/-- The key of an index of a row: none at `-1`. -/
def keyAt (cache : Nat → Key) (index : Int) : Option Key := if index = -1 then none else some (cache index.toNat)

/-- The sum of the exponentials of the scores of the keys of a row. -/
noncomputable def denominator (q : Q) (width : Nat) (key : Nat → Option Key) : ℝ :=
  ∑ j ∈ Finset.range width, (key j).elim 0 fun k => Real.exp (score q k)

/-- The same sum with the values. -/
noncomputable def numerator (q : Q) (width : Nat) (key : Nat → Option Key) (d : Nat) : ℝ :=
  ∑ j ∈ Finset.range width, (key j).elim 0 fun k => Real.exp (score q k) * value k d

/-- The kernel masks `-1`, scales its output by the sink where one is given and returns the LSE without it. On a row
without keys it may return anything. -/
structure KernelSpec (kernel : KernelArgs Q Key → KernelResult) : Prop where
  lse : ∀ a t h, h < a.heads → (∃ j < a.width, a.indices t j ≠ -1) →
    (kernel a).lse h t = ofWeight (denominator score (a.query t h) a.width fun j => keyAt a.cache (a.indices t j))
  out : ∀ a t h d, h < a.heads → (∃ j < a.width, a.indices t j ≠ -1) →
    (kernel a).out t h d =
      numerator score value (a.query t h) a.width (fun j => keyAt a.cache (a.indices t j)) d /
          denominator score (a.query t h) a.width (fun j => keyAt a.cache (a.indices t j)) *
        a.attnSink.elim 1 fun sink => weight ((kernel a).lse h t) / (weight ((kernel a).lse h t) + weight (sink h))

/-- The conversion keeps the selected keys that a rank owns, as indices of its cache, and puts `-1` elsewhere. -/
structure Localized (ranks width : Nat) (selected : Nat → Nat → Option Key) (owner : Nat → Nat → Nat)
    (cache : Nat → Nat → Key) (convert : Nat → Nat → Nat → Int) : Prop where
  owner_lt : ∀ t j, j < width → owner t j < ranks
  key : ∀ r < ranks, ∀ t j, j < width →
    keyAt (cache r) (convert r t j) = if owner t j = r then selected t j else none

end

end VllmHcu.HyV4
