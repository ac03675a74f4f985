import VllmHcu.Lib.TopK

/-!
# Top-k over a context-parallel KV shard

Every rank scores the positions it holds and selects its own top-k. The ranks
then exchange the candidates with their scores and each selects from all of
them. A score is `⊥` (minus infinity) where a column is masked or a candidate
is padding.
-/

namespace VllmHcu.Dcp

section
variable {α : Type} [LinearOrder α]

/-- `torch.topk` along one row: `k` distinct indices of largest values. -/
structure TorchTopk (α : Type) [LinearOrder α] where
  indices : List (WithBot α) → Nat → List Nat
  nodup : ∀ values k, k ≤ values.length → (indices values k).Nodup
  best : ∀ values k, k ≤ values.length →
    Best (fun i => values.getD i ⊥) k (Finset.range values.length) (indices values k).toFinset

/-- A two-dimensional tensor of finite scores. -/
structure Logits (α : Type) where
  rows : Nat
  cols : Nat
  elem : Nat → Nat → α

def Logits.transpose (logits : Logits α) : Logits α := ⟨logits.cols, logits.rows, fun i j => logits.elem j i⟩

/-- `.to(torch.int32)` of an integer. -/
def toInt32 (z : Int) : Int := Int.bmod z (2 ^ 32)

/-- The integer nearest to `z` that float32 holds, ties to even. -/
def roundFloat32 (z : Int) : Int :=
  if z.natAbs < 2 ^ 24 then z
  else
    let u : Int := 2 ^ (Nat.log2 z.natAbs - 23)
    let m := z / u
    let r := z % u
    if 2 * r < u ∨ 2 * r = u ∧ m % 2 = 0 then m * u else (m + 1) * u

def clamp (lo hi z : Int) : Int := min (max z lo) hi

variable (topk : TorchTopk α)

/-- One row of `_topk_indices_torch`, its bounds already clamped. -/
def topkRow (topkTokens cols : Nat) (row : Nat → α) (start stop : Int) : List Int :=
  let rowLen := max (stop - start) 0
  let masked : List (WithBot α) := (List.range cols).map fun c : Nat =>
    if start ≤ (c : Int) ∧ (c : Int) < stop then (row c : WithBot α) else ⊥
  let k := min topkTokens cols
  let indices := (topk.indices masked k).map fun c : Nat =>
    if masked.getD c ⊥ = ⊥ then -1 else toInt32 ((c : Int) - start)
  let selected := indices ++ List.replicate (topkTokens - k) (-1)
  let allValid := (List.range topkTokens).map fun i : Nat => if (i : Int) < rowLen then (i : Int) else -1
  if rowLen ≤ topkTokens then allValid else selected

def topkIndicesTorch (logits : Logits α) (topkTokens : Nat) (rowStarts rowEnds : Option (List Int)) :
    Except String (List (List Int)) :=
  match rowEnds with
  | none =>
    .ok ((List.range logits.rows).map fun b => topkRow topk topkTokens logits.cols (logits.elem b) 0 logits.cols)
  | some rowEnds => do
    let numRows := rowEnds.length
    let rows := logits.rows
    let cols := logits.cols
    let logits ←
      if rows ≠ numRows then
        if cols = numRows then .ok logits.transpose
        else .error s!"Torch sparse-MLA topk logits/query row mismatch: logits=({rows}, {cols}), rows={numRows}"
      else .ok logits
    return (List.range numRows).map fun b =>
      let start := match rowStarts with
        | none => 0
        | some starts => clamp 0 logits.cols (starts.getD b 0)
      let stop := max (clamp 0 logits.cols (rowEnds.getD b 0)) start
      topkRow topk topkTokens logits.cols (logits.elem b) start stop

/-- What a rank brings to the merge: its logits, its local selection and the row starts of the shared buffer. -/
structure Candidates (α : Type) where
  logits : Logits α
  topkIndices : List (List Int)
  rowStarts : Option (List Int)

/-- The column of local position `i` in row `b`, before the clamp. -/
def scoreColumn (rowStarts : Option (List Int)) (b : Nat) (i : Int) : Int :=
  match rowStarts with
  | none => i
  | some starts => i + starts.getD b 0

/-- The packed `(score, global id)` pairs of row `b`. -/
def packedRow (dcpWorldSize cpInterleave dcpRank : Nat) (c : Candidates α) (b : Nat) : List (WithBot α × Int) :=
  (c.topkIndices.getD b []).map fun i : Int =>
    let safeLocal := max i 0
    let column := min (scoreColumn c.rowStarts b safeLocal) ((c.logits.cols - 1 : Nat) : Int)
    let score : WithBot α :=
      if c.logits.cols = 0 then ⊥
      else if i < 0 then ⊥ else c.logits.elem b column.toNat
    -- without row starts `score_columns` is `safe_local` itself, which `clamp_max_` changes in place
    let safeLocal := if c.logits.cols ≠ 0 ∧ c.rowStarts = none then column else safeLocal
    let globalId := toInt32 (safeLocal / cpInterleave * (dcpWorldSize * cpInterleave) + dcpRank * cpInterleave +
      safeLocal % cpInterleave)
    (score, roundFloat32 (if i < 0 then -1 else globalId))

/-- `_merge_dcp_topk_global` on the torch branch: the rows left on `rank`. -/
def mergeDcpTopkGlobal (topkTokens dcpWorldSize cpInterleave : Nat) (group : Nat → Candidates α) (rank : Nat) :
    List (List Int) :=
  if dcpWorldSize ≤ 1 then (group rank).topkIndices
  else
    (List.range (group rank).topkIndices.length).map fun b =>
      let gathered := (List.range dcpWorldSize).flatMap fun r => packedRow dcpWorldSize cpInterleave r (group r) b
      (topk.indices (gathered.map Prod.fst) topkTokens).map fun s => toInt32 (gathered.getD s (⊥, -1)).2

end

end VllmHcu.Dcp
