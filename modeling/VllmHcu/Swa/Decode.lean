import VllmHcu.Lib.Scatter
import VllmHcu.Lib.Stride
import Mathlib.Data.Nat.Log

/-!
# Sliding-window decode attention

`_swa_split_kernel` runs one program for each request, KV head and key chunk. A
program walks over its chunk in tiles of `BLOCK_N` keys with the next tile
already in flight, and stores one partial result for each row of its tile of
queries. `_swa_combine_gate_quant_kernel` finds the request of a token row and
merges the partials of that row.

Positions and lengths are natural numbers, so `tl.maximum(x - y, 0)` is a
truncated subtraction. The 32-bit offsets into the workspaces are natural
numbers too: they fit for workspaces of at most `2 ^ 31` elements
(`wsRow_fits`). The arithmetic on the scores is a parameter.
-/

namespace VllmHcu.Swa

def blockN : Nat := 32

def chunk : Nat := 64

def maxQueryLen : Nat := 4

/-- The launch constants, with the checks of `can_use_swa_decode_fp8_d192` that concern them. -/
structure Launch where
  windowLeft : Nat
  group : Nat
  numKvHeads : Nat
  page : Nat
  group_pos : 0 < group
  page_pos : 0 < page
  blockN_dvd : blockN ∣ page

namespace Launch
variable (c : Launch)

def numSplits : Nat := cdiv (c.windowLeft + maxQueryLen + blockN - 1) chunk

def blockM : Nat := maxQueryLen * c.group

end Launch

/-- The batch: `cu_seqlens_q` holds the running sums of the query lengths as 32-bit
integers, and a request never has more queries than keys. -/
structure Batch where
  numSeqs : Nat
  cuSeqlensQ : Nat → Nat
  sequsedK : Nat → Nat
  blockTable : Nat → Nat → Nat
  cu_zero : cuSeqlensQ 0 = 0
  cu_mono : ∀ r < numSeqs, cuSeqlensQ r ≤ cuSeqlensQ (r + 1)
  cu_bound : cuSeqlensQ numSeqs ≤ 2147483647
  max_seqlen_q : ∀ r < numSeqs, cuSeqlensQ (r + 1) - cuSeqlensQ r ≤ maxQueryLen
  le_seqused : ∀ r < numSeqs, cuSeqlensQ (r + 1) - cuSeqlensQ r ≤ sequsedK r

def Batch.qLen (b : Batch) (r : Nat) : Nat := b.cuSeqlensQ (r + 1) - b.cuSeqlensQ r

/-! ## `_swa_split_kernel` -/

/-- A loaded K/V tile: its page and the first of its rows in the page. -/
structure Tile where
  page : Nat
  row : Nat

/-- A key that a row admits: its position and the cache cell it was loaded from. -/
structure Key where
  pos : Nat
  page : Nat
  row : Nat

/-- The tile in flight, the block-table columns read so far, and the tiles used by the
iterations so far, each with its `n0`. -/
structure LoopState where
  tile : Tile
  columns : List Nat
  used : List (Nat × Tile)

section
variable (c : Launch) (blockRow : Nat → Nat) (seqLen qLen : Nat)

def splitStart (sp : Nat) : Nat := (seqLen - qLen - c.windowLeft) / blockN * blockN + sp * chunk

def splitEnd (sp : Nat) : Nat := min (splitStart c seqLen qLen sp + chunk) seqLen

/-- The loads before the loop. -/
def firstLoad (start : Nat) : LoopState :=
  let n1 := max (min start (seqLen - 1)) 0 / blockN * blockN
  { tile := ⟨blockRow (n1 / c.page), n1 % c.page⟩
    columns := [n1 / c.page]
    used := [] }

/-- One iteration: the tile in flight is used and the next one is loaded. -/
def iterate (stop : Nat) (st : LoopState) (n0 : Nat) : LoopState :=
  let n1 := min (n0 + blockN) (stop - 1)
  let page := blockRow (n1 / c.page)
  { tile := ⟨page, n1 / blockN * blockN % c.page⟩
    columns := st.columns ++ [n1 / c.page]
    used := st.used ++ [(n0, st.tile)] }

def splitLoop (sp : Nat) : LoopState :=
  (strided (splitStart c seqLen qLen sp) (splitEnd c seqLen qLen sp) blockN).foldl
    (iterate c blockRow (splitEnd c seqLen qLen sp))
    (firstLoad c blockRow seqLen (splitStart c seqLen qLen sp))

def rowPos (tok : Nat) : Nat := seqLen - qLen + tok

def loRow (tok : Nat) : Nat := rowPos seqLen qLen tok - c.windowLeft

/-- The keys of one tile with `valid` set for the row. -/
def validKeys (tok : Nat) (used : Nat × Tile) : List Key :=
  ((List.range blockN).filter fun o =>
    decide (loRow c seqLen qLen tok ≤ used.1 + o) && decide (used.1 + o ≤ rowPos seqLen qLen tok)).map fun o =>
      ⟨used.1 + o, used.2.page, used.2.row + o⟩

/-- The keys that a row of a program admits, in the order of the loop. -/
def admitted (sp tok : Nat) : List Key :=
  (splitLoop c blockRow seqLen qLen sp).used.flatMap (validKeys c seqLen qLen tok)

end

structure Program where
  r : Nat
  kvh : Nat
  sp : Nat

/-- The programs of the launch. -/
def grid (c : Launch) (b : Batch) : List Program :=
  (List.range b.numSeqs).flatMap fun r => (List.range c.numKvHeads).flatMap fun kvh =>
    (List.range c.numSplits).map fun sp => ⟨r, kvh, sp⟩

section
variable {β γ : Type*} (c : Launch) (b : Batch)

/-- The rows a program stores. `partialOf` computes the partial of a query row, `none` for
a masked one, from its keys. -/
def program (partialOf : Option (Nat × Nat) → List Key → β) (p : Program) : List (Nat × β) :=
  let ws := (p.r * c.numKvHeads + p.kvh) * c.numSplits + p.sp
  (List.range c.blockM).map fun m =>
    let tok := m / c.group
    let head := p.kvh * c.group + m % c.group
    let query := if tok < b.qLen p.r then some (b.cuSeqlensQ p.r + tok, head) else none
    (ws * c.blockM + m,
      partialOf query (admitted c (b.blockTable p.r) (b.sequsedK p.r) (b.qLen p.r) p.sp tok))

/-- The workspace after the programs have run in the given order. -/
def splitKernel (partialOf : Option (Nat × Nat) → List Key → β) (order : List Program) (ws : Nat → β) : Nat → β :=
  scatter ws (order.flatMap (program c b partialOf))

/-! ## `_swa_combine_gate_quant_kernel` -/

/-- `max(triton.next_power_of_2(num_seqs), 2)` -/
def seqsP2 : Nat := max (2 ^ Nat.clog 2 b.numSeqs) 2

/-- `ends`, padded to `SEQS_P2` entries. -/
def ends : List Nat :=
  (List.range (seqsP2 b)).map fun i => if i < b.numSeqs then b.cuSeqlensQ (1 + i) else 2147483647

/-- The program of token row `t`: `none` is the zero row, else the merged row of head `h`. -/
def combineRow (merge : γ → β → γ) (init : γ) (ws : Nat → β) (t h : Nat) : Option γ :=
  let done := (ends b).filter fun e => decide (e ≤ t)
  let r := done.length
  if r ≥ b.numSeqs then none
  else
    let tok := t - done.foldl max 0
    let base := ((r * c.numKvHeads + h / c.group) * c.numSplits) * c.blockM + tok * c.group + h % c.group
    some ((List.range c.numSplits).foldl (fun acc s => merge acc (ws (base + s * c.blockM))) init)

end

end VllmHcu.Swa
