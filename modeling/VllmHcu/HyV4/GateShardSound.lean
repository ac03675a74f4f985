import Mathlib.Algebra.Ring.Int.Defs
import Mathlib.Algebra.Ring.Int.Parity
import VllmHcu.Lib.RowShard
import VllmHcu.Lib.Result
import VllmHcu.Lib.Stride

/-!
# When the sharded gate is the full projection

`PCPShardedGateLinear` keeps the input columns of its rank of the gate weight.
Each rank sends every other rank that rank's columns of its own tokens, all
ranks multiply by their columns, and a reduce-scatter over the tokens adds the
partial products. The matrices have entries in any commutative semiring.

A rank multiplies its columns of all tokens by the local weight, in the
orientation that the shape suggests. A square local weight in `[out, in]` layout
is taken for its transpose.
-/

namespace VllmHcu.HyV4

/-- The layout of the local weight after loading. -/
inductive WeightLayout
  | outIn
  | inOut
deriving DecidableEq

/-- The checked sizes of `__init__`, the layout, the local token count of every rank and the chunking settings. -/
structure GateConfig where
  pcpSize : Nat
  inputSize : Nat
  outputSize : Nat
  layout : WeightLayout
  localTokens : Nat
  chunking : Bool
  blockTokens : Nat
  pcp_gt : 1 < pcpSize
  divides : inputSize % pcpSize = 0
  block_pos : 0 < blockTokens

/-- `gate_shard_input_size` -/
def GateConfig.shard (c : GateConfig) : Nat := c.inputSize / c.pcpSize

/-- A rank-two tensor. -/
structure Matrix2 (R : Type) where
  rows : Nat
  cols : Nat
  entry : Nat → Nat → R

section
variable {R : Type} [CommSemiring R] (c : GateConfig)

/-- `_narrow_to_pcp_shard` -/
def narrowToPcpShard (rank : Nat) (loadedWeight : Matrix2 R) : Except String (Matrix2 R) :=
  if loadedWeight.rows = c.outputSize ∧ loadedWeight.cols = c.inputSize then
    .ok ⟨c.outputSize, c.shard, fun o i => loadedWeight.entry o (rank * c.shard + i)⟩
  else
    .error ("linear_gate PCP sharding expected the full checkpoint weight of shape [" ++ toString c.outputSize ++ ", " ++
      toString c.inputSize ++ "], got (" ++ toString loadedWeight.rows ++ ", " ++ toString loadedWeight.cols ++ ").")

/-- The stored weight after the loader has copied the narrowed one, in the layout of the parameter. -/
def storedWeight (layout : WeightLayout) (w : Matrix2 R) : Matrix2 R :=
  match layout with
  | .outIn => w
  | .inOut => ⟨w.cols, w.rows, fun i o => w.entry o i⟩

/-- `_linear` of contiguous rows of `width` entries: `torch.matmul` or `functional.linear` by the shape of the weight. -/
def linear (weight : Matrix2 R) (width : Nat) (hidden : Nat → R) : Except String (Nat → R) :=
  if weight.rows = width then
    .ok fun n => ∑ i ∈ Finset.range width, hidden (n / weight.cols * width + i) * weight.entry i (n % weight.cols)
  else if weight.cols = width then
    .ok fun n => ∑ i ∈ Finset.range width, hidden (n / weight.rows * width + i) * weight.entry (n % weight.rows) i
  else
    .error ("linear_gate PCP sharding found an unexpected weight layout (" ++ toString weight.rows ++ ", " ++
      toString weight.cols ++ ") for input width " ++ toString width)

/-- One exchange: the tokens `start` up to `stop` of every rank, whose hidden rows are `input`. -/
def gateBlock (weights : Nat → Matrix2 R) (input : Nat → Nat → R) (start stop rank : Nat) : Except String (Nat → R) := do
  let current := stop - start
  let send := fun s => swapLeading current c.pcpSize c.shard fun n => input s (start * c.inputSize + n)
  let partials ← (List.range c.pcpSize).mapM fun q =>
    linear (weights q) c.shard (allToAllSingle (current * c.shard) send q)
  pure (reduceScatter c.pcpSize (current * c.outputSize) (fun q => partials.getD q fun _ => 0) rank)

/-- `_forward_k_shard` on one rank; `empty` is unset memory. -/
def forwardKShard (weights : Nat → Matrix2 R) (input : Nat → Nat → R) (empty : Nat → R) (rank : Nat) :
    Except String (Nat → R) :=
  let blockTokens := if c.chunking then c.blockTokens else c.localTokens
  if c.chunking ∧ c.localTokens > blockTokens then
    (strided 0 c.localTokens blockTokens).foldlM (fun output start => do
      let stop := min (start + blockTokens) c.localTokens
      let blockOutput ← gateBlock c weights input start stop rank
      pure fun n =>
        if start * c.outputSize ≤ n ∧ n < stop * c.outputSize then blockOutput (n - start * c.outputSize) else output n)
      empty
  else gateBlock c weights input 0 c.localTokens rank

end

section
variable {R : Type} [CommSemiring R] {c : GateConfig}

/-- The local weight fits the input width on both sides and is not the transposed one. -/
def GateConfig.swapped (c : GateConfig) : Prop := c.layout = .outIn ∧ c.outputSize = c.shard

instance (c : GateConfig) : Decidable c.swapped := inferInstanceAs (Decidable (_ ∧ _))

theorem shard_mul (c : GateConfig) : c.pcpSize * c.shard = c.inputSize := by
  rw [GateConfig.shard]
  exact Nat.mul_div_cancel' (Nat.dvd_of_mod_eq_zero c.divides)

/-- The weights of all ranks, each loaded from the checkpoint weight. -/
structure Loaded (c : GateConfig) (checkpoint : Nat → Nat → R) (weights : Nat → Matrix2 R) : Prop where
  narrowed : ∀ q < c.pcpSize, ∃ w, narrowToPcpShard c q ⟨c.outputSize, c.inputSize, checkpoint⟩ = .ok w ∧
    weights q = storedWeight c.layout w

/-- The entry of the checkpoint weight that is multiplied with column `i` of rank `q` for output `col`. -/
def usedEntry (c : GateConfig) (checkpoint : Nat → Nat → R) (q i col : Nat) : R :=
  if c.swapped then checkpoint i (q * c.shard + col) else checkpoint col (q * c.shard + i)

/-- What the gate computes for one output of a token with hidden row `hidden`. -/
def gateValue (c : GateConfig) (checkpoint : Nat → Nat → R) (hidden : Nat → R) (col : Nat) : R :=
  ∑ q ∈ Finset.range c.pcpSize, ∑ i ∈ Finset.range c.shard, hidden (q * c.shard + i) * usedEntry c checkpoint q i col

variable {checkpoint : Nat → Nat → R} {weights : Nat → Matrix2 R}

theorem linear_spec (h : Loaded c checkpoint weights) {q : Nat} (hq : q < c.pcpSize) (hidden : Nat → R) :
    ∃ g, linear (weights q) c.shard hidden = .ok g ∧ ∀ m, ∀ col < c.outputSize,
      g (m * c.outputSize + col) = ∑ i ∈ Finset.range c.shard, hidden (m * c.shard + i) * usedEntry c checkpoint q i col := by
  obtain ⟨w, hw, hstored⟩ := h.narrowed q hq
  rw [narrowToPcpShard, if_pos ⟨rfl, rfl⟩] at hw
  obtain rfl := Except.ok.inj hw
  rw [hstored]
  cases hl : c.layout with
  | inOut =>
    have hnot : ¬ c.swapped := fun hs => by simp [GateConfig.swapped, hl] at hs
    refine ⟨_, if_pos rfl, fun m col hcol => ?_⟩
    simp only [storedWeight, block_div hcol, block_mod hcol, usedEntry, if_neg hnot]
  | outIn =>
    by_cases hsq : c.outputSize = c.shard
    · have hs : c.swapped := ⟨hl, hsq⟩
      refine ⟨_, if_pos hsq, fun m col hcol => ?_⟩
      rw [hsq] at hcol ⊢
      simp only [storedWeight, block_div hcol, block_mod hcol, usedEntry, if_pos hs]
    · have hnot : ¬ c.swapped := fun hs => hsq hs.2
      refine ⟨_, (if_neg hsq).trans (if_pos rfl), fun m col hcol => ?_⟩
      simp only [storedWeight, block_div hcol, block_mod hcol, usedEntry, if_neg hnot]

/-- One exchange returns the rows of its own tokens. -/
theorem gateBlock_spec (h : Loaded c checkpoint weights) (input : Nat → Nat → R) (start stop rank : Nat) :
    ∃ out, gateBlock c weights input start stop rank = .ok out ∧ ∀ i < stop - start, ∀ col < c.outputSize,
      out (i * c.outputSize + col) =
        gateValue c checkpoint (fun k => input rank ((start + i) * c.inputSize + k)) col := by
  have hex : ∀ q, ∃ g : Nat → R, q < c.pcpSize → linear (weights q) c.shard (allToAllSingle ((stop - start) * c.shard)
      (fun s => swapLeading (stop - start) c.pcpSize c.shard fun n => input s (start * c.inputSize + n)) q) = .ok g ∧
      ∀ m, ∀ col < c.outputSize, g (m * c.outputSize + col) = ∑ i ∈ Finset.range c.shard,
        allToAllSingle ((stop - start) * c.shard)
          (fun s => swapLeading (stop - start) c.pcpSize c.shard fun n => input s (start * c.inputSize + n)) q
          (m * c.shard + i) * usedEntry c checkpoint q i col := by
    intro q
    by_cases hq : q < c.pcpSize
    · obtain ⟨g, hg⟩ := linear_spec h hq (allToAllSingle ((stop - start) * c.shard)
        (fun s => swapLeading (stop - start) c.pcpSize c.shard fun n => input s (start * c.inputSize + n)) q)
      exact ⟨g, fun _ => hg⟩
    · exact ⟨fun _ => 0, fun hq' => absurd hq' hq⟩
  choose g hg using hex
  have hpartials := mapM_returns (g := g) (fun q hq => (hg q (List.mem_range.mp hq)).1)
  refine ⟨_, by rw [gateBlock]; simp only [hpartials]; rfl, fun i hi col hcol => ?_⟩
  simp only [reduceScatter, allReduce, gateValue]
  refine Finset.sum_congr rfl fun q hq => ?_
  have hq := Finset.mem_range.mp hq
  have hget : ((List.range c.pcpSize).map g).getD q (fun _ => 0) = g q := by
    simp [List.getD_eq_getElem?_getD, hq]
  have hrow : rank * ((stop - start) * c.outputSize) + (i * c.outputSize + col) =
      (rank * (stop - start) + i) * c.outputSize + col := by ring
  rw [hget, hrow, (hg q hq).2 _ col hcol]
  refine Finset.sum_congr rfl fun o ho => ?_
  have ho := Finset.mem_range.mp ho
  have hsend : (rank * (stop - start) + i) * c.shard + o = rank * ((stop - start) * c.shard) + (i * c.shard + o) := by ring
  have hrecv : q * ((stop - start) * c.shard) + (i * c.shard + o) = (q * (stop - start) + i) * c.shard + o := by ring
  have hin : start * c.inputSize + ((i * c.pcpSize + q) * c.shard + o) = (start + i) * c.inputSize + (q * c.shard + o) := by
    rw [← shard_mul c]
    ring
  rw [hsend, allToAllSingle_apply _ _ (block_lt hi ho), hrecv, swapLeading_apply _ hi ho, hin]

/-- The rows below `done` hold the gate values. -/
def RowsDone (c : GateConfig) (checkpoint : Nat → Nat → R) (input : Nat → R) (done : Nat) (out : Nat → R) : Prop :=
  ∀ i < done, ∀ col < c.outputSize,
    out (i * c.outputSize + col) = gateValue c checkpoint (fun k => input (i * c.inputSize + k)) col

theorem forward_spec (h : Loaded c checkpoint weights) (input : Nat → Nat → R) (empty : Nat → R) (rank : Nat) :
    ∃ out, forwardKShard c weights input empty rank = .ok out ∧ RowsDone c checkpoint (input rank) c.localTokens out := by
  unfold forwardKShard
  by_cases hchunk : c.chunking = true ∧ c.localTokens > c.blockTokens
  · have hcond : c.chunking = true ∧ c.localTokens > if c.chunking then c.blockTokens else c.localTokens := by
      simpa [hchunk.1] using hchunk.2
    simp only [hchunk.1, if_true, true_and]
    rw [if_pos hchunk.2]
    -- after `k` blocks the rows of the blocks are done
    have hrun := foldlM_range (I := fun k out => RowsDone c checkpoint (input rank) (min (k * c.blockTokens) c.localTokens) out)
      (f := fun output k => do
        let stop := min (0 + k * c.blockTokens + c.blockTokens) c.localTokens
        let blockOutput ← gateBlock c weights input (0 + k * c.blockTokens) stop rank
        pure fun n =>
          if (0 + k * c.blockTokens) * c.outputSize ≤ n ∧ n < stop * c.outputSize then
            blockOutput (n - (0 + k * c.blockTokens) * c.outputSize) else output n)
      (s := empty) (n := cdiv (c.localTokens - 0) c.blockTokens) (by simp [RowsDone]) ?_
    · obtain ⟨out, hout, hdone⟩ := hrun
      refine ⟨out, ?_, ?_⟩
      · rw [strided, List.foldlM_map]
        exact hout
      · have hall := le_cdiv_mul c.localTokens c.block_pos
        rwa [Nat.sub_zero, Nat.min_eq_right hall] at hdone
    · intro k hk out hinv
      have hlt : k * c.blockTokens < c.localTokens := (lt_cdiv c.block_pos).mp hk
      obtain ⟨block, hblock, hrows⟩ := gateBlock_spec h input (0 + k * c.blockTokens)
        (min (0 + k * c.blockTokens + c.blockTokens) c.localTokens) rank
      refine ⟨_, by simp only [hblock]; rfl, fun i hi col hcol => ?_⟩
      have hsucc : (k + 1) * c.blockTokens = k * c.blockTokens + c.blockTokens := Nat.succ_mul ..
      rw [hsucc] at hi
      by_cases hold : i < k * c.blockTokens
      · have hbefore : ¬ ((0 + k * c.blockTokens) * c.outputSize ≤ i * c.outputSize + col ∧ i * c.outputSize + col <
            min (0 + k * c.blockTokens + c.blockTokens) c.localTokens * c.outputSize) := by
          have := block_lt hold hcol
          rw [Nat.zero_add]
          omega
        rw [if_neg hbefore]
        exact hinv i (by omega) col hcol
      · have hstop : i < min (0 + k * c.blockTokens + c.blockTokens) c.localTokens := by omega
        have hin : (0 + k * c.blockTokens) * c.outputSize ≤ i * c.outputSize + col ∧ i * c.outputSize + col <
            min (0 + k * c.blockTokens + c.blockTokens) c.localTokens * c.outputSize := by
          refine ⟨?_, block_lt hstop hcol⟩
          have := Nat.mul_le_mul_right c.outputSize (show 0 + k * c.blockTokens ≤ i by omega)
          omega
        have hpos : i * c.outputSize + col - (0 + k * c.blockTokens) * c.outputSize =
            (i - (0 + k * c.blockTokens)) * c.outputSize + col := by
          have := Nat.mul_le_mul_right c.outputSize (show 0 + k * c.blockTokens ≤ i by omega)
          rw [Nat.sub_mul]
          omega
        have hrow : 0 + k * c.blockTokens + (i - (0 + k * c.blockTokens)) = i := by omega
        rw [if_pos hin, hpos, hrows _ (by omega) col hcol, hrow]
  · have hcond : ¬ (c.chunking = true ∧ c.localTokens > if c.chunking then c.blockTokens else c.localTokens) := by
      intro hc
      exact hchunk ⟨hc.1, by simpa [hc.1] using hc.2⟩
    simp only [if_neg hcond]
    obtain ⟨out, hout, hrows⟩ := gateBlock_spec h input 0 c.localTokens rank
    refine ⟨out, hout, fun i hi col hcol => ?_⟩
    rw [hrows i (by omega) col hcol, Nat.zero_add]

/-- The full projection of a token. -/
def projection (c : GateConfig) (checkpoint : Nat → Nat → R) (hidden : Nat → R) (col : Nat) : R :=
  ∑ k ∈ Finset.range c.inputSize, hidden k * checkpoint col k

theorem gateValue_eq_projection (hgood : ¬ c.swapped ∨ c.shard ≤ 1) (checkpoint : Nat → Nat → R) (hidden : Nat → R) {col : Nat}
    (hcol : col < c.outputSize) : gateValue c checkpoint hidden col = projection c checkpoint hidden col := by
  rw [projection, ← shard_mul c, sum_blocks, gateValue]
  refine Finset.sum_congr rfl fun q _ => Finset.sum_congr rfl fun i hi => ?_
  have hi := Finset.mem_range.mp hi
  rw [usedEntry]
  split
  · rename_i hs
    have hone := hgood.resolve_left (not_not_intro hs)
    have hsq := hs.2
    obtain rfl : i = col := by omega
    rfl
  · rfl

/-- The stored weights of all ranks for a checkpoint weight. -/
def checkpointShards (c : GateConfig) (checkpoint : Nat → Nat → R) (q : Nat) : Matrix2 R :=
  storedWeight c.layout ⟨c.outputSize, c.shard, fun o i => checkpoint o (q * c.shard + i)⟩

omit [CommSemiring R] in
theorem checkpointShards_loaded (c : GateConfig) (checkpoint : Nat → Nat → R) :
    Loaded c checkpoint (checkpointShards c checkpoint) :=
  ⟨fun _ _ => ⟨_, if_pos ⟨rfl, rfl⟩, rfl⟩⟩

/-- A checkpoint weight whose only entry is `(0, 1)`. -/
def oneEntry (o i : Nat) : R := if o = 0 ∧ i = 1 then 1 else 0

theorem gateValue_swapped [Nontrivial R] (hs : c.swapped) (hshard : 2 ≤ c.shard) :
    gateValue c (oneEntry (R := R)) (fun k => if k = 0 then 1 else 0) 1 ≠
      projection c oneEntry (fun k => if k = 0 then 1 else 0) 1 := by
  have hzero : projection c (oneEntry (R := R)) (fun k => if k = 0 then 1 else 0) 1 = 0 := by
    apply Finset.sum_eq_zero
    intro k _
    simp [oneEntry]
  have hone : gateValue c (oneEntry (R := R)) (fun k => if k = 0 then 1 else 0) 1 = 1 := by
    have hq : 0 ∈ Finset.range c.pcpSize := Finset.mem_range.mpr (by have := c.pcp_gt; omega)
    have hi : 0 ∈ Finset.range c.shard := Finset.mem_range.mpr (by omega)
    rw [gateValue, Finset.sum_eq_single_of_mem 0 hq, Finset.sum_eq_single_of_mem 0 hi]
    · simp [usedEntry, hs, oneEntry]
    · intro i _ hne
      simp [hne]
    · intro q _ hne
      apply Finset.sum_eq_zero
      intro i _
      have hpos : q * c.shard + i ≠ 0 := by
        have : 0 < q * c.shard := Nat.mul_pos (by omega) (by omega)
        omega
      rw [if_neg hpos, zero_mul]
  rw [hone, hzero]
  exact one_ne_zero

/-- The sharded gate is the full projection unless the local weight is a square taken for its transpose. -/
theorem k_shard_iff [Nontrivial R] (c : GateConfig) :
    (∀ (checkpoint : Nat → Nat → R) (weights : Nat → Matrix2 R), Loaded c checkpoint weights →
      ∀ (input : Nat → Nat → R) (empty : Nat → R), ∀ rank < c.pcpSize,
      ∃ out, forwardKShard c weights input empty rank = .ok out ∧ ∀ i < c.localTokens, ∀ col < c.outputSize,
        out (i * c.outputSize + col) = projection c checkpoint (fun k => input rank (i * c.inputSize + k)) col) ↔
      ¬ ((c.layout = .outIn ∧ c.outputSize = c.shard) ∧ 2 ≤ c.shard ∧ 0 < c.localTokens) := by
  constructor
  · rintro hall ⟨hs, hshard, htokens⟩
    obtain ⟨out, hout, hright⟩ := hall oneEntry (checkpointShards c oneEntry) (checkpointShards_loaded c oneEntry)
      (fun _ k => if k = 0 then 1 else 0) (fun _ => 0) 0 (by have := c.pcp_gt; omega)
    obtain ⟨out', hout', hrows⟩ := forward_spec (checkpointShards_loaded c (oneEntry (R := R)))
      (fun _ k => if k = 0 then 1 else 0) (fun _ => 0) 0
    obtain rfl := Except.ok.inj (hout'.symm.trans hout)
    have hcol : 1 < c.outputSize := by
      rw [hs.2]
      omega
    have hbad := gateValue_swapped (R := R) hs hshard
    have h₁ := hright 0 htokens 1 hcol
    have h₂ := hrows 0 htokens 1 hcol
    simp only [Nat.zero_mul, Nat.zero_add] at h₁ h₂
    exact hbad (h₂.symm.trans h₁)
  · intro hgood checkpoint weights hloaded input empty rank _
    obtain ⟨out, hout, hrows⟩ := forward_spec hloaded input empty rank
    refine ⟨out, hout, fun i hi col hcol => ?_⟩
    rw [hrows i hi col hcol]
    apply gateValue_eq_projection _ _ _ hcol
    by_cases hs : c.swapped
    · right
      by_contra hlarge
      exact hgood ⟨hs, by omega, by omega⟩
    · exact .inl hs

end

/-- Two ranks, four input columns and two outputs, one token a rank. -/
def squareGate (layout : WeightLayout) : GateConfig where
  pcpSize := 2
  inputSize := 4
  outputSize := 2
  layout := layout
  localTokens := 1
  chunking := false
  blockTokens := 1024
  pcp_gt := Nat.one_lt_two
  divides := by decide
  block_pos := by decide

/-- With the transposed layout the square gate is right. -/
theorem k_shard_iff_square :
    ∃ out, forwardKShard (squareGate .inOut) (checkpointShards (squareGate .inOut) oneEntry)
        (fun _ k => if k = 0 then (1 : Int) else 0) (fun _ => 0) 0 = .ok out ∧
      out 1 = projection (squareGate .inOut) oneEntry (fun k => if k = 0 then 1 else 0) 1 := by
  have hall := (k_shard_iff (R := Int) (squareGate .inOut)).mpr (by decide)
  obtain ⟨out, hout, hright⟩ := hall oneEntry _ (checkpointShards_loaded _ oneEntry) (fun _ k => if k = 0 then 1 else 0)
    (fun _ => 0) 0 (by decide)
  have hrow := hright 0 (by decide) 1 (by decide)
  simp only [Nat.zero_mul, Nat.zero_add] at hrow
  exact ⟨out, hout, hrow⟩

/-- In `[out, in]` layout the second output of rank 0 is not the projection. -/
theorem square_gate_wrong :
    ∃ out, forwardKShard (squareGate .outIn) (checkpointShards (squareGate .outIn) oneEntry)
        (fun _ k => if k = 0 then (1 : Int) else 0) (fun _ => 0) 0 = .ok out ∧
      out 1 ≠ projection (squareGate .outIn) oneEntry (fun k => if k = 0 then 1 else 0) 1 := by
  obtain ⟨out, hout, hrows⟩ := forward_spec (checkpointShards_loaded (squareGate .outIn) (oneEntry (R := Int)))
    (fun _ k => if k = 0 then 1 else 0) (fun _ => 0) 0
  refine ⟨out, hout, ?_⟩
  have hrow := hrows 0 (by decide) 1 (by decide)
  simp only [Nat.zero_mul, Nat.zero_add] at hrow
  rw [hrow]
  exact gateValue_swapped (by decide) (by decide)

end VllmHcu.HyV4
