import VllmHcu.Lib.Scatter
import VllmHcu.Lib.Stride
import Mathlib.Data.Nat.Log

/-!
# Region selection

The selectors keep the `topk` highest scores of one row, ties broken by
ascending region id, and emit the regions in ascending order. Wide rows find
the score at the cut by radix passes over tiles of the row; a row that fits in
one tile is kept in registers and the cut is found by narrowing a bracket.
A tensor that is allocated with `torch.empty` starts with the contents `mem`.
-/

namespace VllmHcu.Sparse

/-- A finite float32, as its bits. -/
structure Score where
  bits : BitVec 32
  finite : bits &&& 0x7F800000#32 ≠ 0x7F800000#32

/-- `scores < 0.0`, false of both zeros -/
def Score.negative (s : Score) : Bool := s.bits.msb && s.bits &&& 0x7FFFFFFF#32 != 0#32

def orderedFloatKey (s : Score) : Nat :=
  if s.negative then (~~~s.bits).toNat else (s.bits ||| 0x80000000#32).toNat

/-- The key of the register-resident kernels. -/
def residentKey (s : Score) : Int :=
  if s.negative then (s.bits ^^^ 0x7FFFFFFF#32).toInt else (s.bits &&& 0x7FFFFFFF#32).toInt

/-- The candidates of one row: `[seq_regions]` scores of which the first `visible` count. -/
structure ScoreRow where
  scores : Nat → Score
  seqRegions : Nat
  length : Int

/-- `tl.minimum(tl.maximum(visible, 0), seq_regions)` -/
def ScoreRow.visible (row : ScoreRow) : Nat := (min (max row.length 0) (row.seqRegions : Int)).toNat

/-- The radix key of region `r`. -/
def ScoreRow.key (row : ScoreRow) (r : Nat) : Nat := orderedFloatKey (row.scores r)

/-- The signed key of region `r`. -/
def ScoreRow.signedKey (row : ScoreRow) (r : Nat) : Int := residentKey (row.scores r)

/-! ## The radix threshold -/

def radixBuckets : Nat := 256

structure RadixState where
  threshold : Nat
  remaining : Nat

section
variable (row : ScoreRow) (blockR : Nat)

/-- The histogram of one tile. Lanes that do not match are parked in bucket 0 and subtracted again. -/
def tileHistogram (threshold pass base bucket : Nat) : Nat :=
  let shift := 32 - 8 * (pass + 1)
  let lanes := List.range' base blockR
  let ok := fun r => decide (r < row.visible) && (pass == 0 || row.key r >>> (shift + 8) == threshold >>> (shift + 8))
  let buckets := fun r => if ok r then (row.key r >>> shift) &&& (radixBuckets - 1) else 0
  lanes.countP (fun r => buckets r == bucket) - if bucket = 0 then lanes.countP (fun r => !ok r) else 0

def histogram (threshold pass bucket : Nat) : Nat :=
  ((strided 0 row.seqRegions blockR).map fun base => tileHistogram row blockR threshold pass base bucket).sum

def radixPass (st : RadixState) (pass : Nat) : RadixState :=
  let shift := 32 - 8 * (pass + 1)
  let hist := histogram row blockR st.threshold pass
  let total := ((List.range radixBuckets).map hist).sum
  let above := fun bucket => total - ((List.range (bucket + 1)).map hist).sum
  let chosen := ((List.range radixBuckets).map fun b => if above b < st.remaining then b else radixBuckets).foldr min
    radixBuckets
  { remaining := st.remaining - ((List.range radixBuckets).map fun b => if chosen < b then hist b else 0).sum
    threshold := st.threshold ||| chosen <<< shift }

def radixTopkThreshold (budget : Nat) : RadixState := (List.range 4).foldl (radixPass row blockR) ⟨0, budget⟩

end

/-! ## The tiled kernels -/

section
variable {α : Type} (row : ScoreRow) (topk blockR : Nat) (value : Nat → α)

structure EmitState (α : Type) where
  cursor : Nat
  tiesTaken : Nat
  stores : List (Nat × α)

def tiedLane (cut : RadixState) (r : Nat) : Bool := decide (r < row.visible) && decide (row.key r = cut.threshold)

/-- `selected` of lane `r` of the tile at `base`; `tl.cumsum` counts the lane itself. -/
def selectedLane (cut : RadixState) (tiesTaken base r : Nat) : Bool :=
  let greater := decide (r < row.visible) && decide (cut.threshold < row.key r)
  let tiedRank := tiesTaken + (List.range' base (r - base + 1)).countP (tiedLane row cut) - 1
  greater || tiedLane row cut r && decide (tiedRank < cut.remaining)

/-- One tile of the emit loop; `value` is what is stored for a region. -/
def emitTile (cut : RadixState) (st : EmitState α) (base : Nat) : EmitState α :=
  let lanes := List.range' base blockR
  let selected := selectedLane row cut st.tiesTaken base
  let positions := fun r => st.cursor + (List.range' base (r - base + 1)).countP selected - 1
  { cursor := st.cursor + lanes.countP selected
    tiesTaken := st.tiesTaken + lanes.countP (tiedLane row cut)
    stores := st.stores ++
      (lanes.filter fun r => selected r && decide (positions r < topk)).map fun r => (positions r, value r) }

def regionTopkTiled (pad : α) (mem : Nat → α) : Nat → α :=
  let out := scatter mem ((List.range topk).map fun slot => (slot, pad))
  if row.visible = 0 then out
  else
    let cut := radixTopkThreshold row blockR (min topk row.visible)
    scatter out ((strided 0 row.seqRegions blockR).foldl (emitTile row topk blockR value cut) ⟨0, 0, []⟩).stores

end

/-! ## The register-resident kernels -/

/-- The state of the search for the threshold: a bracket, the counts at its ends and the fallback flag. -/
structure Bracket where
  lo : Int
  hi : Int
  cLo : Nat
  cHi : Nat
  bisect : Bool

/-- The choice of the next `mid`, strictly inside the bracket. -/
structure Pivot where
  mid : Bracket → Int
  inside : ∀ b, 1 < b.hi - b.lo → b.lo < mid b ∧ mid b < b.hi

def bisectPivot : Pivot where
  mid b := b.lo + (b.hi - b.lo) / 2
  inside b h := by omega

/-- Interpolation: `guess` is the float32 product of the span and the fraction that the counts give. -/
def interpolatePivot (guess : Bracket → Int) : Pivot where
  mid b :=
    let span := b.hi - b.lo
    if b.bisect then b.lo + span / 2 else b.lo + min (max (guess b) 1) (span - 1)
  inside b h := by
    dsimp only
    by_cases hb : b.bisect = true
    · rw [if_pos hb]
      omega
    · rw [if_neg hb]
      omega

/-- `tl.min(tl.where(ok, keys, 2147483647))` -/
def minKey (ok : Int → Bool) (keys : List Int) : Int := (keys.map fun k => if ok k then k else 2147483647).foldr min 2147483647

/-- The `while` loop on the keys of all lanes. -/
def narrow (keys : List Int) (budget : Nat) (pivot : Pivot) (b : Bracket) : Int :=
  if _h : 1 < b.hi - b.lo then
    let span := b.hi - b.lo
    let mid := pivot.mid b
    let count := keys.countP (mid ≤ ·)
    if count = budget then minKey (mid ≤ ·) keys
    else if budget < count then
      narrow keys budget pivot { b with lo := mid, cLo := count, bisect := span < (b.hi - mid) * 2 }
    else narrow keys budget pivot { b with hi := mid, cHi := count, bisect := span < (mid - b.lo) * 2 }
  else b.lo
termination_by (b.hi - b.lo).toNat
decreasing_by
  all_goals
    have := pivot.inside b ‹_›
    omega

section
variable {α : Type} (row : ScoreRow) (topk blockR : Nat) (pivot : Pivot) (value : Nat → α)

/-- The keys of the tile, `-2147483648` on dead lanes. -/
def laneKeys : List Int :=
  (List.range blockR).map fun r => if r < row.visible then row.signedKey r else -2147483648

def residentThreshold (budget : Nat) : Int :=
  let keys := laneKeys row blockR
  let lo := ((List.range blockR).map fun r =>
    if r < row.visible then row.signedKey r else 2147483647).foldr min 2147483647
  narrow keys budget pivot ⟨lo, keys.foldr max (-2147483648) + 1, row.visible, 0, false⟩

/-- The prefix sums of the greater and the tied lanes, packed into the halves of an int32. -/
def packedPrefix (threshold : Int) (r : Nat) : Nat :=
  let keys := fun r => if r < row.visible then row.signedKey r else -2147483648
  let greater := fun r => decide (r < row.visible) && decide (threshold < keys r)
  let tied := fun r => decide (r < row.visible) && decide (keys r = threshold)
  ((List.range (r + 1)).map fun r => (if greater r then 1 else 0) ||| (if tied r then 1 else 0) <<< 16).sum

/-- The selection on one tile. -/
def residentEmit (threshold : Int) (budget : Nat) : List (Nat × α) :=
  let keys := fun r => if r < row.visible then row.signedKey r else -2147483648
  let greater := fun r => decide (r < row.visible) && decide (threshold < keys r)
  let tied := fun r => decide (r < row.visible) && decide (keys r = threshold)
  let greaterIncl := fun r => packedPrefix row threshold r &&& 0xFFFF
  let tiedIncl := fun r => packedPrefix row threshold r >>> 16
  let remaining := budget - ((List.range blockR).map greaterIncl).foldr max 0
  let selected := fun r => greater r || tied r && decide (tiedIncl r ≤ remaining)
  let positions := fun r => greaterIncl r + min (tiedIncl r) remaining - 1
  ((List.range blockR).filter fun r => selected r && decide (positions r < topk)).map fun r => (positions r, value r)

/-- The padding stores, which leave the slots of the emit alone. -/
def padStores (pad : α) : List (Nat × α) :=
  ((List.range topk).filter fun slot => min topk row.visible ≤ slot).map fun slot => (slot, pad)

end

/-! ## The four kernels -/

section
variable (row : ScoreRow) (topk blockR : Nat)

def regionTopkIdsKernel (mem : Nat → Int) : Nat → Int :=
  regionTopkTiled row topk blockR (fun r => (r : Int)) (-1) mem

def regionTopkIdsResidentKernel (mem : Nat → Int) : Nat → Int :=
  let budget := min topk row.visible
  let out := scatter mem (padStores row topk (-1))
  if row.visible = 0 then out
  else
    scatter out (residentEmit row topk blockR (fun r => (r : Int)) (residentThreshold row blockR bisectPivot budget) budget)

variable (pack : Nat → BitVec 32)

def regionTopkPackKernel (mem : Nat → BitVec 32) : Nat → BitVec 32 :=
  regionTopkTiled row topk blockR pack (-1#32) mem

/-- Rows with `visible <= topk` take every visible region without reading scores. -/
def regionTopkPackResidentKernel (guess : Bracket → Int) (mem : Nat → BitVec 32) : Nat → BitVec 32 :=
  let budget := min topk row.visible
  let out := scatter mem (padStores row topk (-1#32))
  if row.visible = 0 then out
  else if row.visible ≤ topk then
    scatter out (((List.range blockR).filter fun r => decide (r < row.visible) && decide (r < topk)).map fun r => (r, pack r))
  else
    scatter out
      (residentEmit row topk blockR pack (residentThreshold row blockR (interpolatePivot guess) budget) budget)

end

/-! ## The selectors -/

/-- Widest row the register-resident selector takes. -/
def residentTopkMaxRegions : Nat := 16384

/-- What the launch of a selector depends on besides the tensors. -/
structure SelectorConfig where
  optionalCustomOpEnabled : Bool
  blockR : Nat
  blockR_pos : 0 < blockR
  guess : Bracket → Int

def nextPowerOf2 (n : Nat) : Nat := 2 ^ Nat.clog 2 n

section
variable (cfg : SelectorConfig) (row : ScoreRow) (topk : Nat)

def regionTopkIds (mem : Nat → Int) : Nat → Int :=
  if row.seqRegions ≤ residentTopkMaxRegions then
    regionTopkIdsResidentKernel row topk (max 2 (nextPowerOf2 row.seqRegions)) mem
  else regionTopkIdsKernel row topk (max 2 (min cfg.blockR (nextPowerOf2 row.seqRegions))) mem

def regionTopkPack (pack : Nat → BitVec 32) (mem : Nat → BitVec 32) : Nat → BitVec 32 :=
  if cfg.optionalCustomOpEnabled && row.seqRegions ≤ residentTopkMaxRegions then
    regionTopkPackResidentKernel row topk (max 2 (nextPowerOf2 row.seqRegions)) pack cfg.guess mem
  else regionTopkPackKernel row topk (max 2 (min cfg.blockR (nextPowerOf2 row.seqRegions))) pack mem

end

end VllmHcu.Sparse
