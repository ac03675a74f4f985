import VllmHcu.Sparse.Meta

/-!
# Tiles of prefill rows

Rows are group-major. A tile is a run of rows of one request and one KV group, cut to
`block_q` rows. For a tile the regions that its rows selected are listed once, and a
bit of a mask word says which row of the tile selected which listed region. Tensors
are functions of their indices; what an index that is not written holds is zero.
-/

namespace VllmHcu.Sparse

structure TileBound where
  start : Nat
  count : Nat
  deriving DecidableEq

/-! ## `_build_tile_bounds` -/

section
variable (request : Nat → Int) (totalQ numKvGroups blockQ : Nat)

/-- The first row from `e` on that ends the run of request `r`. -/
def runEnd (r : Int) (groupEnd e : Nat) : Nat :=
  if e < groupEnd ∧ request e = r then runEnd r groupEnd (e + 1) else e
termination_by groupEnd - e

theorem le_runEnd (r : Int) (groupEnd e : Nat) : e ≤ runEnd request r groupEnd e := by
  induction e using runEnd.induct request r groupEnd with
  | case1 e h ih =>
    rw [runEnd, if_pos h]
    exact (Nat.le_succ e).trans ih
  | case2 e h =>
    rw [runEnd, if_neg h]

/-- The runs of a group from `start` on. -/
def hostRuns (groupEnd start : Nat) : List (Nat × Nat) :=
  if start < groupEnd then
    let stop := runEnd request (request start) groupEnd (start + 1)
    (start, stop) :: hostRuns groupEnd stop
  else []
termination_by groupEnd - start
decreasing_by
  have := le_runEnd request (request start) groupEnd (start + 1)
  omega

/-- The pieces of a run. -/
def hostPieces (run : Nat × Nat) : List TileBound :=
  (strided run.1 run.2 blockQ).map fun start => ⟨start, min blockQ (run.2 - start)⟩

/-- The host loop. -/
def hostTileBounds : List TileBound :=
  (List.range numKvGroups).flatMap fun group =>
    (hostRuns request (group * totalQ + totalQ) (group * totalQ)).flatMap (hostPieces blockQ)

/-- `starts_run` -/
def startsRun (row : Nat) : Bool :=
  decide (row = 0) || decide (request row ≠ request (row - 1)) || decide (row % totalQ = 0)

/-- The arithmetic on the device. -/
def deviceTileBounds (rows : Nat) : List TileBound :=
  let runStarts := (List.range rows).filter (startsRun request totalQ)
  let runEnds := runStarts.tail ++ [rows]
  let runLengths := List.zipWith (fun stop start => stop - start) runEnds runStarts
  let tilesPerRun := runLengths.map fun length => cdiv length blockQ
  let runOfTile := (tilesPerRun.zipIdx.map fun p => List.replicate p.1 p.2).flatten
  let firstTileOfRun := (List.range tilesPerRun.length).map fun run => (tilesPerRun.take run).sum
  (List.range tilesPerRun.sum).map fun tile =>
    let run := runOfTile.getD tile 0
    let offset := (tile - firstTileOfRun.getD run 0) * blockQ
    ⟨runStarts.getD run 0 + offset, min (runLengths.getD run 0 - offset) blockQ⟩

/-- `_TILE_BOUNDS_DEVICE_MIN_ROWS` -/
def tileBoundsDeviceMinRows : Nat := 8192

def buildTileBounds (rows : Nat) : List TileBound :=
  if rows < tileBoundsDeviceMinRows then hostTileBounds request totalQ numKvGroups blockQ
  else deviceTileBounds request totalQ blockQ rows

end

/-! ## `_build_tile_masks` -/

/-- A live entry of the metadata: its tile, its row within the tile and its union slot. -/
structure TileEntry where
  tile : Nat
  query : Nat
  slot : Nat

section
variable (entries : List TileEntry) (numTiles union blockQ budget : Nat)

def slabSize : Nat := max 1 (min numTiles (budget / max 1 (blockQ * union)))

/-- `searchsorted(tile_of, edges)`, on sorted tiles -/
def slabBound (index : Nat) : Nat := entries.countP fun e => decide (e.tile < index * slabSize numTiles union blockQ budget)

/-- One word of the tiles of slab `index`, from the staged bits of 32 queries. -/
def slabWord (index tile word slot : Nat) : BitVec 32 :=
  let low := slabBound entries numTiles union blockQ budget index
  let high := slabBound entries numTiles union blockQ budget (index + 1)
  let base := index * slabSize numTiles union blockQ budget
  let staged := fun query => ((entries.drop low).take (high - low)).any fun e =>
    decide ((e.tile : Int) - base = (tile : Int) - base) && e.query == query && e.slot == slot
  let accumulated : Nat := ((List.range 32).map fun k => if staged (word * 32 + k) then 2 ^ k else 0).sum
  BitVec.ofInt 32 ((accumulated : Int) - if 2 ^ 31 ≤ accumulated then 2 ^ 32 else 0)

/-- The mask words; `mem` is the contents of the empty tensor. -/
def buildTileMasks (mem : Nat → Nat → Nat → BitVec 32) : Except String (Nat → Nat → Nat → BitVec 32) :=
  if numTiles = 0 ∨ entries = [] then .ok fun _ _ _ => 0#32
  else if (entries.zip entries.tail).all fun p => decide (p.1.tile ≤ p.2.tile) then
    let slab := slabSize numTiles union blockQ budget
    .ok ((strided 0 numTiles slab).zipIdx.foldl (fun out p =>
      fun tile word slot =>
        if p.1 ≤ tile ∧ tile < min (p.1 + slab) numTiles then
          slabWord entries numTiles union blockQ budget p.2 tile word slot
        else out tile word slot) mem)
  else .error "tile_of must be non-decreasing to slab by tile range"

end

/-! ## `_build_prefill_tiles` -/

/-- The metadata of all rows: logical ids and packed words of `slots` slots. -/
structure PrefillRows where
  rows : Nat
  slots : Nat
  logical : Nat → Nat → Int
  packed : Nat → Nat → BitVec 32

section
variable (m : PrefillRows) (bounds : List TileBound)

/-- `tile_of_row` -/
def tileOfRow (row : Nat) : Nat := ((bounds.zipIdx.map fun p => List.replicate p.1.count p.2).flatten).getD row 0

def queryOfRow (row : Nat) : Nat := row - (bounds.getD (tileOfRow bounds row) ⟨0, 0⟩).start

def PrefillRows.live (row slot : Nat) : Bool := decide (0 ≤ m.logical row slot) && decide (0 ≤ (m.packed row slot).toInt)

/-- The live entries, row by row. -/
def PrefillRows.entries : List (Nat × Nat) :=
  ((List.range (m.rows * m.slots)).filter fun flat => m.live (flat / m.slots) (flat % m.slots)).map fun flat =>
    (flat / m.slots, flat % m.slots)

def PrefillRows.region (e : Nat × Nat) : Nat := (m.logical e.1 e.2).toNat

def PrefillRows.physical (e : Nat × Nat) : Nat := (m.packed e.1 e.2 &&& 0xFFFFFF#32).toNat

def PrefillRows.numRegions : Nat := (m.entries.map fun e => m.region e + 1).foldr max 1

/-- `present`: some row of the tile selected the region. -/
def present (tile region : Nat) : Bool :=
  m.entries.any fun e => tileOfRow bounds e.1 == tile && m.region e == region

/-- `lengths` -/
def unionLength (tile : Nat) : Nat := (List.range m.numRegions).countP (present m bounds tile)

def unionSize : Nat :=
  nextPowerOf2 (max 1 (((List.range bounds.length).map (unionLength m bounds)).foldr max 0))

/-- `slot_of` -/
def slotOf (tile region : Nat) : Nat := (List.range (region + 1)).countP (present m bounds tile) - 1

/-- A row of `physical_by_logical`. -/
def physicalByLogical (tile : Nat) : Nat → Nat :=
  scatter (fun _ => 0) ((m.entries.filter fun e => tileOfRow bounds e.1 == tile).map fun e => (m.region e, m.physical e))

/-- Rows of `tile_phys` and `tile_logical`. -/
def tilePhys (tile : Nat) : Nat → Nat :=
  scatter (fun _ => 0) (((List.range m.numRegions).filter (present m bounds tile)).map fun region =>
    (slotOf m bounds tile region, physicalByLogical m bounds tile region))

def tileLogical (tile : Nat) : Nat → Nat :=
  scatter (fun _ => 0) (((List.range m.numRegions).filter (present m bounds tile)).map fun region =>
    (slotOf m bounds tile region, region))

def tileEntries : List TileEntry :=
  m.entries.map fun e => ⟨tileOfRow bounds e.1, queryOfRow bounds e.1, slotOf m bounds (tileOfRow bounds e.1) (m.region e)⟩

def prefillTileMasks (blockQ budget : Nat) (mem : Nat → Nat → Nat → BitVec 32) :
    Except String (Nat → Nat → Nat → BitVec 32) :=
  buildTileMasks (tileEntries m bounds) bounds.length (unionSize m bounds) blockQ budget mem

end

/-- What the tiled kernel reads of a batch. -/
structure PrefillTiles where
  bounds : List TileBound
  phys : Nat → Nat → Nat
  logical : Nat → Nat → Nat
  lengths : Nat → Nat
  mask : Nat → Nat → Nat → BitVec 32

def buildPrefillTiles (m : PrefillRows) (qPositions requestIndices : List Nat) (totalQ numKvGroups blockQ budget : Nat)
    (mem : Nat → Nat → Nat → BitVec 32) : Except String PrefillTiles :=
  let rows := m.rows
  let expectedRows := numKvGroups * totalQ
  let positions := if qPositions.length = totalQ then (List.replicate numKvGroups qPositions).flatten else qPositions
  let numPositions := positions.length
  let numRequests := requestIndices.length
  if rows ≠ expectedRows then .error s!"expected {expectedRows} metadata rows, got {rows}"
  else if numPositions ≠ rows then .error s!"expected {rows} query positions, got {numPositions}"
  else if numRequests ≠ rows then .error s!"expected {rows} request indices, got {numRequests}"
  else if blockQ = 0 ∨ blockQ &&& (blockQ - 1) ≠ 0 then .error s!"block_q must be a positive power of two, got {blockQ}"
  else if rows = 0 then .error "cannot build prefill tiles for an empty query batch"
  else
    let bounds := buildTileBounds (fun row => (requestIndices.getD row 0 : Nat)) totalQ numKvGroups blockQ rows
    if bounds = [] then .error "cannot build prefill tiles for an empty query batch"
    else if (bounds.map TileBound.count).sum ≠ rows then .error "request boundaries do not cover all prefill rows"
    else
      (prefillTileMasks m bounds blockQ budget mem).map fun mask =>
        ⟨bounds, tilePhys m bounds, tileLogical m bounds, unionLength m bounds, mask⟩

/-! ## `_sparse_attn_prefill_tiled_kernel` -/

section
variable (g : Geometry) (blockR : Nat)

/-- The tokens that query `query` of tile `tile` keeps, of `unionCount` listed regions. -/
def tiledTokens (unionCount : Nat) (phys logical : Nat → Nat) (words : Nat → Nat → BitVec 32) (qOk : Bool) (position : Int)
    (query : Nat) : List Nat :=
  (strided 0 unionCount blockR).flatMap fun base =>
    (List.range' base blockR).flatMap fun slot =>
      let slotOk := decide (slot < unionCount)
      let physical := if slotOk then phys slot else 0
      let region := if slotOk then logical slot else 0
      let word := if qOk && slotOk then words (query / 32) slot else 0#32
      let selected := word.sshiftRight (query % 32) &&& 1#32 == 1#32
      let causal := fun offset : Nat => decide (int32 (int32 (region * g.regionSize : Nat) + offset) ≤ position)
      ((List.range g.regionSize).filter fun offset => causal offset && slotOk && qOk && selected).map fun offset =>
        physical * g.regionSize + offset

end

/-! ## Logical ids -/

section
variable {α : Type}

/-- A row of `topk` slots widened by one, with `value` at slot `count`. -/
def appendSlot (topk count : Nat) (pad value : α) (history mem : Nat → α) : Nat → α :=
  let slots := List.range (nextPowerOf2 (topk + 1))
  Function.update (scatter mem ((slots.filter fun s => decide (s < topk + 1) && s != count).map fun s =>
    (s, if s < topk then history s else pad))) count value

end

section
variable (cfg : SelectorConfig) (row : ScoreRow) (topk : Nat)

/-- The `logical_out` of the pack kernels, which store the region where they store its word. -/
def regionTopkPackLogical (mem : Nat → Int) : Nat → Int :=
  let width := max 2 (nextPowerOf2 row.seqRegions)
  let budget := min topk row.visible
  if cfg.optionalCustomOpEnabled && row.seqRegions ≤ residentTopkMaxRegions then
    let out := scatter mem (padStores row topk (-1))
    if row.visible = 0 then out
    else if row.visible ≤ topk then
      scatter out (((List.range width).filter fun r => decide (r < row.visible) && decide (r < topk)).map fun r => (r, (r : Int)))
    else
      scatter out (residentEmit row topk width (fun r => (r : Int))
        (residentThreshold row width (interpolatePivot cfg.guess) budget) budget)
  else regionTopkTiled row topk (max 2 (min cfg.blockR (nextPowerOf2 row.seqRegions))) (fun r => (r : Int)) (-1) mem

variable (g : Geometry) (seqRegions : Nat) (logits : Nat → Nat → Score) (table : BlockTable)

/-- Row `row` of the `logical_ids` of `prefill_sparse_meta`. -/
def prefillLogicalIds (qPositions : Nat → Int) (requestIndices : Option (Nat → Nat)) (memHistory mem : Nat → Nat → Int)
    (row : Nat) : Nat → Int :=
  let request := (requestIndices.getD fun _ => 0) row
  let historyLength := qPositions row / g.regionSize
  let history := regionTopkPackLogical cfg ⟨logits row, seqRegions, historyLength⟩ topk (memHistory row)
  let currentRegion := (max (qPositions row / g.regionSize) 0).toNat
  appendSlot topk (min currentRegion topk) (-1)
    (if g.mapped (table.row request) currentRegion then (currentRegion : Int) else -1) history (mem row)

end

end VllmHcu.Sparse
