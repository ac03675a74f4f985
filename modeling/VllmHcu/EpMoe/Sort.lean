import VllmHcu.Moe.Permute

/-!
# The small-batch sort and the direct combine of expert-parallel routes

`_ep_sort_kernel` runs one program for each local expert. Every program counts all
routes to find where its slice starts and stores the slice's routes, its padding
rows and its entries of `expert_ids`. The gather then copies the tokens' rows and
scales into one buffer in sorted order.

In the direct combine GEMM2 stores the first local route of a token straight into
its output row and the further ones into scratch rows handed out by an atomic
counter. A last kernel adds those, or sums the cache of the fallback GEMM2 when the
scratch was too small. Rows are numbered from the first output row, as GEMM2
addresses them.
-/

namespace VllmHcu.EpMoe

open VllmHcu.Moe (nextPowerOf2)

/-- The arguments of `ep_sorting` that its small-batch branch reads, row by row. -/
structure SortArgs (β : Type) where
  m : Nat
  topk : Nat
  topkIds : Nat → Nat
  topkWeights : Nat → β
  expertMap : Nat → Int
  globalE : Nat
  localE : Nat
  bm : Nat

/-- What programs store: addresses and values, buffer by buffer. -/
structure SortStores (β : Type) where
  sortedIds : List (Nat × BitVec 32)
  sortedWeights : List (Nat × β)
  expertIds : List (Nat × Nat)
  layout : List (Nat × Nat)
  nvalid : List (Unit × Nat)

/-- What the buffers hold. -/
structure SortBuffers (β : Type) where
  sortedIds : Nat → BitVec 32
  sortedWeights : Nat → β
  expertIds : Nat → Nat
  layout : Nat → Nat
  nvalid : Unit → Nat

/-- `tok | (k << 24)` -/
def routeWord (tok k : Nat) : BitVec 32 := BitVec.ofNat 32 tok ||| BitVec.ofNat 32 k <<< 24

namespace SortArgs

variable {β : Type} (a : SortArgs β)

def routes : Nat := a.m * a.topk

/-- `LE_P` -/
def leP : Nat := nextPowerOf2 a.localE

/-- The bin of lane `r`; lanes past the routes have the expert `-1`. -/
def bin (r : Nat) : Nat :=
  let le := if r < a.routes then a.expertMap (a.topkIds r) else -1
  if le < 0 then a.leP else le.toNat

/-- `tl.histogram(le, 2 * LE_P)` over the `BLOCK_R` lanes -/
def cnt (xs : Nat) : Nat := (List.range (nextPowerOf2 a.routes)).countP fun r => a.bin r = xs

def padded (xs : Nat) : Nat := if xs < a.leP then roundUp (a.cnt xs) a.bm else 0

def start (x : Nat) : Nat := ((List.range (2 * a.leP)).map fun xs => if xs < x then a.padded xs else 0).sum

def n (x : Nat) : Nat := ((List.range (2 * a.leP)).map fun xs => if xs = x then a.cnt xs else 0).sum

def npad (x : Nat) : Nat := roundUp (a.n x) a.bm

/-- The lanes of the expert `x`. -/
def mine (x : Nat) : List Nat := (List.range (nextPowerOf2 a.routes)).filter fun r => a.bin r = x

/-- `start + tl.cumsum(mine) - 1` -/
def pos (x r : Nat) : Nat := a.start x + (List.range (r + 1)).countP (fun r => a.bin r = x) - 1

/-- `j` with `n + j < npad` -/
def padLanes (x : Nat) : List Nat := (List.range a.bm).filter fun j => a.n x + j < a.npad x

/-- The stores of program `x` of `_ep_sort_kernel`. -/
def epSortKernel (zero : β) (writeLayout : Bool) (x : Nat) : SortStores β where
  sortedIds :=
    ((a.mine x).map fun r => (a.pos x r, routeWord (r / a.topk) (r - r / a.topk * a.topk))) ++
    (a.padLanes x).map fun j => (a.start x + a.n x + j, routeWord a.m a.topk)
  sortedWeights :=
    ((a.mine x).map fun r => (a.pos x r, a.topkWeights r)) ++
    (a.padLanes x).map fun j => (a.start x + a.n x + j, zero)
  expertIds := (List.range' (a.start x / a.bm) ((a.start x + a.npad x) / a.bm - a.start x / a.bm)).map fun b => (b, x)
  layout := if writeLayout then [(x * 2, a.start x / a.bm), (x * 2 + 1, a.npad x / a.bm)] else []
  nvalid := if x = 0 then [((), ((List.range (2 * a.leP)).map a.padded).sum)] else []

/-- The stores of all programs, one program after another. -/
def stores (zero : β) (writeLayout : Bool) (order : List Nat) : SortStores β where
  sortedIds := order.flatMap fun x => (a.epSortKernel zero writeLayout x).sortedIds
  sortedWeights := order.flatMap fun x => (a.epSortKernel zero writeLayout x).sortedWeights
  expertIds := order.flatMap fun x => (a.epSortKernel zero writeLayout x).expertIds
  layout := order.flatMap fun x => (a.epSortKernel zero writeLayout x).layout
  nvalid := order.flatMap fun x => (a.epSortKernel zero writeLayout x).nvalid

def full : Nat := a.routes + a.globalE * a.bm - a.topk

def bound : Nat := min a.full (cdiv (a.routes + min a.routes a.localE * (a.bm - 1)) a.bm * a.bm)

/-- `ep_sorting` with an expert map and contiguous inputs; `none` where it leaves the sort to `moe_sorting_fwd`. -/
def epSorting (maxRoutes : Nat) (zero : β) (writeLayout : Bool) (order : List Nat) (before : SortBuffers β) :
    Option (SortBuffers β) :=
  if 0 < a.routes ∧ a.routes ≤ maxRoutes then
    let s := a.stores zero writeLayout order
    some {
      sortedIds := scatter before.sortedIds s.sortedIds
      sortedWeights := scatter before.sortedWeights s.sortedWeights
      expertIds := scatter before.expertIds s.expertIds
      layout := scatter before.layout s.layout
      nvalid := scatter before.nvalid s.nvalid }
  else none

end SortArgs

/-! ## The gather into sorted order -/

section
variable (aQ : Nat → BitVec 8) (aS : Nat → Nat → BitVec 8) (sortedIds : Nat → BitVec 32) (m k : Nat)

/-- `tl.load(sids_ptr + rows) & 0xFFFFFF` -/
def rowToken (row : Nat) : Nat := (sortedIds row &&& 0xFFFFFF#32).toNat

/-- A byte of the scale that a program of the gather stores to a row. -/
def gatheredScale (row byte : Nat) : BitVec 8 := if rowToken sortedIds row < m then aS (rowToken sortedIds row) byte else 0#8

/-- The element that it stores to a column. -/
def gatheredValue (row col : Nat) : BitVec 8 :=
  if rowToken sortedIds row < m then aQ (rowToken sortedIds row * k + col) else 0#8

/-- The bytes that a program of `_ep_gather_sorted_kernel` stores, counted from the start of the buffer: the scales of a
tile of rows and then their values. `out_ptr` is the start and `outs_ptr` lies behind the values of `rows` rows. -/
def epGatherSortedKernel (nvalid rows program : Nat) : List (Nat × BitVec 8) :=
  let tile := List.range' (program * 32) 32
  let bk := min 2048 (nextPowerOf2 k)
  if nvalid ≤ program * 32 then []
  else
    -- no store is masked by the row, so the last tile goes on past `rows`
    (tile.flatMap fun row =>
      (List.range 4).map fun byte => (rows * k + 4 * row + byte, gatheredScale aS sortedIds m row byte)) ++
    (strided 0 k bk).flatMap fun base => tile.flatMap fun row =>
      ((List.range' base bk).filter (· < k)).map fun col => (row * k + col, gatheredValue aQ sortedIds m k row col)

/-- `ep_gather_sorted`: the memory from the start of the carved buffer on, after the programs ran one after another. -/
def epGatherSorted (nvalid rows : Nat) (order : List Nat) (mem : Nat → BitVec 8) : Except String (Nat → BitVec 8) := do
  ensure (rows * k % 4 = 0) ("RuntimeError: self.storage_offset() must be divisible by 4 to view Byte as Float " ++
    "(different element sizes), but got " ++ toString (rows * k))
  return scatter mem (order.flatMap (epGatherSortedKernel aQ aS sortedIds m k nvalid rows))

end

/-! ## The direct combine -/

/-- `_DIRECT_BIG` -/
def directBig : Nat := 2 ^ 31 - 1

/-- `_ep_direct_xoff` for contiguous buffers of one type: the distance `d` in bytes, the row size and the scratch rows. -/
def epDirectXoff (m rb cap : Nat) (d : Int) : Option Nat :=
  if d < m * rb ∨ d % rb ≠ 0 ∨ d + cap * rb ≥ 2 ^ 31 then none else some (d / rb).toNat

/-- The arguments of the direct combine; `cache3` gives the row of each route of the fallback. -/
structure DirectArgs where
  m : Nat
  topk : Nat
  topkIds : Nat → Nat → Nat
  expertMap : Nat → Int
  sortedIds : Nat → BitVec 32
  nvalid : Nat
  bound : Nat
  cap : Nat
  xoff : Nat
  cache3 : Nat → Nat

/-- Rows as stored and as summed in 32-bit floats, as numbers: a negative zero is zero. -/
structure RowFormat (R F : Type) where
  toF32 : R → F
  ofF32 : F → R
  zero : F
  add : F → F → F

namespace DirectArgs

variable (a : DirectArgs)

def isLocal (t k : Nat) : Bool := 0 ≤ a.expertMap (a.topkIds t k)

/-- `f` and `c` of `_ep_direct_info_kernel`. -/
def infoPair (t : Nat) : Nat × Nat :=
  (List.range a.topk).foldl
    (fun s k => (if a.isLocal t k && s.1 == a.topk then k else s.1, s.2 + if a.isLocal t k then 1 else 0)) (a.topk, 0)

def info (t : Nat) : Nat := (a.infoPair t).1 ||| (a.infoPair t).2 <<< 4

/-- `s & 0x00FFFFFF` -/
def tok (p : Nat) : Nat := (a.sortedIds p &&& 0xFFFFFF#32).toNat

/-- `s >> 24` -/
def choice (p : Nat) : Int := ((a.sortedIds p).sshiftRight 24).toInt

def ok (p : Nat) : Bool := p < a.bound && p < a.nvalid && a.tok p < a.m

def extra (p : Nat) : Bool := a.ok p && a.choice p != (a.info (a.tok p) &&& 15 : Nat)

/-- The slots of program `g` of `_ep_direct_rows_kernel` once its atomic add returned `base`. -/
def programSlots (base g : Nat) : List (Nat × Nat) :=
  ((List.range 1024).filter fun i => a.extra (g * 1024 + i)).map fun i =>
    (g * 1024 + i, base + (List.range i).countP fun i => a.extra (g * 1024 + i))

/-- The slots of all programs, their atomic adds in the order given. -/
def reserve : Nat → List Nat → List (Nat × Nat)
  | _, [] => []
  | ctr, g :: gs => a.programSlots ctr g ++ reserve (ctr + (a.programSlots ctr g).length) gs

variable (order : List Nat)

def slots : List (Nat × Nat) := a.reserve 0 order

/-- The counter after the launch. -/
def ctr : Nat := (a.slots order).length

def slotOf (p : Nat) : Nat := (((a.slots order).find? fun w => w.1 == p).map Prod.snd).getD 0

def rows2 (p : Nat) : Nat :=
  if a.ok p then (if a.extra p then a.xoff + a.slotOf order p else a.tok p) else directBig

/-- The inverse table, `-1` where no slot was handed out. -/
def inv : Int → Int :=
  scatter (fun _ => -1) ((a.slots order).map fun w => ((a.tok w.1 * a.topk : Nat) + a.choice w.1, (w.2 : Int)))

/-- The gates: `nvalid` of the direct and of the fallback GEMM2, and whether the fallback is on. -/
def overflows : Bool := a.cap < a.ctr order

def gate0 : Nat := if a.overflows order then 0 else a.nvalid

def gate1 : Nat := if a.overflows order then a.nvalid else 0

section
variable {R F : Type} (fmt : RowFormat R F) (val : Nat → R) (mem : Nat → R)

/-- The direct GEMM2: sorted rows to output or scratch rows. -/
def directStores : List (Nat × R) :=
  ((List.range (a.gate0 order)).filter fun p => a.rows2 order p < directBig - 1).map fun p => (a.rows2 order p, val p)

/-- The fallback GEMM2: sorted rows to the cache. -/
def fallbackStores : List (Nat × R) :=
  ((List.range (a.gate1 order)).filter fun p => a.tok p < a.m).map fun p =>
    (a.cache3 ((a.tok p * a.topk : Nat) + a.choice p).toNat, val p)

/-- `_ep_masked_moe_sum_kernel` of one token with scale one, over the rows of the routes. -/
def maskedMoeSum (row : Nat → R) (t : Nat) : R :=
  fmt.ofF32 ((List.range a.topk).foldl (fun acc k => if a.isLocal t k then fmt.add acc (fmt.toF32 (row k)) else acc) fmt.zero)

/-- The row that `_ep_direct_fix_kernel` leaves in `out[t]`. -/
def fixRow (t : Nat) : R :=
  let c := a.info t >>> 4
  if a.overflows order || c != 1 then
    if a.overflows order then a.maskedMoeSum fmt (fun k => mem (a.cache3 (t * a.topk + k))) t
    else if c > 1 then
      let f := a.info t &&& 15
      fmt.ofF32 ((List.range a.topk).foldl
        (fun acc k =>
          if k > f then
            let j := a.inv order (t * a.topk + k : Nat)
            if j ≥ 0 then fmt.add acc (fmt.toF32 (mem (a.xoff + j.toNat))) else acc
          else acc)
        (fmt.add fmt.zero (fmt.toF32 (mem t))))
    else fmt.ofF32 fmt.zero
  else mem t

/-- The memory before the fix kernel. -/
def gemms : Nat → R := scatter (scatter mem (a.directStores order val)) (a.fallbackStores order val)

/-- `_ep_direct_combine` -/
def directCombine : Nat → R := fun i =>
  if i < a.m then a.fixRow order fmt (a.gemms order val mem) i else a.gemms order val mem i

end

end DirectArgs

end VllmHcu.EpMoe
