import Mathlib.Logic.Function.Basic
import VllmHcu.Lib.Run
import VllmHcu.Lib.Stride

/-!
# The small-message all-gather over IPC buffers

Every program of a launch pushes its chunk of the local rows into each peer's
buffer, bumps its flag there, waits for the peers' matching flags and copies
their chunks out. An event is one access of one program. Between the fences of a
program its accesses are performed in any order; a launch of a rank begins when
the launch before it has ended. The spin bound is never reached.
-/

namespace VllmHcu.Ipc

abbrev Word := BitVec 32

/-! ## The communicator -/

/-- `_MAX_TENSORS` -/
def maxTensors : Nat := 4

/-- `_MAX_WORLD` -/
def maxWorld : Nat := 8

structure Tensor where
  strided : Bool := true
  device : String
  elementSize : Nat
  shape : List Nat
  -- the rows, packed and viewed as int32
  words : List Word

def rowBytes (t : Tensor) : Nat := t.elementSize * t.shape.tail.prod

/-- The rows of a tensor have as many words as its shape says. -/
def Tensor.Packed (t : Tensor) : Prop := t.words.length * 4 = t.shape.headD 0 * rowBytes t

structure IpcAllGather where
  disabled : Bool
  rank : Nat
  worldSize : Nat
  device : String
  regionElems : Nat

inductive GatherError
  | closed
  | sizes
  | inputs
  | capacity
deriving DecidableEq

def GatherError.message : GatherError → String
  | .closed => "IPC all-gather communicator is closed"
  | .sizes => "all-gather sizes must contain one non-negative integer per rank"
  | .inputs => "all-gather inputs must be dense tensors on this rank's device with the declared rows"
  | .capacity => "tensor row layout or size exceeds the IPC all-gather capacity"

/-- What a launch of `_ipc_all_gather_kernel` is given. -/
structure Args where
  ins : List (List Word)
  sizes : List Nat
  widths : List Nat

namespace IpcAllGather

def canGather (c : IpcAllGather) (tensors : List Tensor) (sizes : List Int) : Except GatherError Bool :=
  if c.disabled then .error .closed
  else if sizes.length ≠ c.worldSize ∨ sizes.any (· < 0) then .error .sizes
  else if tensors.any (fun t => !t.strided || t.shape = [] || (t.shape.headD 0 : Int) ≠ sizes.getD c.rank 0 ||
      t.device ≠ c.device) then .error .inputs
  else
    let total := (tensors.map rowBytes).sum
    .ok (0 < tensors.length && tensors.length ≤ maxTensors && tensors.all (fun t => rowBytes t % 4 = 0) &&
      sizes.foldl max 0 * total ≤ c.regionElems * 4)

def launchArgs (tensors : List Tensor) (sizes : List Int) : Args :=
  let ins := tensors.map Tensor.words
  let widths := tensors.map fun t => rowBytes t / 4
  let pad := maxTensors - tensors.length
  { ins := ins ++ List.replicate pad (ins.headD [])
    sizes := sizes.map Int.toNat ++ List.replicate (maxWorld - sizes.length) 0
    widths := widths ++ List.replicate pad 0 }

/-- The launch that `gather` makes. -/
def gather (c : IpcAllGather) (tensors : List Tensor) (sizes : List Int) : Except GatherError Args := do
  if ! (← c.canGather tensors sizes) then throw .capacity
  return launchArgs tensors sizes

end IpcAllGather

/-! ## The kernel -/

/-- `NPROG` and `BLOCK` -/
structure Grid where
  nprog : Nat
  block : Nat
  nprog_pos : 0 < nprog
  block_pos : 0 < block

def IpcAllGather.grid : Grid := ⟨64, 512, by decide, by decide⟩

namespace Grid

def chunk (g : Grid) (elems : Nat) : Nat := cdiv (cdiv elems g.nprog) g.block * g.block

/-- The elements that program `pid` moves, block by block under its mask. -/
def chunkElems (g : Grid) (elems pid : Nat) : List Nat :=
  let lo := pid * g.chunk elems
  let hi := min elems (lo + g.chunk elems)
  (strided lo hi g.block).flatMap fun off => ((List.range g.block).map fun ar => off + ar).filter (· < hi)

end Grid

/-- The accesses of a program. -/
inductive Instr
  | begin
  | own (t idx : Nat)
  | push (peer t idx : Nat)
  | release (peer : Nat)
  | acquire (peer : Nat)
  | copy (peer t idx : Nat)
deriving DecidableEq

namespace Args

def rows (a : Args) (r : Nat) : Nat := a.sizes.getD r 0

def width (a : Args) (t : Nat) : Nat := a.widths.getD t 0

/-- Row start of rank `r` in the gathered output. -/
def start (a : Args) (r : Nat) : Nat := (a.sizes.take r).sum

/-- `t_off` of tensor `t` in the region of rank `r`. -/
def tOff (a : Args) (r t : Nat) : Nat := ((a.widths.take t).map fun w => a.rows r * w).sum

def input (a : Args) (t idx : Nat) : Word := (a.ins.getD t []).getD idx 0

end Args

/-- Each element of rank `r` that program `pid` moves, with its tensor. -/
def moved (g : Grid) (a : Args) (r pid : Nat) : List (Nat × Nat) :=
  (List.range maxTensors).flatMap fun t =>
    if 0 < a.width t then (g.chunkElems (a.rows r * a.width t) pid).map fun idx => (t, idx) else []

def peers (world rank : Nat) : List Nat := (List.range world).filter (· ≠ rank)

def kernel (g : Grid) (world : Nat) (a : Args) (rank pid : Nat) : List Instr :=
  .begin ::
    (moved g a rank pid).flatMap (fun m => .own m.1 m.2 :: (peers world rank).map fun r => .push r m.1 m.2) ++
    (peers world rank).map .release ++
    (peers world rank).flatMap fun r => .acquire r :: (moved g a r pid).map fun m => .copy r m.1 m.2

/-- The stores come before a release, the loads from a peer after its acquire. -/
def fenced : Instr → Instr → Bool
  | .begin, .begin => false
  | .begin, _ => true
  | .own .., .release _ | .push .., .release _ => true
  | .acquire r, .copy r' .. => r = r'
  | _, _ => false

/-! ## Runs -/

structure Event where
  rank : Nat
  launch : Nat
  pid : Nat
  instr : Instr
deriving DecidableEq

/-- One collective call: the common `sizes` and the tensors of each rank. -/
structure Call where
  sizes : List Int
  tensors : Nat → List Tensor

/-- A group of communicators and the calls that each of its ranks makes, one after another. The bounds are what the
constructor checks. -/
structure Group where
  world : Nat
  regionElems : Nat
  device : Nat → String
  grid : Grid
  calls : List Call
  two_le_world : 2 ≤ world
  world_le : world ≤ maxWorld
  region_pos : 0 < regionElems

structure Buffers where
  -- by rank and int32 element
  data : Nat × Nat → Word
  flags : Nat × Nat → Nat := fun _ => 0
  cnt : Nat × Nat → Nat := fun _ => 0
  -- the register `call`, by rank, launch and program
  call : Nat × Nat × Nat → Nat := fun _ => 0
  -- the output tensors, by rank, launch, tensor and int32 element
  out : Nat × Nat × Nat × Nat → Option Word := fun _ => none
  -- what has been performed, newest first
  hist : List Event := []

namespace Group

def comm (G : Group) (r : Nat) : IpcAllGather := ⟨false, r, G.world, G.device r, G.regionElems⟩

/-- Every rank accepts the call, with the same row layouts. -/
structure Accepts (G : Group) (c : Call) : Prop where
  canGather : ∀ r < G.world, (G.comm r).canGather (c.tensors r) c.sizes = .ok true
  layout : ∀ r < G.world, (c.tensors r).map rowBytes = (c.tensors 0).map rowBytes
  packed : ∀ r < G.world, ∀ t ∈ c.tensors r, t.Packed

def argsAt (G : Group) (k r : Nat) : Args :=
  let c := G.calls.getD k ⟨[], fun _ => []⟩
  IpcAllGather.launchArgs (c.tensors r) c.sizes

def program (G : Group) (r k pid : Nat) : List Event :=
  (kernel G.grid G.world (G.argsAt k r) r pid).map fun i => ⟨r, k, pid, i⟩

def launch (G : Group) (r k : Nat) : List Event := (List.range G.grid.nprog).flatMap fun pid => G.program r k pid

/-- Everything that the calls perform. -/
def events (G : Group) : List Event :=
  (List.range G.world).flatMap fun r => (List.range G.calls.length).flatMap fun k => G.launch r k

/-- What the rank itself performs before `e`. -/
def prior (G : Group) (e : Event) : List Event :=
  match e.instr, e.launch with
  | .begin, 0 => []
  | .begin, k + 1 => G.launch e.rank k
  | i, k => (G.program e.rank k e.pid).filter fun e' => fenced e'.instr i

/-- Where rank `r` stores its element `idx` of tensor `t` in a peer's buffer. -/
def slotElem (G : Group) (a : Args) (call r t idx : Nat) : Nat :=
  call % 2 * (G.regionElems * G.world) + r * G.regionElems + a.tOff r t + idx

/-- An acquire goes on when it sees the flag above the call number. -/
def enabled (G : Group) (s : Buffers) (e : Event) : Bool :=
  match e.instr with
  | .acquire peer => s.call (e.rank, e.launch, e.pid) < s.flags (e.rank, peer * G.grid.nprog + e.pid)
  | _ => true

def perform (G : Group) (s : Buffers) (e : Event) : Buffers :=
  let a := G.argsAt e.launch e.rank
  let call := s.call (e.rank, e.launch, e.pid)
  let s := { s with hist := e :: s.hist }
  match e.instr with
  | .begin => { s with
      call := Function.update s.call (e.rank, e.launch, e.pid) (s.cnt (e.rank, e.pid))
      cnt := Function.update s.cnt (e.rank, e.pid) (s.cnt (e.rank, e.pid) + 1) }
  | .own t idx => { s with
      out := Function.update s.out (e.rank, e.launch, t, a.start e.rank * a.width t + idx) (some (a.input t idx)) }
  | .push peer t idx => { s with
      data := Function.update s.data (peer, G.slotElem a call e.rank t idx) (a.input t idx) }
  | .release peer =>
    let flag := (peer, e.rank * G.grid.nprog + e.pid)
    { s with flags := Function.update s.flags flag (s.flags flag + 1) }
  | .acquire _ => s
  | .copy peer t idx => { s with
      out := Function.update s.out (e.rank, e.launch, t, a.start peer * a.width t + idx)
        (some (s.data (e.rank, G.slotElem a call peer t idx))) }

def step (G : Group) (s : Buffers) (e : Event) : Option Buffers :=
  if e ∈ G.events ∧ e ∉ s.hist ∧ (∀ e' ∈ G.prior e, e' ∈ s.hist) ∧ G.enabled s e then some (G.perform s e) else none

end Group

end VllmHcu.Ipc
