import Mathlib.Algebra.Group.Defs
import Mathlib.Logic.Function.Basic
import VllmHcu.Lib.Run
import VllmHcu.Lib.Stride

/-!
# The custom all-reduce

Each rank copies its input into its registered buffer and launches one kernel.
The blocks of one index meet in two barriers; their flags are 32-bit counters of
their own. An event is one access of one block. Between two barriers the accesses
of a block are performed in any order. The copy and the launches of a rank run
one after another on its stream.
-/

namespace VllmHcu.CustomAr

/-! ## Dispatch -/

inductive Dtype
  | float32
  | float16
  | bfloat16

def Dtype.elementSize : Dtype → Nat
  | .float32 => 4
  | .float16 | .bfloat16 => 2

/-- `packed_t<T>::P::size` -/
def Dtype.packed (t : Dtype) : Nat := 16 / t.elementSize

/-- One call: the shape of the input that all ranks have in common, and for each rank the address of its registered
buffer, in packed elements, and the input. -/
structure Call (P : Type) where
  dtype : Dtype
  numel : Nat
  isContiguous : Bool
  storageNbytes : Nat
  storageOffset : Nat
  ptrs : Nat → Nat
  input : Nat → Nat → P

def isWeakContiguous {P : Type} (inp : Call P) : Bool :=
  inp.isContiguous ||
    inp.storageNbytes - inp.storageOffset * inp.dtype.elementSize = inp.numel * inp.dtype.elementSize

inductive Kernel
  | oneStage
  | twoStage
deriving DecidableEq

structure Launch where
  kernel : Kernel
  blocks : Nat
  threads : Nat
  -- in packed elements
  size : Nat

inductive LaunchError
  | length (d : Nat)
  | algo (env : String)
  | world (n : Nat)

def LaunchError.message : LaunchError → String
  | .length d => s!"custom allreduce currently requires input length to be multiple of {d}"
  | .algo env =>
    "Invalid VLLM_CUSTOM_ALLREDUCE_ALGO: " ++ env ++ ". Valid values: 1stage, oneshot, 2stage, twoshot"
  | .world n => s!"custom allreduce only supports num gpus in (2,4,6,8). Actual num gpus = {n}"

/-- `VLLM_CUSTOM_ALLREDUCE_ALGO` -/
def forced : Option String → Except LaunchError (Option Kernel)
  | none => .ok none
  | some env =>
    if env = "1stage" ∨ env = "oneshot" then .ok (some .oneStage)
    else if env = "2stage" ∨ env = "twoshot" then .ok (some .twoStage)
    else .error (.algo env)

/-- `defaultBlockLimit` under `USE_ROCM` -/
def defaultBlockLimit : Nat := 16

def defaultThreads : Nat := 512

structure CustomAllreduce where
  disabled : Bool
  worldSize : Nat
  fullyConnected : Bool
  maxSize : Nat
  envAlgo : Option String

namespace CustomAllreduce

def shouldCustomAr {P : Type} (c : CustomAllreduce) (inp : Call P) : Bool :=
  let inpSize := inp.numel * inp.dtype.elementSize
  if c.disabled then false
  else if inpSize % 16 ≠ 0 then false
  else if ! isWeakContiguous inp then false
  else if c.worldSize = 2 ∨ c.fullyConnected then inpSize < c.maxSize
  else false

/-- `REDUCE_CASE`, with the sizes below which up to four and up to eight ranks reduce in one stage. -/
def reduceCase (c : CustomAllreduce) (force : Option Kernel) (four eight bytes : Nat) : Option Kernel :=
  match force with
  | some kernel => some kernel
  | none =>
    if c.worldSize = 2 then some .oneStage
    else if c.fullyConnected then
      if c.worldSize ≤ 4 ∧ bytes < four ∨ c.worldSize ≤ 8 ∧ bytes < eight then some .oneStage else some .twoStage
    else none

def launchWith (c : CustomAllreduce) (four eight : Nat) (dtype : Dtype) (numel : Nat) :
    Except LaunchError (Option Launch) := do
  if numel % dtype.packed ≠ 0 then throw (.length dtype.packed)
  let size := numel / dtype.packed
  let blocks := min defaultBlockLimit (cdiv size defaultThreads)
  let force ← forced c.envAlgo
  if c.worldSize ∈ [2, 4, 6, 8] then
    return (c.reduceCase force four eight (size * 16)).map fun kernel => ⟨kernel, blocks, defaultThreads, size⟩
  else throw (.world c.worldSize)

def allreduce (c : CustomAllreduce) : Dtype → Nat → Except LaunchError (Option Launch) :=
  c.launchWith (512 * 1024) (256 * 1024)

def allreducePcie (c : CustomAllreduce) : Dtype → Nat → Except LaunchError (Option Launch) :=
  c.launchWith (128 * 8192) (8 * 8192)

/-- The launch that `all_reduce` makes. -/
def allReduce {P : Type} (c : CustomAllreduce) (inp : Call P) : Except LaunchError (Option Launch) :=
  if c.fullyConnected then c.allreduce inp.dtype inp.numel else c.allreducePcie inp.dtype inp.numel

end CustomAllreduce

/-! ## The kernels -/

/-- The two barriers of a kernel. -/
inductive Barrier
  | start
  | finish
deriving DecidableEq

/-- The accesses of a block. The thread of each rank signals it and waits for it. -/
inductive Instr
  | enter (p : Barrier)
  | signal (p : Barrier) (i : Nat)
  | wait (p : Barrier) (i : Nat)
  | update (p : Barrier)
  | load (idx target : Nat)
  | store (idx : Nat)
  | gather (source idx : Nat)
deriving DecidableEq

def barrier (p : Barrier) (n : Nat) : List Instr :=
  .enter p :: (List.range n).map (.signal p) ++ (List.range n).map (.wait p) ++ [.update p]

/-- `(rank + i) % ngpus`, for each `i` -/
def targets (n rank : Nat) : List Nat := (List.range n).map fun i => (rank + i) % n

namespace Launch

def part (l : Launch) (n : Nat) : Nat := l.size / n

def start (l : Launch) (n rank : Nat) : Nat := rank * l.part n

def stop (l : Launch) (n rank : Nat) : Nat := if rank = n - 1 then l.size else l.start n rank + l.part n

def largestPart (l : Launch) (n : Nat) : Nat := l.part n + l.size % n

/-- The elements that a block reduces. -/
def reduced (l : Launch) (n rank b : Nat) : List Nat :=
  match l.kernel with
  | .oneStage => gridElems l.threads l.blocks b 0 l.size
  | .twoStage => gridElems l.threads l.blocks b (l.start n rank) (l.stop n rank)

/-- The ranks in the order in which `packed_reduce` adds them. -/
def ptrs (l : Launch) (n rank : Nat) : List Nat :=
  match l.kernel with
  | .oneStage => List.range n
  | .twoStage => targets n rank

/-- Stage 2. -/
def gathers (l : Launch) (n rank b : Nat) : List Instr :=
  match l.kernel with
  | .oneStage => []
  | .twoStage => (gridElems l.threads l.blocks b 0 (l.largestPart n)).flatMap fun idx =>
    ((targets n rank).filter fun source => source = n - 1 ∨ idx < l.part n).map fun source => .gather source idx

def program (l : Launch) (n rank b : Nat) : List Instr :=
  barrier .start n ++
    (l.reduced n rank b).flatMap (fun idx => (l.ptrs n rank).map (.load idx) ++ [.store idx]) ++
    barrier .finish n ++
    l.gathers n rank b

/-- The order within a block: a thread's own accesses, and `__syncthreads` on both sides of what lies between the
barriers. At the end of the one-stage kernel the first thread updates the flag without it. -/
def fenced (l : Launch) : Instr → Instr → Bool
  | .enter .start, .enter .start => false
  | .enter .start, _ => true
  | .signal .start i, .wait .start j => i = j
  | .wait .start _, .update .start | .wait .start _, .load .. | .wait .start _, .store _ => true
  | .load idx _, .store idx' => idx = idx'
  | .update .start, .enter .finish | .load .., .enter .finish | .store _, .enter .finish => true
  | .enter .finish, .signal .finish _ | .enter .finish, .wait .finish _ | .enter .finish, .update .finish
  | .enter .finish, .gather .. => true
  | .signal .finish i, .wait .finish j => i = j
  | .wait .finish i, .update .finish => i = 0 || l.kernel = .twoStage
  | .wait .finish _, .gather .. => true
  | _, _ => false

end Launch

/-! ## Runs -/

inductive Op
  | copy (idx : Nat)
  | run (b : Nat) (i : Instr)
deriving DecidableEq

structure Event where
  rank : Nat
  launch : Nat
  op : Op
deriving DecidableEq

/-- An element of the registered memory or of the temporary buffer of a rank. -/
inductive Loc
  | input (rank addr : Nat)
  | tmp (rank idx : Nat)
deriving DecidableEq

/-- A group of communicators and the calls that each of its ranks makes, one after another. An element is a packed one,
summed in its accumulator type. -/
structure Group (P A : Type) where
  comm : CustomAllreduce
  upcast : P → A
  downcast : A → P
  calls : Nat → Call P
  world_mem : comm.worldSize ∈ [2, 4, 6, 8]
  algo_valid : ∃ force, forced comm.envAlgo = .ok force

structure Device (P : Type) where
  mem : Loc → P
  -- `start[b][i]` and `end[b][i]` of each rank
  peer : Barrier → Nat × Nat × Nat → Nat := fun _ _ => 0
  -- `_flag[b]` of each rank
  flag : Nat × Nat → Nat := fun _ => 0
  -- the variable `flag`, by rank, launch and block
  own : Barrier → Nat × Nat × Nat → Nat := fun _ _ => 0
  -- what a block has loaded, by rank, launch, element and source
  regs : Nat × Nat × Nat × Nat → P
  -- the output tensors, by rank, launch and element
  out : Nat × Nat × Nat → Option P := fun _ => none
  -- what has been performed, newest first
  hist : List Event := []

/-- The range of `FlagType` -/
def flagRange : Nat := 2 ^ 32

namespace Group

section
variable {P A : Type} [AddCommMonoid A]

def world (G : Group P A) : Nat := G.comm.worldSize

/-- The sum is rounded once. -/
def packedReduce (G : Group P A) : List P → P
  | [] => G.downcast 0
  | x :: xs => G.downcast (xs.foldl (fun tmp y => tmp + G.upcast y) (G.upcast x))

/-- Without a kernel nothing is launched. -/
def launchAt (G : Group P A) (k : Nat) : Launch :=
  ((G.comm.allReduce (G.calls k)).toOption.join).getD ⟨.oneStage, 0, defaultThreads, 0⟩

def copies (G : Group P A) (r k : Nat) : List Event := (List.range (G.launchAt k).size).map fun idx => ⟨r, k, .copy idx⟩

def block (G : Group P A) (r k b : Nat) : List Event :=
  ((G.launchAt k).program G.world r b).map fun i => ⟨r, k, .run b i⟩

/-- What rank `r` puts on its stream for call `k`. -/
def stream (G : Group P A) (r k : Nat) : List Event :=
  G.copies r k ++ (List.range (G.launchAt k).blocks).flatMap fun b => G.block r k b

/-- What the rank itself performs before `e`. -/
def prior (G : Group P A) (e : Event) : List Event :=
  match e.op with
  | .copy _ => (List.range e.launch).flatMap fun k => G.stream e.rank k
  | .run _ (.enter .start) =>
    ((List.range e.launch).flatMap fun k => G.stream e.rank k) ++ G.copies e.rank e.launch
  | .run b i => (((G.launchAt e.launch).program G.world e.rank b).filter fun i' => (G.launchAt e.launch).fenced i' i).map
    fun i' => ⟨e.rank, e.launch, .run b i'⟩

/-- A thread goes on when the flag of its peer is not below its own. -/
def enabled (s : Device P) (e : Event) : Bool :=
  match e.op with
  | .run b (.wait p i) => !(s.peer p (e.rank, b, i) < s.own p (e.rank, e.launch, b))
  | _ => true

def perform (G : Group P A) (s : Device P) (e : Event) : Device P :=
  let l := G.launchAt e.launch
  let r := e.rank
  let k := e.launch
  let s := { s with hist := e :: s.hist }
  match e.op with
  | .copy idx => { s with
      mem := Function.update s.mem (.input r ((G.calls k).ptrs r + idx)) ((G.calls k).input r idx) }
  | .run b (.enter p) => { s with
      own := Function.update s.own p (Function.update (s.own p) (r, k, b) ((s.flag (r, b) + 1) % flagRange)) }
  | .run b (.signal p i) => { s with
      peer := Function.update s.peer p (Function.update (s.peer p) (i, b, r) (s.own p (r, k, b))) }
  | .run _ (.wait ..) => s
  | .run b (.update p) => { s with flag := Function.update s.flag (r, b) (s.own p (r, k, b)) }
  | .run _ (.load idx target) => { s with
      regs := Function.update s.regs (r, k, idx, target) (s.mem (.input target ((G.calls k).ptrs target + idx))) }
  | .run _ (.store idx) =>
    let sum := G.packedReduce ((l.ptrs G.world r).map fun target => s.regs (r, k, idx, target))
    match l.kernel with
    | .oneStage => { s with out := Function.update s.out (r, k, idx) (some sum) }
    | .twoStage => { s with mem := Function.update s.mem (.tmp r (idx - l.start G.world r)) sum }
  | .run _ (.gather source idx) => { s with
      out := Function.update s.out (r, k, source * l.part G.world + idx) (some (s.mem (.tmp source idx))) }

def step (G : Group P A) (s : Device P) (e : Event) : Option (Device P) :=
  if e.rank < G.world ∧ e ∈ G.stream e.rank e.launch ∧ e ∉ s.hist ∧ (∀ e' ∈ G.prior e, e' ∈ s.hist) ∧ enabled s e then
    some (G.perform s e)
  else none

end

end Group

end VllmHcu.CustomAr
