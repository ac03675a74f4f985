import Mathlib.Logic.Function.Basic
import VllmHcu.Lib.Buddy
import VllmHcu.Du.SendStore

/-!
# The pool of pinned memory

A buddy allocator: one dictionary of free blocks for each size, and one of the
allocated blocks, all by address. A call that raises leaves the pool as it is at
that point.

For a `PUT` or `PUT_NEW` the listener allocates the tensor, acknowledges,
receives, and stores it: in the buffer, or in the pinned pool when the buffer is
full. Only an out-of-memory error of the device is caught; any other exception
leaves the loop.
-/

namespace VllmHcu.Du

/-- `MemoryBlock` -/
abbrev MemoryBlock := Block

inductive PoolError
  | blockSizes
  | maxBelowMin
  | allocationSize
  | exceedsMaximum
  | insufficientMemory
  | invalidAddress
  | keyError (size : Nat)
deriving DecidableEq

def PoolError.message : PoolError → String
  | .blockSizes => "Block sizes must be positive"
  | .maxBelowMin => "Max block size must be greater than min block size"
  | .allocationSize => "Allocation size must be positive"
  | .exceedsMaximum => "Requested size exceeds maximum block size"
  | .insufficientMemory => "Insufficient memory"
  | .invalidAddress => "Invalid address to free"
  | .keyError size => s!"{size}"

/-! ## Dictionaries of blocks by address, in the order of their insertion -/

/-- `d[b.addr] = b` -/
def dictSet (d : List MemoryBlock) (b : MemoryBlock) : List MemoryBlock :=
  if d.any (·.addr = b.addr) then d.map fun c => if c.addr = b.addr then b else c else d ++ [b]

/-- `d.get(addr)` -/
def dictGet (d : List MemoryBlock) (addr : Int) : Option MemoryBlock := d.find? (·.addr = addr)

/-- `del d[addr]` -/
def dictDel (d : List MemoryBlock) (addr : Int) : List MemoryBlock := d.filter (·.addr ≠ addr)

/-! ## The pool -/

structure TensorMemoryPool where
  maxBlockSize : Nat
  minBlockSize : Nat
  baseAddress : Int
  freeLists : Nat → Option (List MemoryBlock)
  allocatedBlocks : List MemoryBlock

namespace TensorMemoryPool

def bitLength (n : Nat) : Nat := if n = 0 then 0 else Nat.log2 n + 1

def roundToPowerOfTwo (size : Nat) : Nat := 1 <<< bitLength (size - 1)

/-- The keys that `_initialize_free_lists` sets, from `size` down. -/
def initializeFreeLists (minBlockSize : Nat) : Nat → Nat → (Nat → Option (List MemoryBlock))
  | 0, _ => fun _ => none
  | fuel + 1, size =>
    if size ≥ minBlockSize then Function.update (initializeFreeLists minBlockSize fuel (size / 2)) size (some [])
    else fun _ => none

/-- A pool whose pinned memory is at `base`. -/
def init (maxBlockSize minBlockSize : Int) (base : Int) : Except PoolError TensorMemoryPool :=
  if maxBlockSize ≤ 0 ∨ minBlockSize ≤ 0 then .error .blockSizes
  else if maxBlockSize < minBlockSize then .error .maxBelowMin
  else
    let top := roundToPowerOfTwo maxBlockSize.toNat
    let bottom := roundToPowerOfTwo minBlockSize.toNat
    let lists := initializeFreeLists bottom top top
    .ok ⟨top, bottom, base, Function.update lists top ((lists top).map fun d => dictSet d ⟨top, base⟩), []⟩

/-- `_split_block`, with the block that is left. -/
def splitBlock (required : Nat) : Nat → TensorMemoryPool → MemoryBlock → TensorMemoryPool × Except PoolError MemoryBlock
  | 0, p, block => (p, .ok block)
  | fuel + 1, p, block =>
    if block.size > required ∧ block.size / 2 ≥ p.minBlockSize then
      let buddySize := block.size / 2
      match p.freeLists buddySize with
      | none => (p, .error (.keyError buddySize))
      | some d =>
        let lists := Function.update p.freeLists buddySize (some (dictSet d ⟨buddySize, block.addr + buddySize⟩))
        splitBlock required fuel { p with freeLists := lists } ⟨buddySize, block.addr⟩
    else (p, .ok block)

/-- The loop of `allocate` from `current` on. -/
def allocateFrom (required : Nat) : Nat → TensorMemoryPool → Nat → TensorMemoryPool × Except PoolError Int
  | 0, p, _ => (p, .error .insufficientMemory)
  | fuel + 1, p, current =>
    if current ≤ p.maxBlockSize then
      match p.freeLists current with
      | none => (p, .error (.keyError current))
      | some d =>
        -- `popitem` takes the last one
        match d.getLast? with
        | none => allocateFrom required fuel p (current * 2)
        | some block =>
          let p := { p with freeLists := Function.update p.freeLists current (some d.dropLast) }
          match splitBlock required block.size p block with
          | (p, .error e) => (p, .error e)
          | (p, .ok block) => ({ p with allocatedBlocks := dictSet p.allocatedBlocks block }, .ok block.addr)
    else (p, .error .insufficientMemory)

def allocate (p : TensorMemoryPool) (size : Int) : TensorMemoryPool × Except PoolError Int :=
  if size ≤ 0 then (p, .error .allocationSize)
  else
    let required := roundToPowerOfTwo (max size.toNat p.minBlockSize)
    if required > p.maxBlockSize then (p, .error .exceedsMaximum)
    else allocateFrom required (p.maxBlockSize + 1) p required

/-- `MAX_MERGE_DEPTH` -/
def maxMergeDepth : Nat := 30

/-- `free_lists[block.size][block.addr] = block` -/
def putFree (p : TensorMemoryPool) (block : MemoryBlock) : TensorMemoryPool × Except PoolError Unit :=
  match p.freeLists block.size with
  | none => (p, .error (.keyError block.size))
  | some d => ({ p with freeLists := Function.update p.freeLists block.size (some (dictSet d block)) }, .ok ())

/-- `_merge_buddies`, with the number of merges that are left. -/
def mergeBuddies : Nat → TensorMemoryPool → MemoryBlock → TensorMemoryPool × Except PoolError Unit
  | 0, p, block => p.putFree block
  | depth + 1, p, block =>
    let buddyOffset : Int := if (block.addr - p.baseAddress) % (2 * block.size) = 0 then block.size else -block.size
    let buddyAddr := block.addr + buddyOffset
    match p.freeLists block.size with
    | none => (p, .error (.keyError block.size))
    | some d =>
      match dictGet d buddyAddr with
      | some buddy =>
        let lists := Function.update p.freeLists buddy.size
          ((p.freeLists buddy.size).map fun d => dictDel d buddy.addr)
        mergeBuddies depth { p with freeLists := lists } ⟨block.size * 2, min block.addr buddy.addr⟩
      | none => p.putFree block

def free (p : TensorMemoryPool) (addr : Int) : TensorMemoryPool × Except PoolError Unit :=
  match dictGet p.allocatedBlocks addr with
  | none => (p, .error .invalidAddress)
  | some block =>
    mergeBuddies maxMergeDepth { p with allocatedBlocks := dictDel p.allocatedBlocks addr } block

/-! ## Runs -/

inductive Call
  | allocate (size : Int)
  | free (addr : Int)

def call (p : TensorMemoryPool) : Call → TensorMemoryPool
  | .allocate size => (p.allocate size).1
  | .free addr => (p.free addr).1

def run (p : TensorMemoryPool) (calls : List Call) : TensorMemoryPool := calls.foldl call p

end TensorMemoryPool

/-! ## `store_tensor` -/

inductive StoreError
  | pool (e : PoolError)
  | blockTooSmall (blockSize requiredSize : Nat)
  | keyError (addr : Int)

def StoreError.message : StoreError → String
  | .pool e => e.message
  | .blockTooSmall blockSize requiredSize =>
    s!"Allocated block size {blockSize} is smaller than required size {requiredSize}"
  | .keyError addr => s!"{addr}"

/-- `store_tensor` of a tensor on the device. -/
def storeTensor (p : TensorMemoryPool) (tensor : Tensor) : TensorMemoryPool × Except StoreError Int :=
  match p.allocate tensor.size with
  | (p, .error e) => (p, .error (.pool e))
  | (p, .ok addr) =>
    match dictGet p.allocatedBlocks addr with
    | none => (p, .error (.keyError addr))
    | some block =>
      if block.size < tensor.size then
        match p.free addr with
        | (p, .error e) => (p, .error (.pool e))
        | (p, .ok ()) => (p, .error (.blockTooSmall block.size tensor.size))
      else (p, .ok addr)

/-! ## The listener -/

inductive PutCommand
  | put
  | putNew (pdPairId : String) (tensorSplitNum : Option Nat)

structure PutMessage where
  remoteAddress : String
  command : PutCommand
  tensorId : String
  tensor : Tensor
  /-- Whether `torch.empty` finds no device memory for the tensor. -/
  outOfMemory : Bool

/-- The key of the communicator in `comms`. -/
def PutMessage.commKey (m : PutMessage) : String :=
  match m.command with
  | .put => m.remoteAddress
  | .putNew pdPairId _ => pdPairId

/-- An entry of `recv_store`; `none` stands for the tensor that found no memory. -/
inductive Received
  | tensor (t : Tensor)
  | pooled (addr : Int) (dtype : String) (shape : List Nat)
  | none

structure Listener where
  alive : Bool
  bufferSize : Int
  bufferSizeThreshold : Nat
  pool : TensorMemoryPool
  comms : List String
  tensorSplitNum : Option Nat
  recvStore : List (String × Received)
  replies : List (String × String)

namespace Listener

def reply (s : Listener) (m : PutMessage) (ret : String) : Listener := { s with replies := s.replies ++ [(m.remoteAddress, ret)] }

def store (s : Listener) (m : PutMessage) (r : Received) : Listener := { s with recvStore := insertKey m.tensorId r s.recvStore }

def setSplit (s : Listener) (m : PutMessage) : Listener :=
  match m.command with
  | .putNew _ (some n) => { s with tensorSplitNum := some n }
  | _ => s

/-- After the acknowledgement. -/
def receive (s : Listener) (m : PutMessage) : Listener :=
  -- an unknown key of `comms` is an exception
  if m.commKey ∉ s.comms then { s with alive := false }
  else if s.bufferSize + m.tensor.size > s.bufferSizeThreshold then
    match storeTensor s.pool m.tensor with
    -- a `ValueError`, which nothing catches
    | (pool, .error _) => { s with pool := pool, alive := false }
    | (pool, .ok addr) => { s with pool := pool }.store m (.pooled addr m.tensor.dtype m.tensor.shape)
  else { s with bufferSize := s.bufferSize + m.tensor.size }.store m (.tensor m.tensor)

def handlePut (s : Listener) (m : PutMessage) : Listener :=
  if m.outOfMemory then ((s.setSplit m).reply m "1").store m .none else ((s.setSplit m).reply m "0").receive m

end Listener

/-- One message of `listen_for_requests`; there is none once the loop has ended. -/
def listen (s : Listener) (m : PutMessage) : Option Listener := if s.alive then some (s.handlePut m) else none

end VllmHcu.Du
