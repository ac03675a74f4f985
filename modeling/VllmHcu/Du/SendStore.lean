import VllmHcu.Lib.Assoc
import VllmHcu.Lib.Run
import Mathlib.Algebra.GroupWithZero.Nat

/-!
# The buffer of tensors to be fetched

In GET mode `send_tensor` keeps tensors in a dictionary until they are fetched
and evicts the first entries when a new one does not fit. The total size is a
counter kept beside the dictionary.
-/

namespace VllmHcu.Du

structure Tensor where
  shape : List Nat
  dtype : String
  elementSize : Nat

def Tensor.numel (t : Tensor) : Nat := t.shape.prod

def Tensor.size (t : Tensor) : Nat := t.elementSize * t.numel

/-- A tensor of `n` bytes. -/
def bytesTensor (n : Nat) : Tensor := ⟨[n], "uint8", 1⟩

/-- A dictionary by tensor id, in the order of its entries. -/
abbrev TensorStore := List (String × Tensor)

def totalSize (store : TensorStore) : Nat := (store.map fun p => p.2.size).sum

structure SendBuffer where
  sendStore : TensorStore
  bufferSize : Int
  bufferSizeThreshold : Nat

inductive SendOutcome
  | returned (sent : Bool)
  | assertionError
  -- of the percentage in the log message
  | zeroDivisionError

/-- The loop that makes room for `tensorSize`, and whether its assertion held. -/
def evictOldest (tensorSize threshold : Nat) : Int → TensorStore → Int × TensorStore × Bool
  | bufferSize, [] => (bufferSize, [], decide (bufferSize + tensorSize ≤ threshold))
  | bufferSize, (id, oldest) :: rest =>
    if bufferSize + tensorSize > threshold then evictOldest tensorSize threshold (bufferSize - oldest.size) rest
    else (bufferSize, (id, oldest) :: rest, true)

namespace SendBuffer
variable (s : SendBuffer)

/-- `send_tensor` in GET mode; without a remote address the tensor goes to the engine's own `recv_store`. -/
def sendTensor (tensorId : String) (tensor : Tensor) (remoteAddress : Option String) : SendBuffer × SendOutcome :=
  if remoteAddress = none then (s, .returned true)
  else if tensor.size > s.bufferSizeThreshold then (s, .returned false)
  else
    match evictOldest tensor.size s.bufferSizeThreshold s.bufferSize s.sendStore with
    | (bufferSize, store, false) => ({ s with sendStore := store, bufferSize := bufferSize }, .assertionError)
    | (bufferSize, store, true) =>
      ({ s with sendStore := insertKey tensorId tensor store, bufferSize := bufferSize + tensor.size },
        if s.bufferSizeThreshold = 0 then .zeroDivisionError else .returned true)

/-- The `GET` branch of `listen_for_requests`, with the tensor of the reply. -/
def get (tensorId : String) : SendBuffer × Option Tensor :=
  match s.sendStore.lookup tensorId with
  | none => (s, none)
  -- popped and set again, behind the others
  | some tensor => ({ s with sendStore := eraseKey tensorId s.sendStore ++ [(tensorId, tensor)] }, some tensor)

end SendBuffer

inductive SendEvent
  | send (tensorId : String) (tensor : Tensor) (remoteAddress : Option String)
  | get (tensorId : String)

def sendStep (s : SendBuffer) : SendEvent → Option SendBuffer
  | .send tensorId tensor remoteAddress => some (s.sendTensor tensorId tensor remoteAddress).1
  | .get tensorId => some (s.get tensorId).1

def SendBuffer.empty (threshold : Nat) : SendBuffer := ⟨[], 0, threshold⟩

end VllmHcu.Du
