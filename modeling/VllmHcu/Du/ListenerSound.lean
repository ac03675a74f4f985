import VllmHcu.Du.MemoryPool
import VllmHcu.Du.MemoryPoolSound

/-!
# Which messages the listener survives

`listener_handles_iff`: all messages of a run are stored and answered exactly when
each of them finds no device memory, or has its communicator and fits the buffer
or a free block of the pool.
-/

namespace VllmHcu.Du

open TensorMemoryPool

/-- The pool has a free block for a tensor of `size` bytes. -/
def PoolRoom (p : TensorMemoryPool) (size : Nat) : Prop :=
  0 < size ∧ roundToPowerOfTwo (max size p.minBlockSize) ≤ p.maxBlockSize ∧
    ∃ f, p.Has none .free f ∧ roundToPowerOfTwo (max size p.minBlockSize) ≤ f.size

theorem free_size_le {p : TensorMemoryPool} {height : Nat} (h : Partitioned p height none) {f : MemoryBlock}
    (hf : p.Has none .free f) : f.size ≤ p.maxBlockSize := by
  have hin := h.blocks.inside hf
  rw [h.top]
  push_cast at hin
  have : (f.size : Int) ≤ ((p.minBlockSize * 2 ^ height : Nat) : Int) := by
    push_cast
    omega
  exact_mod_cast this

theorem dictGet_allocated {p : TensorMemoryPool} {height : Nat} (h : Partitioned p height none) {b : MemoryBlock}
    (hb : b ∈ p.allocatedBlocks) : dictGet p.allocatedBlocks b.addr = some b := by
  cases hget : dictGet p.allocatedBlocks b.addr with
  | none => exact absurd rfl (dictGet_none hget hb)
  | some c =>
    obtain ⟨hc, haddr⟩ := dictGet_some hget
    have hused : p.Has none .used c := hc
    rw [(addr_inj h hused (show p.Has none .used b from hb) haddr).2]

/-- `store_tensor` fails exactly when there is no free block, whatever else is allocated. -/
theorem storeTensor_spec {p : TensorMemoryPool} {height : Nat} (h : Partitioned p height none) (tensor : Tensor) :
    ∃ p', Partitioned p' height none ∧
      ((PoolRoom p tensor.size ∧ ∃ addr, storeTensor p tensor = (p', .ok addr)) ∨
        (¬PoolRoom p tensor.size ∧ ∃ e, storeTensor p tensor = (p', .error e))) := by
  unfold storeTensor
  rcases allocate_spec h tensor.size with ⟨p', b, heq, hp', -, hused, hpos, hle, hbs, f, hf, hfs⟩ | ⟨heq, hpos, hmax, hnone⟩ |
    ⟨heq, -, hmax⟩ | ⟨heq, hneg⟩
  · refine ⟨p', hp', .inl ⟨⟨by omega, ?_, f, hf, ?_⟩, b.addr, ?_⟩⟩
    · have := free_size_le h hf
      rw [hbs, Int.toNat_natCast] at hfs
      omega
    · simpa [hbs] using hfs
    · rw [heq]
      dsimp only
      rw [dictGet_allocated hp' (by rw [hused]; exact List.mem_append_right _ List.mem_cons_self)]
      dsimp only
      rw [if_neg (by omega)]
  · refine ⟨p, h, .inr ⟨fun ⟨_, _, f, hf, hle⟩ => ?_, .pool .insufficientMemory, by rw [heq]⟩⟩
    have := hnone f hf
    simp at this
    omega
  · refine ⟨p, h, .inr ⟨fun ⟨_, hle, _⟩ => ?_, .pool .exceedsMaximum, by rw [heq]⟩⟩
    simp at hmax
    omega
  · exact ⟨p, h, .inr ⟨fun ⟨hpos, _⟩ => by omega, .pool .allocationSize, by rw [heq]⟩⟩

/-! ## One message -/

/-- The message is stored and answered once, and the loop goes on. -/
def Handled (s : Listener) (m : PutMessage) : Prop := ∃ s', listen s m = some s' ∧ s'.alive = true ∧
  (∃ r, s'.recvStore.lookup m.tensorId = some r) ∧ ∃ ret, s'.replies = s.replies ++ [(m.remoteAddress, ret)]

/-- A known communicator, and room in the buffer or in the pool. -/
def CanReceive (s : Listener) (m : PutMessage) : Prop :=
  m.commKey ∈ s.comms ∧ (s.bufferSize + m.tensor.size ≤ s.bufferSizeThreshold ∨ PoolRoom s.pool m.tensor.size)

def CanHandle (s : Listener) (m : PutMessage) : Prop := m.outOfMemory = true ∨ CanReceive s m

@[simp] theorem setSplit_fields (s : Listener) (m : PutMessage) : (s.setSplit m).alive = s.alive ∧
    (s.setSplit m).bufferSize = s.bufferSize ∧ (s.setSplit m).bufferSizeThreshold = s.bufferSizeThreshold ∧
    (s.setSplit m).pool = s.pool ∧ (s.setSplit m).comms = s.comms ∧ (s.setSplit m).replies = s.replies := by
  unfold Listener.setSplit
  split <;> exact ⟨rfl, rfl, rfl, rfl, rfl, rfl⟩

theorem store_lookup (s : Listener) (m : PutMessage) (r : Received) : (s.store m r).recvStore.lookup m.tensorId = some r :=
  lookup_insertKey_self _ _ _

theorem receive_spec {s : Listener} {height : Nat} (h : Partitioned s.pool height none) (halive : s.alive = true)
    (m : PutMessage) : Partitioned (s.receive m).pool height none ∧ (s.receive m).replies = s.replies ∧
      (CanReceive s m → (s.receive m).alive = true ∧ ∃ r, (s.receive m).recvStore.lookup m.tensorId = some r) ∧
      (¬CanReceive s m → (s.receive m).alive = false) := by
  unfold Listener.receive
  by_cases hcomm : m.commKey ∈ s.comms
  · rw [if_neg (not_not.mpr hcomm)]
    by_cases hfull : s.bufferSize + m.tensor.size > s.bufferSizeThreshold
    · rw [if_pos hfull]
      obtain ⟨pool, hpool, ⟨hroom, addr, hstore⟩ | ⟨hroom, e, hstore⟩⟩ := storeTensor_spec h m.tensor
      · rw [hstore]
        exact ⟨hpool, rfl, fun _ => ⟨halive, _, store_lookup _ _ _⟩, fun hno => absurd ⟨hcomm, .inr hroom⟩ hno⟩
      · rw [hstore]
        exact ⟨hpool, rfl, fun ⟨_, hin⟩ => (hin.elim (by omega) hroom).elim, fun _ => rfl⟩
    · rw [if_neg hfull]
      exact ⟨h, rfl, fun _ => ⟨halive, _, store_lookup _ _ _⟩, fun hno => absurd ⟨hcomm, .inl (by omega)⟩ hno⟩
  · rw [if_pos hcomm]
    exact ⟨h, rfl, fun ⟨hin, _⟩ => absurd hin hcomm, fun _ => rfl⟩

/-- The listener waits for a message, with a pool in order. -/
structure Listening (s : Listener) : Prop where
  alive : s.alive = true
  pool : ∃ height, Partitioned s.pool height none

theorem handlePut_spec {s : Listener} (h : Listening s) (m : PutMessage) :
    (∃ height, Partitioned (s.handlePut m).pool height none) ∧
      (∃ ret, (s.handlePut m).replies = s.replies ++ [(m.remoteAddress, ret)]) ∧
      (CanHandle s m → (s.handlePut m).alive = true ∧ ∃ r, (s.handlePut m).recvStore.lookup m.tensorId = some r) ∧
      (¬CanHandle s m → (s.handlePut m).alive = false) := by
  obtain ⟨height, hpool⟩ := h.pool
  obtain ⟨halive, hsize, hthreshold, hsplit, hcomms, hreplies⟩ := setSplit_fields s m
  unfold Listener.handlePut
  by_cases hoom : m.outOfMemory = true
  · rw [if_pos hoom]
    refine ⟨⟨height, ?_⟩, ⟨"1", congrArg (· ++ [(m.remoteAddress, "1")]) hreplies⟩,
      fun _ => ⟨halive.trans h.alive, _, store_lookup _ _ _⟩, fun hno => absurd (.inl hoom) hno⟩
    show Partitioned (s.setSplit m).pool height none
    rwa [hsplit]
  · rw [if_neg hoom]
    have hstart : Partitioned ((s.setSplit m).reply m "0").pool height none := by
      show Partitioned (s.setSplit m).pool height none
      rwa [hsplit]
    obtain ⟨hp, hr, hcan, hno⟩ := receive_spec hstart (halive.trans h.alive) m
    have hcond : CanHandle s m ↔ CanReceive ((s.setSplit m).reply m "0") m := by
      unfold CanHandle CanReceive Listener.reply
      dsimp only
      rw [hsize, hthreshold, hsplit, hcomms, or_iff_right hoom]
    rw [hcond]
    exact ⟨⟨height, hp⟩, ⟨"0", hr.trans (congrArg (· ++ [(m.remoteAddress, "0")]) hreplies)⟩, hcan, hno⟩

theorem handled_iff {s : Listener} (h : Listening s) (m : PutMessage) : Handled s m ↔ CanHandle s m := by
  obtain ⟨-, hreply, hcan, hno⟩ := handlePut_spec h m
  have hlisten : listen s m = some (s.handlePut m) := if_pos h.alive
  constructor
  · intro ⟨s', hs', halive, _⟩
    by_contra hn
    cases hlisten.symm.trans hs'
    rw [hno hn] at halive
    cases halive
  · intro hc
    exact ⟨_, hlisten, (hcan hc).1, (hcan hc).2, hreply⟩

/-! ## Runs -/

/-- Over every sequence of messages. -/
theorem listener_handles_iff {s : Listener} (h : Listening s) (ms : List PutMessage) :
    Along listen Handled s ms ↔ Along listen CanHandle s ms := by
  apply along_iff (I := Listening) (fun s m hs => handled_iff hs m) ?_ h
  intro s m s' hs hm hs'
  obtain ⟨s'', hs'', halive, _⟩ := hm
  cases hs''.symm.trans hs'
  have hlisten : listen s m = some (s.handlePut m) := if_pos hs.alive
  cases hlisten.symm.trans hs'
  exact ⟨halive, (handlePut_spec hs m).1⟩

/-- A message of four bytes from `d`. -/
def fourBytes (tensorId : String) : PutMessage := ⟨"d", .put, tensorId, bytesTensor 4, false⟩

/-- A pool of one block behind a buffer of so many bytes. -/
def smallListener (p : TensorMemoryPool) (threshold : Nat) : Listener := ⟨true, 0, threshold, p, ["d"], none, [], []⟩

theorem init_block : ∃ p, TensorMemoryPool.init 512 512 0 = .ok p ∧ (∃ height, Partitioned p height none) ∧ PoolRoom p 4 := by
  cases h : TensorMemoryPool.init 512 512 0 with
  | error e => cases h
  | ok p =>
    refine ⟨p, rfl, init_spec h ?_, ?_⟩
    · cases h
      decide
    · cases h
      exact ⟨by decide, by decide, ⟨512, 0⟩, ⟨_, rfl, List.mem_singleton.mpr rfl⟩, by decide⟩

/-- The first tensor fits the buffer, the second finds no device memory and the third goes to the pool. -/
theorem listener_handles_iff_small : ∃ p, TensorMemoryPool.init 512 512 0 = .ok p ∧
    Along listen Handled (smallListener p 4) [fourBytes "r#0", { fourBytes "r#1" with outOfMemory := true }, fourBytes "r#2"] := by
  obtain ⟨p, hp, hpool, hroom⟩ := init_block
  refine ⟨p, hp, (listener_handles_iff ⟨rfl, hpool⟩ _).mpr ?_⟩
  refine ⟨.inr ⟨List.mem_singleton.mpr rfl, .inl (show (0 + 4 : Int) ≤ 4 by decide)⟩, fun s hs => ?_⟩
  cases hs
  refine ⟨.inl rfl, fun s hs => ?_⟩
  cases hs
  exact ⟨.inr ⟨List.mem_singleton.mpr rfl, .inr hroom⟩, fun _ _ => trivial⟩

/-- The second tensor is acknowledged, but the pool is exhausted: nothing is stored, and no further message is read. -/
theorem second_put_ends_loop : ∃ p s, TensorMemoryPool.init 512 512 0 = .ok p ∧
    runFrom listen (smallListener p 0) [fourBytes "r#0", fourBytes "r#1"] = some s ∧ s.alive = false ∧
    s.recvStore.lookup "r#1" = none ∧ s.replies = [("d", "0"), ("d", "0")] ∧ listen s (fourBytes "r#2") = none := by
  refine ⟨_, _, rfl, rfl, ?_⟩
  exact ⟨rfl, rfl, rfl, rfl⟩

end VllmHcu.Du
