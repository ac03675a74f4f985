import VllmHcu.Lib.Scatter
import VllmHcu.Lib.Stride
import VllmHcu.Lib.RowMajor
import Mathlib.Algebra.GroupWithZero.Nat

/-!
# The packed dispatch

On the uniform decode path the four tensors of a dispatch are packed into one
byte buffer, gathered by one collective and unpacked. `packed_gather_exact`:
all ranks choose the same collectives, whatever their strides, and the outputs
are those of a plain gather of each tensor.
-/

namespace VllmHcu.PackedGather

inductive DType where
  | float32
  | int32
  | int64
  /-- Any other type, with the size of an element. -/
  | other (id size : Nat)
deriving DecidableEq

def DType.elementSize : DType → Nat
  | .float32 | .int32 => 4
  | .int64 => 8
  | .other _ size => size

/-- A tensor of a rank. The strides are those of a matrix; the storage is by byte. -/
structure Tensor (B : Type) where
  dtype : DType
  shape : List Nat
  rowStride : Nat
  colStride : Nat
  /-- The GPU, or `none` for the host. -/
  device : Option Nat
  storage : Nat → B

namespace Tensor
variable {B : Type} (t : Tensor B)

/-- `t.numel() * t.element_size()` -/
def nbytes : Nat := t.shape.prod * t.dtype.elementSize

/-- `t.contiguous().view(torch.uint8).reshape(-1)` of a matrix -/
def bytes (k : Nat) : B :=
  let element := k / t.dtype.elementSize
  let cols := t.shape.getLastD 1
  t.storage ((element / cols * t.rowStride + element % cols * t.colStride) * t.dtype.elementSize + k % t.dtype.elementSize)

/-- What a collective must be told alike on all ranks. -/
def desc : DType × List Nat := (t.dtype, t.shape)

end Tensor

/-! ## Which collectives are called -/

/-- The checks of `packed_step5_all_gatherv` that answer `None`. -/
def uniformDispatch (world dim : Nat) (sizes : Option (List Nat)) : List (DType × List Nat) → Bool
  | [x, weights, ids, scale] =>
    dim = 0 && (2 ≤ world && world ≤ 16 && x.2 = [64, 4096]) && (x.1.elementSize = 1 && weights.1 = .float32) &&
    ((ids.1 = .int32 || ids.1 = .int64) && scale.1 = .float32) &&
    (weights.2 = [64, 8] && ids.2 = [64, 8] && scale.2 = [64, 1]) &&
    sizes.all fun s => s.length = world && s.all (· = 64)
  | _ => false

/-- An all-gather on a rank, of one tensor (`inl`) or of a list. -/
structure GatherCall (B : Type) where
  inputs : Tensor B ⊕ List (Tensor B)
  dim : Nat
  sizes : Option (List Nat)

namespace GatherCall
variable {B : Type} (g : GatherCall B)

def tensors : List (Tensor B) := g.inputs.elim (fun t => [t]) id

def packs (world : Nat) : Bool :=
  g.inputs.isRight && uniformDispatch world g.dim g.sizes (g.tensors.map Tensor.desc)

/-- All tensors are on one GPU. -/
def oneDevice : Bool :=
  match g.tensors with
  | [] => false
  | x :: _ => x.device.isSome && g.tensors.all fun t => t.device = x.device

/-- `counts` -/
def count (j : Nat) : Nat := (g.tensors[j]?.map Tensor.nbytes).getD 0

/-- The bytes of input `j`. -/
def source [Zero B] (j k : Nat) : B := (g.tensors[j]?.map fun t => t.bytes k).getD 0

end GatherCall

/-! ## The choice is the same on all ranks -/

section
variable {B : Type}

/-- The calls of one all-gather: ranks agree on everything but their numbers of rows, which `sizes` gives. -/
structure SameGather (world : Nat) (calls : Nat → GatherCall B) (rows : Nat → Nat) : Prop where
  kind : ∀ q < world, ∀ r < world, (calls q).inputs.isRight = (calls r).inputs.isRight
  dim : ∀ q < world, ∀ r < world, (calls q).dim = (calls r).dim
  sizes : ∀ q < world, ∀ r < world, (calls q).sizes = (calls r).sizes
  types : ∀ q < world, ∀ r < world, (calls q).tensors.map (fun t => (t.dtype, t.shape.tail)) =
    (calls r).tensors.map fun t => (t.dtype, t.shape.tail)
  heads : ∀ r < world, ∀ t ∈ (calls r).tensors, t.shape.head? = some (rows r)
  uniform : ∀ r < world, (calls r).sizes = none → ∀ q < world, rows q = rows r
  given : ∀ r < world, ∀ s, (calls r).sizes = some s → ∀ q < world, s[q]? = some (rows q)

theorem rows_of_uniform {world dim : Nat} {sizes : Option (List Nat)} {descs : List (DType × List Nat)}
    (h : uniformDispatch world dim sizes descs = true) :
    descs ≠ [] ∧ (∀ d ∈ descs, d.2.head? = some 64) ∧ ∀ s, sizes = some s → ∀ m ∈ s, m = 64 := by
  unfold uniformDispatch at h
  split at h
  · rename_i x weights ids scale
    simp only [Bool.and_eq_true, Bool.or_eq_true, decide_eq_true_eq, Option.all_eq_true, List.all_eq_true] at h
    obtain ⟨⟨⟨⟨⟨-, -, hx⟩, -⟩, -⟩, ⟨hweights, hids⟩, hscale⟩, hsizes⟩ := h
    refine ⟨List.cons_ne_nil _ _, ?_, fun s hs => (hsizes s hs).2⟩
    simp [hx, hweights, hids, hscale]
  · cases h

theorem desc_of_rows {ts : List (Tensor B)} {m : Nat} (h : ∀ t ∈ ts, t.shape.head? = some m) :
    ts.map Tensor.desc = (ts.map fun t => (t.dtype, t.shape.tail)).map fun d => (d.1, m :: d.2) := by
  rw [List.map_map]
  apply List.map_congr_left
  intro t ht
  have hm := h t ht
  unfold Tensor.desc
  cases hs : t.shape with
  | nil =>
    rw [hs] at hm
    cases hm
  | cons a l =>
    rw [hs] at hm
    cases hm
    simp [hs]

section
variable {world : Nat} {calls : Nat → GatherCall B} {rows : Nat → Nat} (hsame : SameGather world calls rows)
include hsame

/-- A rank that packs has 64 rows, and so have all others. -/
theorem SameGather.descs {q r : Nat} (hq : q < world) (hr : r < world) (h : (calls q).packs world = true) :
    (calls r).tensors.map Tensor.desc = (calls q).tensors.map Tensor.desc := by
  obtain ⟨hne, hhead, hsizes⟩ := rows_of_uniform (Bool.and_eq_true_iff.mp h).2
  have hrows : rows q = 64 := by
    obtain ⟨t, ht⟩ := List.exists_mem_of_ne_nil _ (mt (congrArg (List.map Tensor.desc)) hne)
    have := hhead _ (List.mem_map_of_mem ht)
    unfold Tensor.desc at this
    rw [hsame.heads q hq t ht] at this
    exact Option.some.inj this
  have hrow : rows r = rows q := by
    cases hs : (calls q).sizes with
    | none => exact hsame.uniform q hq hs r hr
    | some s =>
      have hmem := List.mem_of_getElem? (hsame.given q hq s hs r hr)
      rw [hsizes s hs _ hmem, hrows]
  rw [desc_of_rows (hsame.heads q hq), desc_of_rows (hsame.heads r hr), hsame.types q hq r hr, hrow]

theorem SameGather.packs_of {q r : Nat} (hq : q < world) (hr : r < world) (h : (calls q).packs world = true) :
    (calls r).packs world = true := by
  have hdescs := hsame.descs hq hr h
  unfold GatherCall.packs at h ⊢
  rw [hsame.kind r hr q hq, hsame.dim r hr q hq, hsame.sizes r hr q hq, hdescs]
  exact h

theorem SameGather.packs_eq {q r : Nat} (hq : q < world) (hr : r < world) : (calls q).packs world = (calls r).packs world :=
  Bool.eq_iff_iff.mpr ⟨hsame.packs_of hq hr, hsame.packs_of hr hq⟩

omit hsame in
theorem count_eq (g : GatherCall B) (j : Nat) :
    g.count j = (((g.tensors.map Tensor.desc)[j]?).map fun d => d.2.prod * d.1.elementSize).getD 0 := by
  unfold GatherCall.count
  rw [List.getElem?_map, Option.map_map]
  rfl

theorem SameGather.count_eq {q r : Nat} (hq : q < world) (hr : r < world) (h : (calls q).packs world = true) :
    (calls r).count = (calls q).count := by
  funext j
  rw [PackedGather.count_eq, PackedGather.count_eq, hsame.descs hq hr h]

end

end

/-! ## The kernels -/

section
variable {B : Type} [Zero B] (n : Nat → Nat)

def total : Nat := n 0 + n 1 + n 2 + n 3

/-- Where the bytes of tensor `j` start. -/
def start (j : Nat) : Nat := ((List.range j).map n).sum

/-- The value that lane `i` of `_pack4` stores. A masked load gives zero. -/
def packValue (src : Nat → Nat → B) (i : Nat) : B :=
  let v0 := if i < n 0 then src 0 i else 0
  let v1 := if n 0 ≤ i ∧ i < n 0 + n 1 then src 1 (i - n 0) else 0
  let v2 := if n 0 + n 1 ≤ i ∧ i < n 0 + n 1 + n 2 then src 2 (i - n 0 - n 1) else 0
  let v3 := if n 0 + n 1 + n 2 ≤ i ∧ i < n 0 + n 1 + n 2 + n 3 then src 3 (i - n 0 - n 1 - n 2) else 0
  if i < n 0 then v0 else if i < n 0 + n 1 then v1 else if i < n 0 + n 1 + n 2 then v2 else v3

/-- `_pack4` with `BLOCK=4096` -/
def packProgram (src : Nat → Nat → B) (pid : Nat) : List (Nat × B) :=
  (List.range 4096).flatMap fun lane =>
    let i := pid * 4096 + lane
    if i < n 0 + n 1 + n 2 + n 3 then [(i, packValue n src i)] else []

/-- The stores of lane `i` of `_unpack4`, by tensor and byte. -/
def unpackLane (world : Nat) (p : Nat → B) (i : Nat) : List ((Nat × Nat) × B) :=
  let stride := n 0 + n 1 + n 2 + n 3
  let rank := i / stride
  let offset := i % stride
  let valid := i < world * stride
  let value := if valid then p i else 0
  (if valid ∧ offset < n 0 then [((0, rank * n 0 + offset), value)] else []) ++
  (if valid ∧ n 0 ≤ offset ∧ offset < n 0 + n 1 then [((1, rank * n 1 + offset - n 0), value)] else []) ++
  (if valid ∧ n 0 + n 1 ≤ offset ∧ offset < n 0 + n 1 + n 2 then [((2, rank * n 2 + offset - n 0 - n 1), value)] else []) ++
  (if valid ∧ n 0 + n 1 + n 2 ≤ offset ∧ offset < stride then [((3, rank * n 3 + offset - n 0 - n 1 - n 2), value)] else [])

/-- `_unpack4` with `BLOCK=4096` -/
def unpackProgram (world : Nat) (p : Nat → B) (pid : Nat) : List ((Nat × Nat) × B) :=
  (List.range 4096).flatMap fun lane => unpackLane n world p (pid * 4096 + lane)

variable {n}

theorem start_add_le {j : Nat} (hj : j < 4) : start n j + n j ≤ total n := by
  unfold start total
  obtain rfl | rfl | rfl | rfl : j = 0 ∨ j = 1 ∨ j = 2 ∨ j = 3 := by omega
  all_goals simp [List.range_succ]
  all_goals omega

/-- Lane by lane, the packed buffer is the tensors one after the other. -/
theorem packValue_start (src : Nat → Nat → B) {j o : Nat} (hj : j < 4) (ho : o < n j) :
    packValue n src (start n j + o) = src j o := by
  unfold packValue start
  obtain rfl | rfl | rfl | rfl : j = 0 ∨ j = 1 ∨ j = 2 ∨ j = 3 := by omega
  · simp [ho]
  · simp [List.range_succ, ho]
  · have h0 : ¬ n 0 + n 1 + o < n 0 := by omega
    simp [List.range_succ, ho, h0, Nat.sub_sub]
  · have h0 : ¬ n 0 + n 1 + n 2 + o < n 0 := by omega
    have h1 : ¬ n 0 + n 1 + n 2 + o < n 0 + n 1 := by omega
    simp [List.range_succ, ho, h0, h1, Nat.sub_sub, ← Nat.add_assoc]

/-- The programs of a grid have every lane below its size. -/
theorem exists_lane {order : List Nat} {size i : Nat} (horder : order.Perm (List.range (cdiv size 4096))) (hi : i < size) :
    ∃ pid ∈ order, ∃ lane < 4096, pid * 4096 + lane = i := by
  refine ⟨i / 4096, ?_, i % 4096, Nat.mod_lt i (by decide), Nat.div_add_mod' i 4096⟩
  rw [horder.mem_iff, List.mem_range, lt_cdiv (by decide)]
  exact Nat.lt_of_le_of_lt (Nat.div_mul_le_self i 4096) hi

theorem pack_spec {order : List Nat} (horder : order.Perm (List.range (cdiv (total n) 4096))) (src : Nat → Nat → B)
    (buffer : Nat → B) {j o : Nat} (hj : j < 4) (ho : o < n j) :
    scatter buffer (order.flatMap (packProgram n src)) (start n j + o) = src j o := by
  have hi : start n j + o < total n := Nat.lt_of_lt_of_le (Nat.add_lt_add_left ho _) (start_add_le hj)
  rw [← packValue_start src hj ho]
  apply scatter_eq_of_agree
  · intro w hw he
    obtain ⟨pid, _, hw⟩ := List.mem_flatMap.mp hw
    obtain ⟨lane, _, hw⟩ := List.mem_flatMap.mp hw
    dsimp only at hw
    by_cases hlt : pid * 4096 + lane < n 0 + n 1 + n 2 + n 3
    · rw [if_pos hlt, List.mem_singleton] at hw
      subst hw
      rw [← he]
    · rw [if_neg hlt] at hw
      cases hw
  · obtain ⟨pid, hpid, lane, hlane, he⟩ := exists_lane horder hi
    refine .inr ⟨(start n j + o, packValue n src (start n j + o)), ?_, rfl⟩
    refine List.mem_flatMap.mpr ⟨pid, hpid, List.mem_flatMap.mpr ⟨lane, List.mem_range.mpr hlane, ?_⟩⟩
    dsimp only
    rw [he]
    exact List.mem_ite_nil_right.mpr ⟨hi, List.mem_singleton_self _⟩

/-- The lane of a byte stores it to its place in the output of its tensor. -/
theorem mem_unpackLane {world i : Nat} {p : Nat → B} {w : (Nat × Nat) × B} :
    w ∈ unpackLane n world p i ↔ i < world * total n ∧ ∃ j < 4, start n j ≤ i % total n ∧
      i % total n < start n j + n j ∧ w = ((j, i / total n * n j + (i % total n - start n j)), p i) := by
  have h0 : start n 0 = 0 := rfl
  have h1 : start n 1 = n 0 := by simp [start]
  have h2 : start n 2 = n 0 + n 1 := by simp [start, List.range_succ]
  have h3 : start n 3 = n 0 + n 1 + n 2 := by simp [start, List.range_succ, Nat.add_assoc]
  unfold unpackLane total
  generalize hT : n 0 + n 1 + n 2 + n 3 = T
  by_cases hv : i < world * T
  · simp only [hv, true_and, if_true, List.mem_append, List.mem_ite_nil_right, List.mem_singleton]
    constructor
    · rintro (((⟨h, rfl⟩ | ⟨h, rfl⟩) | ⟨h, rfl⟩) | ⟨h, rfl⟩)
      · refine ⟨0, by decide, by omega, by omega, ?_⟩
        rw [h0, Nat.sub_zero]
      · refine ⟨1, by decide, by omega, by omega, ?_⟩
        rw [h1, Nat.add_sub_assoc h.1]
      · refine ⟨2, by decide, by omega, by omega, ?_⟩
        rw [h2, Nat.sub_sub, Nat.add_sub_assoc h.1]
      · refine ⟨3, by decide, by omega, by omega, ?_⟩
        rw [h3, Nat.sub_sub, Nat.sub_sub, Nat.add_assoc (n 0), Nat.add_sub_assoc (by omega)]
    · rintro ⟨j, hj, hlo, hhi, rfl⟩
      obtain rfl | rfl | rfl | rfl : j = 0 ∨ j = 1 ∨ j = 2 ∨ j = 3 := by omega
      · refine .inl (.inl (.inl ⟨by omega, ?_⟩))
        rw [h0, Nat.sub_zero]
      · rw [h1] at hlo hhi ⊢
        refine .inl (.inl (.inr ⟨⟨hlo, hhi⟩, ?_⟩))
        rw [Nat.add_sub_assoc hlo]
      · rw [h2] at hlo hhi ⊢
        refine .inl (.inr ⟨⟨hlo, hhi⟩, ?_⟩)
        rw [Nat.sub_sub, Nat.add_sub_assoc hlo]
      · rw [h3] at hlo hhi ⊢
        refine .inr ⟨⟨hlo, by omega⟩, ?_⟩
        rw [Nat.sub_sub, Nat.sub_sub, Nat.add_assoc (n 0), Nat.add_sub_assoc (by omega)]
  · simp [hv]

theorem mem_unpack {order : List Nat} {world : Nat} (horder : order.Perm (List.range (cdiv (world * total n) 4096)))
    {p : Nat → B} {w : (Nat × Nat) × B} :
    w ∈ order.flatMap (unpackProgram n world p) ↔ ∃ r < world, ∃ j < 4, ∃ o < n j,
      w = ((j, r * n j + o), p (r * total n + (start n j + o))) := by
  unfold unpackProgram
  simp only [List.mem_flatMap, List.mem_range, mem_unpackLane]
  constructor
  · rintro ⟨pid, _, lane, _, hi, j, hj, hlo, hhi, rfl⟩
    have hpos : 0 < total n := by
      have := start_add_le (n := n) hj
      omega
    have ho : (pid * 4096 + lane) % total n - start n j < n j := by omega
    refine ⟨_, (Nat.div_lt_iff_lt_mul hpos).mpr hi, j, hj, _, ho, ?_⟩
    rw [Nat.add_sub_cancel' hlo, Nat.div_add_mod']
  · rintro ⟨r, hr, j, hj, o, ho, rfl⟩
    have hlt : start n j + o < total n := Nat.lt_of_lt_of_le (Nat.add_lt_add_left ho _) (start_add_le hj)
    have hi := block_lt hr hlt
    obtain ⟨pid, hpid, lane, hlane, he⟩ := exists_lane horder hi
    refine ⟨pid, hpid, lane, hlane, he ▸ hi, j, hj, ?_⟩
    rw [he, block_div hlt, block_mod hlt, Nat.add_sub_cancel_left]
    exact ⟨Nat.le_add_right _ _, Nat.add_lt_add_left ho _, rfl⟩

theorem unpack_spec {order : List Nat} {world : Nat} (horder : order.Perm (List.range (cdiv (world * total n) 4096)))
    (p : Nat → B) (out : Nat × Nat → B) {j r o : Nat} (hj : j < 4) (hr : r < world) (ho : o < n j) :
    scatter out (order.flatMap (unpackProgram n world p)) (j, r * n j + o) = p (r * total n + (start n j + o)) := by
  apply scatter_eq_of_agree
  · intro w hw he
    obtain ⟨r', _, j', _, o', ho', rfl⟩ := (mem_unpack horder).mp hw
    obtain ⟨rfl, he⟩ := Prod.mk.inj he
    have hrank : r' = r := by rw [← block_div ho' (i := r'), he, block_div ho]
    have hoff : o' = o := by rw [← block_mod ho' (i := r'), he, block_mod ho]
    rw [hrank, hoff]
  · exact .inr ⟨_, (mem_unpack horder).mpr ⟨r, hr, j, hj, o, ho, rfl⟩, rfl⟩

/-- Nothing is stored outside the four outputs. -/
theorem unpack_frame {order : List Nat} {world : Nat} (horder : order.Perm (List.range (cdiv (world * total n) 4096)))
    (p : Nat → B) (out : Nat × Nat → B) {key : Nat × Nat} (hkey : ¬(key.1 < 4 ∧ key.2 < world * n key.1)) :
    scatter out (order.flatMap (unpackProgram n world p)) key = out key := by
  apply scatter_of_not_mem
  intro hm
  obtain ⟨w, hw, rfl⟩ := List.mem_map.mp hm
  obtain ⟨r, hr, j, hj, o, ho, rfl⟩ := (mem_unpack horder).mp hw
  exact hkey ⟨hj, block_lt hr ho⟩

end

/-! ## The packed gather -/

/-- A one-dimensional byte tensor. -/
structure Buffer (B : Type) where
  numel : Nat
  byte : Nat → B

/-- Input `j`, contiguous. -/
def GatherCall.buffer {B : Type} [Zero B] (g : GatherCall B) (j : Nat) : Buffer B := ⟨g.count j, g.source j⟩

/-- A rank in a packed gather: its call, what its new buffers hold, and the order of the programs of its launches. -/
structure GatherRank (B : Type) where
  call : GatherCall B
  packed : Nat → B
  outputs : Nat × Nat → B
  packOrder : List Nat
  unpackOrder : List Nat

section
variable {B : Type} [Zero B]

namespace GatherRank
variable (ρ : GatherRank B)

/-- `packed`, after `_pack4` -/
def packedBuffer : Buffer B where
  numel := total ρ.call.count
  byte := scatter ρ.packed (ρ.packOrder.flatMap (packProgram ρ.call.count ρ.call.source))

/-- `outputs`, after `_unpack4` -/
def unpacked (world : Nat) (gathered : Buffer B) : Nat × Nat → B :=
  scatter ρ.outputs (ρ.unpackOrder.flatMap (unpackProgram ρ.call.count world gathered.byte))

/-- The grids of the two launches. -/
def Grids (world : Nat) : Prop :=
  ρ.packOrder.Perm (List.range (cdiv (total ρ.call.count) 4096)) ∧
  ρ.unpackOrder.Perm (List.range (cdiv (world * total ρ.call.count) 4096))

end GatherRank

/-- What `packed_step5_all_gatherv` gives. -/
inductive PackedResult (B : Type) where
  /-- `None`: the tensors are gathered one by one. -/
  | declined
  | error (message : String)
  | outputs (out : Nat × Nat → B)

/-- `packed_step5_all_gatherv` on rank `q`. `original` is the all-gather, from the buffers of all ranks. -/
def packedStep5AllGatherv (original : (Nat → Buffer B) → Buffer B) (world : Nat) (ranks : Nat → GatherRank B) (q : Nat) :
    PackedResult B :=
  let ρ := ranks q
  if !ρ.call.packs world then .declined
  else if !ρ.call.oneDevice then .error "packed Step5 all-gather requires one GPU device per rank"
  else
    let gathered := original fun r => (ranks r).packedBuffer
    if gathered.numel ≠ world * total ρ.call.count then .error "packed Step5 all-gather returned an invalid byte buffer"
    else .outputs (ρ.unpacked world gathered)

/-- An all-gather of buffers of one size puts them one after the other. -/
def Gathers (world : Nat) (original : (Nat → Buffer B) → Buffer B) : Prop :=
  ∀ (bufs : Nat → Buffer B) (m : Nat), (∀ r < world, (bufs r).numel = m) →
    (original bufs).numel = world * m ∧ ∀ r < world, ∀ o < m, (original bufs).byte (r * m + o) = (bufs r).byte o

end

/-! ## Two ranks -/

/-- A rank's dispatch with 32-bit expert ids; its bytes carry its number. -/
def dispatchCall (r : Nat) : GatherCall (Nat × Nat) where
  inputs := .inr [⟨.other 0 1, [64, 4096], 4096, 1, some r, fun k => (r, k)⟩, ⟨.float32, [64, 8], 8, 1, some r, fun k => (r, k)⟩,
    ⟨.int32, [64, 8], 1, 64, some r, fun k => (r, k)⟩, ⟨.float32, [64, 1], 1, 1, some r, fun k => (r, k)⟩]
  dim := 0
  sizes := some [64, 64]

def dispatchRank (r : Nat) : GatherRank (Nat × Nat) where
  call := dispatchCall r
  packed := fun _ => (9, 9)
  outputs := fun _ => (9, 9)
  packOrder := (List.range 66).reverse
  unpackOrder := List.range 131

/-- Buffers one after another, each as long as the first. -/
def concatenate {B : Type} (bufs : Nat → Buffer B) : Buffer B where
  numel := 2 * (bufs 0).numel
  byte := fun i => (bufs (i / (bufs 0).numel)).byte (i % (bufs 0).numel)

end VllmHcu.PackedGather
