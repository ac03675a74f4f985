import VllmHcu.Lib.Stride

/-!
# Chunked expert-parallel calls in shared workspaces

`ep_fused_experts` splits a large batch into chunks. The buffers of a chunk are
carved from two workspaces, which may lie over the output; a buffer that does not
fit, or would lie over what has to be kept, is allocated afresh. Memory is a
function of the byte address.
-/

namespace VllmHcu.EpMoe

/-- A run of bytes. -/
structure Span where
  start : Nat
  len : Nat

namespace Span

def Apart (s t : Span) : Prop := s.start + s.len ≤ t.start ∨ t.start + t.len ≤ s.start

def Within (s t : Span) : Prop := t.start ≤ s.start ∧ s.start + s.len ≤ t.start + t.len

def read {B : Type} (s : Span) (mem : Nat → B) : Nat → B := fun i => mem (s.start + i)

def write {B : Type} (s : Span) (f : Nat → B) (mem : Nat → B) : Nat → B := fun i =>
  if s.start ≤ i ∧ i < s.start + s.len then f (i - s.start) else mem i

end Span

/-- `_carve` for contiguous tensors on one device. -/
def carve (ws : Option Span) (nbytes : Nat) (avoid : Option Span) (fresh : Nat) : Span :=
  match ws with
  | none => ⟨fresh, nbytes⟩
  | some w =>
    let aliasesOutput := match avoid with
      | none => false
      | some other => w.start < other.start + other.len && other.start < w.start + nbytes
    if w.len < nbytes || aliasesOutput then ⟨fresh, nbytes⟩ else ⟨w.start, nbytes⟩

inductive Buffer
  | gathered
  | cache1
  | actQ
  | cache3
  | out

/-- A call of `ep_fused_experts`. `rows` and `nvalid` are what `ep_sorting` gives for `n` tokens from token `s` on, and
`presort` is what the config chosen for them says. -/
structure ExpertsCall where
  m : Nat
  chunk : Nat
  -- the type of the hidden states, and the number of elements of `a1_scale`
  quantised : Bool
  a1Numel : Option Nat
  presort : Nat → Nat → Bool
  n : Nat
  k : Nat
  topk : Nat
  itemsize : Nat
  rows : Nat → Nat → Nat
  nvalid : Nat → Nat → Nat
  out : Option Span
  workspace13 : Option Span
  workspace2 : Option Span
  fresh : Nat → Buffer → Nat

/-- The buffers of one call of `_ep_fused_experts`, and how many rows its gather stores. -/
structure Carved where
  s : Nat
  tokens : Nat
  -- in the workspace that `actQ` reuses
  gathered : Option Span
  gatheredRows : Nat
  rows : Nat
  cache1 : Span
  actQ : Span
  cache3 : Span
  out : Span

/-- A kernel: what it reads, its buffer and the runs of it that it stores. -/
structure Kernel where
  reads : List Span
  buffer : Span
  stores : List Span

namespace ExpertsCall

variable (a : ExpertsCall)

/-- The bytes of an output row. -/
def rowBytes : Nat := a.k * a.itemsize

/-- `a_s.numel()` in a call with `numel` elements of scale. -/
def scaleNumel (tokens : Nat) (numel : Option Nat) : Except String Nat :=
  if a.quantised then
    match numel with
    | none => .error "AttributeError: 'NoneType' object has no attribute 'numel'"
    | some numel => .ok numel
  else .ok tokens

/-- The bytes that the gather's tiles of 32 rows store, scales before values. -/
def gatherStores (buffer : Span) (rows stored : Nat) : List Span :=
  [⟨buffer.start + rows * a.k, 4 * stored⟩, ⟨buffer.start, stored * a.k⟩]

/-- The buffers of a call of `_ep_fused_experts` on `tokens` tokens from token `s` on. -/
def carved (s tokens : Nat) (gathers : Bool) (out preserve : Option Span) : Carved :=
  let rows := a.rows s tokens
  let out := out.getD ⟨a.fresh s .out, tokens * a.rowBytes⟩
  { s := s
    tokens := tokens
    gathered := if gathers then some (carve a.workspace2 (rows * a.k + 4 * rows) none (a.fresh s .gathered)) else none
    gatheredRows := roundUp (a.nvalid s tokens) 32
    rows := rows
    cache1 := carve a.workspace13 (rows * a.n * a.itemsize) preserve (a.fresh s .cache1)
    actQ := carve a.workspace2 (rows * (a.n / 2)) none (a.fresh s .actQ)
    cache3 := carve a.workspace13 (tokens * a.topk * a.k * a.itemsize) (some (preserve.getD out)) (a.fresh s .cache3)
    out := out }

/-- `_ep_fused_experts` -/
def epFusedExpertsCall (s tokens : Nat) (numel : Option Nat) (out preserve : Option Span) : Except String Carved := do
  let numel ← a.scaleNumel tokens numel
  return a.carved s tokens (a.presort s tokens && numel == tokens) out preserve

/-- The tokens from `s` on of a chunk. -/
def chunkTokens (s : Nat) : Nat := min a.chunk (a.m - s)

/-- `out[s:s + CHUNK]` -/
def outSlice (s : Nat) : Option Span :=
  a.out.map fun out => ⟨out.start + s * a.rowBytes, a.chunkTokens s * a.rowBytes⟩

/-- `None if a1 is None or a1.numel() == 1 else a1[s:s + CHUNK]`, its number of elements -/
def chunkNumel (s : Nat) : Option Nat :=
  match a.a1Numel with
  | none => none
  | some numel => if numel = 1 then none else some (a.chunkTokens s)

/-- The calls of `_ep_fused_experts`. -/
def epFusedExperts : Except String (List Carved) :=
  if a.m ≤ a.chunk then do return [← a.epFusedExpertsCall 0 a.m a.a1Numel a.out none]
  else (strided 0 a.m a.chunk).mapM fun s => a.epFusedExpertsCall s (a.chunkTokens s) (a.chunkNumel s) (a.outSlice s) a.out

/-- The kernels of a call in their order. -/
def kernels (c : Carved) : List Kernel :=
  (match c.gathered with
    | none => []
    | some g => [⟨[], g, a.gatherStores g c.rows c.gatheredRows⟩]) ++
  [⟨c.gathered.toList, c.cache1, [c.cache1]⟩, ⟨[c.cache1], c.actQ, [c.actQ]⟩, ⟨[c.actQ], c.cache3, [c.cache3]⟩,
    ⟨[c.cache3], c.out, [c.out]⟩]

end ExpertsCall

/-- What the kernels compute, on the bytes of the buffers. -/
structure Stages (B : Type) where
  gathered : Nat → Nat → Nat → B
  gemm1 : Nat → Nat → Nat → B
  gemm1Sorted : Nat → Nat → (Nat → B) → Nat → B
  act : Nat → Nat → (Nat → B) → Nat → B
  gemm2 : Nat → Nat → (Nat → B) → Nat → B
  sum : Nat → Nat → (Nat → B) → Nat → B

section
variable {B : Type} (f : Stages B) (a : ExpertsCall)

/-- The memory after one call. -/
def runCall (mem : Nat → B) (c : Carved) : Nat → B :=
  let mem := match c.gathered with
    | none => c.cache1.write (f.gemm1 c.s c.tokens) mem
    | some g =>
      let mem := (a.gatherStores g c.rows c.gatheredRows).foldl
        (fun mem w => w.write (fun i => f.gathered c.s c.tokens (w.start - g.start + i)) mem) mem
      c.cache1.write (f.gemm1Sorted c.s c.tokens (g.read mem)) mem
  let mem := c.actQ.write (f.act c.s c.tokens (c.cache1.read mem)) mem
  let mem := c.cache3.write (f.gemm2 c.s c.tokens (c.actQ.read mem)) mem
  c.out.write (f.sum c.s c.tokens (c.cache3.read mem)) mem

/-- The byte of an output row after all calls; the outputs of separate chunks are concatenated. -/
def returned (cs : List Carved) (mem : Nat → B) (token byte : Nat) : Option B :=
  (cs.find? fun c => c.s ≤ token && token < c.s + c.tokens).map fun c =>
    c.out.read (cs.foldl (runCall f a) mem) ((token - c.s) * a.rowBytes + byte)

end

end VllmHcu.EpMoe
