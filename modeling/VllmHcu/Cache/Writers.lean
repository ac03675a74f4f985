import VllmHcu.Cache.Fp8
import VllmHcu.Lib.Scatter
import VllmHcu.Lib.Stride

/-!
# The cache writers

`reshape_and_cache_hcu`, `reshape_and_cache_flash_hcu` and
`concat_and_cache_mla_hcu` quantise the rows of the tokens into the slots of a
paged cache. Values are bit patterns; a cell of a cache is its bits as a number.
Float arithmetic is that of IEEE single precision on finite operands.
-/

namespace VllmHcu.Cache

open MiniFloat

/-! ## Arithmetic -/

/-- A quotient to the nearest integer, a tie to the even one. -/
def roundQuotient (n d : Nat) : Nat :=
  if 2 * (n % d) < d ∨ 2 * (n % d) = d ∧ n / d % 2 = 0 then n / d else n / d + 1

/-- `a / b` for a positive `b`. -/
def fdiv (a b : BitVec 32) : BitVec 32 :=
  -- both in units of the least subnormal, and so the quotient
  let n := sig 23 (magnitude a) * 2 ^ 149
  let d := sig 23 (magnitude b)
  let e := Nat.log2 (n / d) - 23
  (a &&& 0x80000000#32) ||| BitVec.ofNat 32 (min (ofSig 23 (roundQuotient n (d * 2 ^ e) * 2 ^ e)) fp32Inf)

def fabsf (a : BitVec 32) : Nat := magnitude a

def floatOfNat (n : Nat) : BitVec 32 := BitVec.ofNat 32 (ofSig 23 (n * 2 ^ 149))

/-- `static_cast<int8_t>`, of a float in its range. -/
def int8OfFloat (a : BitVec 32) : BitVec 8 :=
  let units := sig 23 (magnitude a) / 2 ^ 149
  if a.msb then -BitVec.ofNat 8 units else BitVec.ofNat 8 units

/-! ## Dtypes -/

/-- The types of the tensors that are cached. -/
inductive ScalarType
  | float
  | half
  | bfloat16

inductive KvCacheDtype
  | auto
  | int8
  | fp8
  | fp8E4m3
  | fp8DsMla
  | fp8E5m2

inductive Fp8KVCacheDataType
  | kAuto
  | kInt8
  | kFp8E4M3
  | kFp8E5M2
deriving DecidableEq

abbrev ScalarType.bits : ScalarType → Nat
  | .float => 32
  | .half => 16
  | .bfloat16 => 16

/-- `DISPATCH_BY_KV_CACHE_DTYPE`: the pairs that are accepted, and the specialisation they get. -/
def dispatch : ScalarType → KvCacheDtype → Option Fp8KVCacheDataType
  | _, .auto => some .kAuto
  | .half, .int8 | .bfloat16, .int8 => some .kInt8
  | .half, .fp8 | .half, .fp8E4m3 | .half, .fp8DsMla => some .kFp8E4M3
  | .bfloat16, .fp8 | .bfloat16, .fp8E4m3 | .bfloat16, .fp8DsMla => some .kFp8E4M3
  | .half, .fp8E5m2 | .bfloat16, .fp8E5m2 => some .kFp8E5M2
  | .float, _ => none

/-- The numeric value, as a float. -/
def numeric : (d : ScalarType) → BitVec d.bits → BitVec 32
  | .float, x => x
  | .half, x => floatOfHalf x
  | .bfloat16, x => x.setWidth 32 <<< 16

/-- `static_cast<float>` of the type that the kernels are instantiated at, which is `uint16_t` for half. -/
def castFloat : (d : ScalarType) → BitVec d.bits → BitVec 32
  | .float, x => x
  | .half, x => floatOfNat x.toNat
  | .bfloat16, x => numeric .bfloat16 x

/-! ## Conversions -/

def floatToFp8 (kvType : Fp8KVCacheDataType) (f : BitVec 32) : BitVec 8 :=
  if kvType = .kFp8E4M3 then floatToFp8E4m3 f else floatToFp8E5m2 f

/-- `fp8::scaled_vec_conversion` from one element. -/
def scaledVecConversion (d : ScalarType) (a : BitVec d.bits) (scale : BitVec 32) (kvType : Fp8KVCacheDataType) : BitVec 8 :=
  match d, a with
  | .half, a => floatToFp8 kvType (fdiv (floatOfHalf a) scale)
  | .bfloat16, a => floatToFp8 kvType (fdiv (castFloat .bfloat16 a) scale)
  | .float, a => floatToFp8 kvType (fdiv a scale)

/-- `fp8::scaled_convert`, without its assertion. -/
def scaledConvert (kvDt : Fp8KVCacheDataType) (d : ScalarType) (val : BitVec d.bits) (scale : BitVec 32) : BitVec 8 :=
  match kvDt with
  | .kFp8E4M3 | .kFp8E5M2 => scaledVecConversion d val scale kvDt
  | .kAuto | .kInt8 => 0

/-- The clamping and truncating part of `int8::scaled_vec_conversion_int8`. -/
def clampInt8 (scaledVal : BitVec 32) : BitVec 8 :=
  let scaledVal := if !scaledVal.msb && magnitude scaledVal > 0x42FE0000 then 0x42FE0000#32 else scaledVal
  let scaledVal := if scaledVal.msb && magnitude scaledVal > 0x43000000 then 0xC3000000#32 else scaledVal
  int8OfFloat scaledVal

def scaledVecConversionInt8 (d : ScalarType) (val : BitVec d.bits) (scale : BitVec 32) : BitVec 8 :=
  clampInt8 (fdiv (castFloat d val) scale)

/-- What the two reshaping kernels store. -/
def reshapeConvert (kvDt : Fp8KVCacheDataType) (d : ScalarType) (val : BitVec d.bits) (scale : BitVec 32) : Nat :=
  match kvDt with
  | .kAuto => val.toNat
  | .kInt8 => (scaledVecConversionInt8 d val scale).toNat
  | .kFp8E4M3 | .kFp8E5M2 => (scaledConvert kvDt d val scale).toNat

/-- What `concat_and_cache_mla_kernel` stores. -/
def mlaConvert (kvDt : Fp8KVCacheDataType) (d : ScalarType) (val : BitVec d.bits) (scale : BitVec 32) : Nat :=
  if kvDt = .kAuto then val.toNat else (scaledConvert kvDt d val scale).toNat

/-- The quantiser of a cache type, applied to the numeric value of an element over its scale. -/
def quantise (kvDt : Fp8KVCacheDataType) (d : ScalarType) (val : BitVec d.bits) (scale : BitVec 32) : Nat :=
  match kvDt with
  | .kAuto => val.toNat
  | .kInt8 => (clampInt8 (fdiv (numeric d val) scale)).toNat
  | .kFp8E4M3 => (floatToFp8E4m3 (fdiv (numeric d val) scale)).toNat
  | .kFp8E5M2 => (floatToFp8E5m2 (fdiv (numeric d val) scale)).toNat

/-! ## Launches -/

/-- One block for each token; its threads store the cells of the token's slot. -/
structure Writer (D : Type) where
  tokens : Nat
  slotMapping : Nat → Int
  -- the cells of a slot, and the one each store of a block is to
  cells : Nat
  Store : Type
  stores : List Store
  cell : Store → Nat
  -- where the kernel stores the cells of a slot, and where they are
  dst : Nat → Nat → Int
  address : Nat → Nat → Int
  value : D → Nat → Store → Nat

namespace Writer

variable {D : Type} (w : Writer D)

/-- The stores of all blocks. -/
def visits : List (Nat × w.Store) :=
  ((List.range w.tokens).filter fun t => !decide (w.slotMapping t < 0)).product w.stores

def slot (t : Nat) : Nat := (w.slotMapping t).toNat

def launch (data : D) : List (Int × Nat) := w.visits.map fun p => (w.dst (w.slot p.1) (w.cell p.2), w.value data p.1 p.2)

/-- Non-negative slots are distinct. -/
def Distinct : Prop :=
  ∀ t < w.tokens, ∀ t' < w.tokens, 0 ≤ w.slotMapping t → w.slotMapping t = w.slotMapping t' → t = t'

/-- Whatever the order of the stores, every cell of a token's slot holds `want`, is stored once, and nothing else changes. -/
def Fills (Valid : D → Prop) (want : D → Nat → Nat → Nat) : Prop :=
  ∀ data, Valid data → ∀ before : Int → Nat, ∀ ws : List (Int × Nat), ws.Perm (w.launch data) →
    (∀ t < w.tokens, 0 ≤ w.slotMapping t → ∀ i < w.cells, scatter before ws (w.address (w.slot t) i) = want data t i) ∧
    (ws.map Prod.fst).Nodup ∧
    (∀ p, (∀ t < w.tokens, 0 ≤ w.slotMapping t → ∀ i < w.cells, p ≠ w.address (w.slot t) i) → scatter before ws p = before p)

/-- Cells of different tokens, and different cells of one, have different addresses. -/
def Apart : Prop :=
  ∀ t < w.tokens, ∀ t' < w.tokens, 0 ≤ w.slotMapping t → 0 ≤ w.slotMapping t' → ∀ i < w.cells, ∀ i' < w.cells,
    w.address (w.slot t) i = w.address (w.slot t') i' → t = t' ∧ i = i'

end Writer

/-- A source tensor with its scales. -/
structure Source (d : ScalarType) where
  mem : Int → BitVec d.bits
  scale : Nat → BitVec 32

/-- Elements are finite and scales positive. -/
def Source.Valid {d : ScalarType} (x : Source d) : Prop :=
  (∀ p, magnitude (numeric d (x.mem p)) < fp32Inf) ∧ ∀ k, 0 < (x.scale k).toNat ∧ (x.scale k).toNat < fp32Inf

/-- `int n = x` for a 64-bit `x`. -/
def cInt (x : Nat) : Int := (BitVec.ofNat 32 x).toInt

/-- `for (int i = threadIdx.x; i < n; i += blockDim.x)`, all threads. -/
def threadLoops (n blockDim : Nat) : List Nat := (List.range blockDim).flatMap fun thread => strided thread n blockDim

/-- Tokens, their slots, and the shape and strides of `key`, or of `value`. -/
structure ReshapeCall where
  tokens : Nat
  slotMapping : Nat → Int
  numHeads : Nat
  headSize : Nat
  blockSize : Nat
  stride0 : Nat
  stride1 : Nat
  stride2 : Nat

namespace ReshapeCall

variable (c : ReshapeCall) {d : ScalarType}

/-- The address of an element of the source tensor. -/
def element (t i : Nat) : Int := t * c.stride0 + (i / c.headSize * c.stride1 + i % c.headSize * c.stride2 : Nat)

/-- In a contiguous key cache, `[num_blocks, num_heads, block_size, head_size]`. -/
def keyAddress (slot i : Nat) : Int :=
  (slot / c.blockSize * c.numHeads * c.blockSize * c.headSize + i / c.headSize * c.blockSize * c.headSize +
    slot % c.blockSize * c.headSize + i % c.headSize : Nat)

/-- In a contiguous value cache, `[num_blocks, num_heads, head_size, block_size]`. -/
def valueAddress (slot i : Nat) : Int :=
  (slot / c.blockSize * c.numHeads * c.headSize * c.blockSize + i / c.headSize * c.headSize * c.blockSize +
    i % c.headSize * c.blockSize + slot % c.blockSize : Nat)

/-- `reshape_and_cache_kernel_hcu` on the key cache. -/
def keyWriter (kvDt : Fp8KVCacheDataType) : Writer (Source d) where
  tokens := c.tokens
  slotMapping := c.slotMapping
  cells := c.numHeads * c.headSize
  Store := Nat
  stores := threadLoops (c.numHeads * c.headSize) (min (c.numHeads * c.headSize) 512)
  cell i := i
  dst := c.keyAddress
  address := c.keyAddress
  value x t i := reshapeConvert kvDt d (x.mem (t * cInt c.stride0 + i)) (x.scale 0)

/-- `reshape_and_cache_kernel_hcu` on the value cache. -/
def valueWriter (kvDt : Fp8KVCacheDataType) : Writer (Source d) :=
  { c.keyWriter kvDt with dst := c.valueAddress, address := c.valueAddress }

end ReshapeCall

/-- Tokens, their slots, the stride of `key` or `value`, and the strides of the caches. -/
structure FlashCall where
  tokens : Nat
  slotMapping : Nat → Int
  numHeads : Nat
  headSize : Nat
  blockSize : Nat
  stride0 : Nat
  blockStride : Nat
  pageStride : Nat
  headStride : Nat
  -- `numel` of the scales is one, or `num_heads`
  scalePerHead : Bool

namespace FlashCall

variable (c : FlashCall) {d : ScalarType}

/-- The heads of a token are contiguous, by a check. -/
def element (t i : Nat) : Int := (t * c.stride0 + i : Nat)

def scaleIndex (i : Nat) : Nat := i / c.headSize * (if c.scalePerHead then 1 else 0)

/-- In a cache with the strides of the call; its last stride is one, by a check. -/
def address (slot i : Nat) : Int :=
  (slot / c.blockSize * c.blockStride + slot % c.blockSize * c.pageStride + i / c.headSize * c.headStride + i % c.headSize : Nat)

/-- `reshape_and_cache_flash_kernel_hcu` on one cache. -/
def writer (kvDt : Fp8KVCacheDataType) : Writer (Source d) where
  tokens := c.tokens
  slotMapping := c.slotMapping
  cells := c.numHeads * c.headSize
  Store := Nat
  stores := threadLoops (c.numHeads * c.headSize) (min (c.numHeads * c.headSize) 256)
  cell i := i
  dst := c.address
  address := c.address
  value x t i := reshapeConvert kvDt d (x.mem ((t * c.stride0 + i : Nat) : Int)) (x.scale (c.scaleIndex i))

end FlashCall

/-- Tokens, their slots, and the shapes and strides of `kv_c`, `k_pe` and `kv_cache`. -/
structure MlaCall where
  tokens : Nat
  slotMapping : Nat → Int
  kvLoraRank : Nat
  peDim : Nat
  blockSize : Nat
  kvC0 : Nat
  kvC1 : Nat
  kPe0 : Nat
  kPe1 : Nat
  blockStride : Nat
  entryStride : Nat
  lastStride : Nat
  -- the bytes of an element of `kv_cache`
  itemsize : Nat

/-- `kv_c`, `k_pe` and the scale. -/
structure MlaSource (d : ScalarType) where
  kvC : Int → BitVec d.bits
  kPe : Int → BitVec d.bits
  scale : BitVec 32

def MlaSource.Valid {d : ScalarType} (x : MlaSource d) : Prop :=
  (∀ p, magnitude (numeric d (x.kvC p)) < fp32Inf ∧ magnitude (numeric d (x.kPe p)) < fp32Inf) ∧
    0 < x.scale.toNat ∧ x.scale.toNat < fp32Inf

namespace MlaCall

variable (c : MlaCall) {d : ScalarType}

/-- The element of the concatenated row, latent part first. -/
def element (x : MlaSource d) (t i : Nat) : BitVec d.bits :=
  if i < c.kvLoraRank then x.kvC (t * c.kvC0 + i * c.kvC1 : Nat) else x.kPe (t * c.kPe0 + (i - c.kvLoraRank) * c.kPe1 : Nat)

/-- Where an entry of the cache starts. -/
def entryAddress (slot : Nat) : Nat := slot / c.blockSize * c.blockStride + slot % c.blockSize * c.entryStride

/-- `block_idx * block_stride + block_offset * entry_stride` -/
def entry (slot : Nat) : Int := (slot / c.blockSize : Nat) * cInt c.blockStride + (slot % c.blockSize : Nat) * cInt c.entryStride

/-- `concat_and_cache_mla_kernel`: a store is one of the two loops and its `i`. -/
def writer (kvDt : Fp8KVCacheDataType) : Writer (MlaSource d) where
  tokens := c.tokens
  slotMapping := c.slotMapping
  cells := c.kvLoraRank + c.peDim
  Store := Nat ⊕ Nat
  stores := (threadLoops c.kvLoraRank (min c.kvLoraRank 256)).map .inl ++ (threadLoops c.peDim (min c.kvLoraRank 256)).map .inr
  cell
    | .inl i => i
    | .inr i => i + c.kvLoraRank
  dst slot i := c.entry slot + i
  address slot i := (c.entryAddress slot + i * c.lastStride : Nat)
  value x t
    | .inl i => mlaConvert kvDt d (x.kvC (t * cInt c.kvC0 + i)) x.scale
    | .inr i => mlaConvert kvDt d (x.kPe (t * cInt c.kPe0 + i)) x.scale

/-! ## The packed format -/

/-- Byte `b` of a little-endian value. -/
def byteOf (value b : Nat) : Nat := value / 256 ^ b % 256

/-- `kv_c[token_idx * kv_c_stride + i]` -/
def nope (x : MlaSource d) (t i : Nat) : BitVec d.bits := x.kvC (t * cInt c.kvC0 + i)

/-- The largest absolute value of a thread's eight elements. -/
def threadMax (x : MlaSource d) (t thread : Nat) : Nat :=
  let vals k := fabsf (castFloat d (c.nope x t (thread * 8 + k)))
  max (max (max (vals 0) (vals 1)) (max (vals 2) (vals 3))) (max (max (vals 4) (vals 5)) (max (vals 6) (vals 7)))

/-- `fmaxf(max_abs, VLLM_SHFL_XOR_SYNC_WIDTH(max_abs, offset, 16))` -/
def shflMax (v : Nat → Nat) (offset lane : Nat) : Nat := max (v lane) (v (lane ^^^ offset))

/-- The reduction over the sixteen threads of a tile, of which `lane` is one. -/
def tileMax (v : Nat → Nat) : Nat → Nat := shflMax (shflMax (shflMax (shflMax v 8) 4) 2) 1

/-- `fmaxf(max_abs / 448.f, FLT_MIN)` -/
def scaleOfMax (maxAbs : Nat) : BitVec 32 :=
  BitVec.ofNat 32 (max (fdiv (BitVec.ofNat 32 maxAbs) 0x43E00000#32).toNat 0x00800000)

/-- `tile_scale` of a thread. -/
def tileScale (x : MlaSource d) (t thread : Nat) : BitVec 32 :=
  scaleOfMax (tileMax (fun lane => c.threadMax x t (thread / 16 * 16 + lane)) (thread % 16))

/-- A byte that a thread stores: a code, a byte of a scale, or a byte of two values. -/
inductive DsStore
  | code (thread i : Nat)
  | scale (thread b : Nat)
  | rope (thread b : Nat)

/-- The stores of one thread of the 96. -/
def dsStores (thread : Nat) : List DsStore :=
  if 64 ≤ thread then (List.range 4).map (.rope thread)
  else
    let laneIdx := thread % 32
    (if laneIdx = 0 ∨ laneIdx = 16 then (List.range 4).map (.scale thread) else []) ++ (List.range 8).map (.code thread)

def dsCell : DsStore → Nat
  | .code thread i => thread * 8 + i
  | .scale thread b => (512 / 4 + (thread / 32 * 2 + thread % 32 / 16)) * 4 + b
  | .rope thread b => (512 / 2 + 8 + (thread - 64) * 2) * 2 + b

/-- `concat_and_cache_ds_mla_kernel`, for `kv_lora_rank` 512 and `pe_dim` 64, on a cache of bytes. -/
def dsWriter : Writer (MlaSource d) where
  tokens := c.tokens
  slotMapping := c.slotMapping
  cells := 656
  Store := DsStore
  stores := (List.range 96).flatMap dsStores
  cell := dsCell
  dst slot i := c.entry slot + i
  address slot i := (c.itemsize * c.entryAddress slot + i : Nat)
  value x t
    | .code thread i => (scaledConvert .kFp8E4M3 d (c.nope x t (thread * 8 + i)) (c.tileScale x t thread)).toNat
    | .scale thread b => byteOf (c.tileScale x t thread).toNat b
    | .rope thread b => byteOf (x.kPe (t * cInt c.kPe0 + ((thread - 64) * 2 + b / 2 : Nat))).toNat (b % 2)

/-- The scale of tile `tile`: its largest absolute value over 448, at least `FLT_MIN`. -/
def wantedScale (x : MlaSource d) (t tile : Nat) : BitVec 32 :=
  scaleOfMax (((List.range 128).map fun i => fabsf (numeric d (c.element x t (tile * 128 + i)))).foldr max 0)

/-- The entry of a token: 512 codes, four scales, 64 values. -/
def wantedByte (x : MlaSource d) (t i : Nat) : Nat :=
  if i < 512 then quantise .kFp8E4M3 d (c.element x t i) (c.wantedScale x t (i / 128))
  else if i < 528 then byteOf (c.wantedScale x t ((i - 512) / 4)).toNat ((i - 512) % 4)
  else byteOf (c.element x t (512 + (i - 528) / 2)).toNat (i % 2)

end MlaCall

end VllmHcu.Cache
