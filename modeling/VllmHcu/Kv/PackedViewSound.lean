import Mathlib.Data.List.Sort
import VllmHcu.Lib.Result
import VllmHcu.Lib.Strided

/-!
# Confinement of cache views

The backend gives a logical shape, with the blocks as dimension 0, and the order
in which its dimensions lie in memory. The strides of the contiguous physical
shape are used for all dimensions but the blocks, whose stride is the pitch of
the packed blocks.

A view keeps every block in its page exactly when the dimensions that lie
outside the blocks have size 1, unless there is at most one block or the page is
empty. The checks look at the size of the page and at the pitch only.
-/

namespace VllmHcu.Kv

/-- A strided tensor over a storage; all numbers count entries. -/
structure View where
  size : List Nat
  stride : List Nat
  storageOffset : Nat

namespace View

def address (v : View) (idx : List Nat) : Nat := v.storageOffset + dot idx v.stride

/-- `tensor.permute(*dims)` -/
def permute (v : View) (dims : List Nat) : View := ⟨pick v.size dims, pick v.stride dims, v.storageOffset⟩

end View

/-- `torch.as_strided` on a storage of `storageSize` entries. -/
def asStrided (storageSize : Nat) (size stride : List Nat) (storageOffset : Nat) : Except String View :=
  if 0 ∈ size ∨ storageOffset + dot (size.map (· - 1)) stride < storageSize then .ok ⟨size, stride, storageOffset⟩
  else .error "setStorage: out of bounds for storage"

/-- `tuple.index` -/
def indexOf (l : List Nat) (i : Nat) : Except String Nat :=
  if i ∈ l then .ok (l.idxOf i) else .error "tuple.index(x): x not in tuple"

def tupleText (l : List Nat) : String := "(" ++ ", ".intercalate (l.map toString) ++ ")"

def getItem (l : List Nat) (i : Nat) : Except String Nat :=
  match l[i]? with
  | some x => .ok x
  | none => .error "tuple index out of range"

/-- `torch.empty(shape).stride()` -/
def emptyStride (shape : List Nat) : List Nat := contiguous (shape.map (max 1))

/-! ## `_reshape_modern_packed_cache` -/

structure PackedDescriptor where
  offset : Int
  blockStride : Nat

/-- The fields of a spec that the view depends on; `plainCache` is `KVQuantMode.NONE` without turbo quantization. -/
structure AttentionSpec where
  blockSize : Nat
  storageBlockSize : Option Nat := none
  numKvHeads : Nat
  headSize : Nat
  dtypeSize : Nat
  dtypeSize_pos : 0 < dtypeSize
  plainCache : Bool := true
  cacheDtypeStr : Option String := none

structure AttentionBackend where
  getKvCacheShape (numBlocks blockSize numKvHeads headSize : Nat) (cacheDtypeStr : String) : List Nat
  strideOrder : List Nat

def AttentionSpec.layerCacheDtype (spec : AttentionSpec) (cacheDtype : String) : String :=
  if spec.plainCache then "auto"
  else
    match spec.cacheDtypeStr with
    | some s => if s = "" then cacheDtype else s
    | none => cacheDtype

def AttentionSpec.storageBlock (spec : AttentionSpec) : Nat := spec.storageBlockSize.getD spec.blockSize

def cacheShape (spec : AttentionSpec) (backend : AttentionBackend) (numBlocks : Nat) (cacheDtype : String) : List Nat :=
  backend.getKvCacheShape numBlocks spec.storageBlock spec.numKvHeads spec.headSize (spec.layerCacheDtype cacheDtype)

/-- The view, in entries of the cache dtype, of a backing of `rawNumel` bytes. -/
def reshapeModernPackedCache (rawNumel : Nat) (descriptor : PackedDescriptor) (spec : AttentionSpec)
    (backend : AttentionBackend) (numBlocks : Nat) (cacheDtype : String) : Except String View := do
  ensure (0 < spec.blockSize ∧ 0 < spec.storageBlock) "KV storage block size must be positive"
  let blockStride := descriptor.blockStride
  ensure (0 < blockStride) "Packed KV descriptor must provide a positive block stride"
  ensure (rawNumel % blockStride = 0) "Packed KV backing size must be divisible by its block stride"
  let kernelNumBlocks := rawNumel / blockStride
  ensure (kernelNumBlocks = numBlocks)
    s!"Packed KV descriptor and config disagree on block count: descriptor={kernelNumBlocks} config={numBlocks}"
  let shape := cacheShape spec backend kernelNumBlocks cacheDtype
  let strideOrder := backend.strideOrder
  ensure (strideOrder.length = shape.length) "HCU KV-cache stride order does not match its shape"
  let physicalShape ← strideOrder.mapM (getItem shape)
  let dtypeSize := spec.dtypeSize
  ensure (blockStride % dtypeSize = 0 ∧ descriptor.offset % dtypeSize = 0)
    "Packed KV offsets and strides must align to cache dtype"
  let blockDim ← indexOf strideOrder 0
  let pageBytes := dtypeSize * (physicalShape.eraseIdx blockDim).prod
  ensure (pageBytes ≤ blockStride)
    s!"Packed KV backend view exceeds its per-block descriptor stride: view={pageBytes} stride={blockStride}"
  ensure (0 ≤ descriptor.offset ∧
      descriptor.offset + ((kernelNumBlocks : Int) - 1) * blockStride + pageBytes ≤ rawNumel)
    "Packed KV descriptor offset/view exceeds its backing allocation"
  let physicalStride := (emptyStride physicalShape).set blockDim (blockStride / dtypeSize)
  let view ← asStrided (rawNumel / dtypeSize) physicalShape physicalStride (descriptor.offset / dtypeSize).toNat
  let dims ← (List.range strideOrder.length).mapM (indexOf strideOrder)
  return view.permute dims

/-! ## `_reshape_hcu_flash_cache` -/

/-- `cache` is the official view, on a storage of `storageSize` entries. -/
def reshapeHcuFlashCache (storageSize : Nat) (cache : View) (blockSize numKvHeads headSize : Nat)
    (strideOrder : List Nat) : Except String View := do
  let expectedShape := [numKvHeads, blockSize, 2 * headSize]
  ensure (cache.size.length = 4 ∧ cache.size.tail = expectedShape)
    s!"Unexpected official FlashAttention KV-cache shape: got {tupleText cache.size}, expected [B, {tupleText expectedShape}]"
  let logicalShape := [cache.size.headD 0, 2, blockSize, numKvHeads, headSize]
  ensure (strideOrder.insertionSort (· ≤ ·) = List.range logicalShape.length)
    s!"Invalid HCU KV-cache stride order: {tupleText strideOrder}"
  let physicalStride := contiguous (pick logicalShape strideOrder)
  let logicalStride := pick physicalStride ((List.range strideOrder.length).map strideOrder.idxOf)
  let pageElements := 2 * blockSize * numKvHeads * headSize
  let blockStride := cache.stride.headD 0
  ensure (pageElements ≤ blockStride)
    s!"Official KV-cache block stride is smaller than one HCU page: stride={blockStride}, page={pageElements}"
  asStrided storageSize logicalShape (blockStride :: logicalStride.tail) cache.storageOffset

/-- At most one block, an empty page, or blocks that no proper dimension lies outside of. -/
def BlocksOutermost (shape strideOrder : List Nat) : Prop :=
  shape.headD 0 ≤ 1 ∨ 0 ∈ shape.tail ∨ ∀ i ∈ strideOrder.takeWhile (· ≠ 0), shape.getD i 0 = 1

instance (shape strideOrder : List Nat) : Decidable (BlocksOutermost shape strideOrder) :=
  inferInstanceAs (Decidable (_ ∨ _ ∨ _))

/-- In bytes: distinct indices have distinct entries, and the entries of block `b` lie in its page of the backing. -/
structure Confined (v : View) (dtypeSize offset blockStride pageBytes backing : Nat) : Prop where
  distinct : ∀ idx idx', IsIndex idx v.size → IsIndex idx' v.size → v.address idx = v.address idx' → idx = idx'
  within : ∀ idx b, IsIndex idx v.size → idx.head? = some b →
    offset + b * blockStride ≤ v.address idx * dtypeSize ∧
      (v.address idx + 1) * dtypeSize ≤ offset + b * blockStride + pageBytes ∧
      offset + b * blockStride + pageBytes ≤ backing

/-! ## The order of the dimensions -/

section
variable {n K : Nat} {rest A B : List Nat}

theorem split_order {σ : List Nat} (h : 0 ∈ σ) : ∃ B, σ = σ.takeWhile (· ≠ 0) ++ 0 :: B ∧
    σ.idxOf 0 = (σ.takeWhile (· ≠ 0)).length := by
  induction σ with
  | nil => cases h
  | cons a σ ih =>
    by_cases ha : a = 0
    · subst ha
      exact ⟨σ, by simp⟩
    · obtain ⟨B, hB, hidx⟩ := ih ((List.mem_cons.mp h).resolve_left (Ne.symm ha))
      refine ⟨B, ?_, ?_⟩
      · rw [List.takeWhile_cons_of_pos (by simpa using ha), List.cons_append, ← hB]
      · rw [List.takeWhile_cons_of_pos (by simpa using ha), List.idxOf_cons_ne _ ha, List.length_cons, hidx]

theorem pick_append (l a b : List Nat) : pick l (a ++ b) = pick l a ++ pick l b := List.map_append

theorem pick_order (K : Nat) (rest A B : List Nat) :
    pick (K :: rest) (A ++ 0 :: B) = pick (K :: rest) A ++ K :: pick (K :: rest) B := pick_append _ _ _

theorem page_prod (hσ : (A ++ 0 :: B).Perm (List.range (rest.length + 1))) :
    (pick (K :: rest) A).prod * (pick (K :: rest) B).prod = rest.prod := by
  have hperm : (A ++ B).Perm (List.range' 1 rest.length) := by
    apply List.Perm.cons_inv (a := 0)
    refine (List.perm_middle.symm.trans hσ).trans ?_
    rw [List.range_eq_range', List.range'_succ]
  have htail : pick (K :: rest) (List.range' 1 rest.length) = rest := by
    apply List.ext_getElem
    · simp
    · intro i hi hi'
      simp [pick, List.getD_eq_getElem?_getD, Nat.add_comm 1 i, hi']
  rw [← List.prod_append, ← pick_append, pick, (hperm.map _).prod_eq]
  exact congrArg List.prod htail

theorem prod_eq_one {l : List Nat} : l.prod = 1 ↔ ∀ x ∈ l, x = 1 := by
  induction l with
  | nil => simp
  | cons x l ih =>
    rw [List.prod_cons, List.forall_mem_cons, ← ih]
    constructor
    · intro h
      exact ⟨Nat.eq_one_of_mul_eq_one_right h, Nat.eq_one_of_mul_eq_one_left h⟩
    · intro ⟨hx, hl⟩
      rw [hx, hl]

theorem pitchSafe_iff (hσ : (A ++ 0 :: B).Perm (List.range (rest.length + 1))) :
    PitchSafe (pick (K :: rest) A) (pick (K :: rest) B) K ↔
      K ≤ 1 ∨ 0 ∈ rest ∨ ∀ i ∈ A, (K :: rest).getD i 0 = 1 := by
  unfold PitchSafe
  rw [page_prod hσ, List.prod_eq_zero_iff, prod_eq_one]
  have hall : (∀ x ∈ pick (K :: rest) A, x = 1) ↔ ∀ i ∈ A, (K :: rest).getD i 0 = 1 := by
    simp [pick]
  rw [hall]
  tauto

/-- A view of shape `K :: rest` whose strides are those of the physical shape, with a pitch for the blocks. -/
def pitchedView (K : Nat) (rest A B : List Nat) (S off : Nat) : View where
  size := K :: rest
  stride := pick ((contiguous (pick (K :: rest) (A ++ 0 :: B))).set A.length S)
    ((List.range (rest.length + 1)).map (A ++ 0 :: B).idxOf)
  storageOffset := off

section
variable {S off : Nat} (hσ : (A ++ 0 :: B).Perm (List.range (rest.length + 1)))
include hσ

theorem address_pitched {b : Nat} {idx : List Nat} (hidx : idx.length = rest.length) :
    (pitchedView K rest A B S off).address (b :: idx) =
      off + pitchedAddress (pick (K :: rest) A) (pick (K :: rest) B) K S (pick (b :: idx) A) b (pick (b :: idx) B) := by
  unfold View.address pitchedView
  dsimp only
  rw [dot_pick hσ (by simp [hidx]) (by simp [perm_length hσ]), pick_order, pick_order]
  rw [← pick_length (K :: rest) A, dot_pitched (by simp)]
  rfl

theorem isIndex_pitched {b : Nat} {idx : List Nat} (hidx : idx.length = rest.length) :
    IsIndex (b :: idx) (K :: rest) ↔ IsIndex (pick (b :: idx) A) (pick (K :: rest) A) ∧ b < K ∧
      IsIndex (pick (b :: idx) B) (pick (K :: rest) B) := by
  rw [← isIndex_pick hσ (by simp [hidx]) (by simp), pick_order, pick_order]
  constructor
  · intro h
    have htake := List.forall₂_take_append _ _ _ h
    have hdrop := List.forall₂_drop_append _ _ _ h
    rw [List.take_left' (by simp)] at htake
    rw [List.drop_left' (by simp)] at hdrop
    cases hdrop with
    | cons hb hB => exact ⟨htake, hb, hB⟩
  · intro ⟨hA, hb, hB⟩
    exact List.rel_append hA (.cons hb hB)

theorem exists_index {x y : List Nat} (hx : x.length = A.length) (hy : y.length = B.length) (b : Nat) :
    ∃ idx, idx.length = rest.length ∧ pick (b :: idx) A = x ∧ pick (b :: idx) B = y := by
  have hlen : (x ++ b :: y).length = rest.length + 1 := by
    rw [← perm_length hσ]
    simp [hx, hy]
  have hpick := pick_pick hσ hlen
  have hnot : 0 ∉ A := by
    have := perm_nodup hσ
    rw [List.nodup_append] at this
    exact fun h0 => this.2.2 0 h0 0 List.mem_cons_self rfl
  obtain ⟨idx, hidx⟩ : ∃ idx, pick (x ++ b :: y) ((List.range (rest.length + 1)).map (A ++ 0 :: B).idxOf) = b :: idx := by
    rw [List.range_succ_eq_map, List.map_cons, List.idxOf_append_of_notMem hnot, List.idxOf_cons_self]
    refine ⟨_, List.cons_eq_cons.mpr ⟨?_, rfl⟩⟩
    simp [← hx]
  have hidxlen : idx.length = rest.length := by
    have := congrArg List.length hidx
    simpa using this.symm
  rw [hidx, pick_order] at hpick
  obtain ⟨hA, hB⟩ := List.append_inj hpick (by simp [hx])
  exact ⟨idx, hidxlen, hA, (List.cons_eq_cons.mp hB).2⟩

theorem pitched_confined_iff (hS : rest.prod ≤ S) :
    ((∀ idx idx', IsIndex idx (K :: rest) → IsIndex idx' (K :: rest) →
        (pitchedView K rest A B S off).address idx = (pitchedView K rest A B S off).address idx' → idx = idx') ∧
      ∀ b idx, IsIndex (b :: idx) (K :: rest) → (pitchedView K rest A B S off).address (b :: idx) < off + b * S + rest.prod) ↔
    K ≤ 1 ∨ 0 ∈ rest ∨ ∀ i ∈ A, (K :: rest).getD i 0 = 1 := by
  have hpage := page_prod (K := K) hσ
  rw [← pitchSafe_iff hσ, ← pitchConfined_iff (S := S) (by omega)]
  constructor
  · intro ⟨hdistinct, hwithin⟩
    refine ⟨fun x b y x' b' y' hx hb hy hx' hb' hy' he => ?_, fun x b y hx hb hy => ?_⟩
    · obtain ⟨idx, hlen, rfl, rfl⟩ := exists_index hσ (hx.length_eq.trans (pick_length _ _))
        (hy.length_eq.trans (pick_length _ _)) b
      obtain ⟨idx', hlen', rfl, rfl⟩ := exists_index hσ (hx'.length_eq.trans (pick_length _ _))
        (hy'.length_eq.trans (pick_length _ _)) b'
      have heq := hdistinct _ _ ((isIndex_pitched hσ hlen).mpr ⟨hx, hb, hy⟩) ((isIndex_pitched hσ hlen').mpr ⟨hx', hb', hy'⟩)
        (by rw [address_pitched hσ hlen, address_pitched hσ hlen', he])
      cases heq
      exact ⟨rfl, rfl, rfl⟩
    · obtain ⟨idx, hlen, rfl, rfl⟩ := exists_index hσ (hx.length_eq.trans (pick_length _ _))
        (hy.length_eq.trans (pick_length _ _)) b
      have := hwithin b idx ((isIndex_pitched hσ hlen).mpr ⟨hx, hb, hy⟩)
      rw [address_pitched hσ hlen] at this
      omega
  · intro h
    refine ⟨fun idx idx' hidx hidx' he => ?_, fun b idx hidx => ?_⟩
    · cases hidx with
      | @cons b _ idx _ hb htail =>
        cases hidx' with
        | @cons b' _ idx' _ hb' htail' =>
          have hlen := htail.length_eq
          have hlen' := htail'.length_eq
          obtain ⟨hA, -, hB⟩ := (isIndex_pitched hσ hlen).mp (.cons hb htail)
          obtain ⟨hA', -, hB'⟩ := (isIndex_pitched hσ hlen').mp (.cons hb' htail')
          rw [address_pitched hσ hlen, address_pitched hσ hlen'] at he
          obtain ⟨hx, hbb, hy⟩ := h.distinct _ _ _ _ _ _ hA hb hB hA' hb' hB' (Nat.add_left_cancel he)
          apply pick_injective hσ (by simp [hlen]) (by simp [hlen'])
          rw [pick_order, pick_order, hx, hy, hbb]
    · have hlen : idx.length = rest.length := Nat.succ.inj hidx.length_eq
      obtain ⟨hA, hb, hB⟩ := (isIndex_pitched hσ hlen).mp hidx
      have := h.page _ _ _ hA hb hB
      rw [address_pitched hσ hlen]
      omega

/-- In bytes, where the pages fit the backing as far as they are pages. -/
theorem pitched_bytes_iff {ds backing : Nat} (hds : 0 < ds) (hS : rest.prod ≤ S)
    (hfit : (K ≤ 1 ∨ 0 ∈ rest ∨ ∀ i ∈ A, (K :: rest).getD i 0 = 1) → ∀ b < K, 0 ∉ rest →
      (off + b * S + rest.prod) * ds ≤ backing) :
    Confined (pitchedView K rest A B S off) ds (off * ds) (S * ds) (ds * rest.prod) backing ↔
      K ≤ 1 ∨ 0 ∈ rest ∨ ∀ i ∈ A, (K :: rest).getD i 0 = 1 := by
  have hpage : ∀ b, off * ds + b * (S * ds) + ds * rest.prod = (off + b * S + rest.prod) * ds := by
    intro b
    ring
  have hstart : ∀ b, off * ds + b * (S * ds) = (off + b * S) * ds := by
    intro b
    ring
  constructor
  · intro h
    rw [← pitched_confined_iff hσ hS]
    refine ⟨h.distinct, fun b idx hidx => ?_⟩
    have := (h.within _ b hidx rfl).2.1
    rw [hpage] at this
    exact Nat.le_of_mul_le_mul_right this hds
  · intro hsafe
    obtain ⟨hdistinct, hwithin⟩ := (pitched_confined_iff hσ hS).mpr hsafe
    refine ⟨hdistinct, fun idx b hidx hb => ?_⟩
    cases hidx with
    | @cons b' _ idx _ hlt htail =>
      cases hb
      have hlen := htail.length_eq
      rw [hpage, hstart]
      refine ⟨Nat.mul_le_mul_right _ ?_, Nat.mul_le_mul_right _ (hwithin _ _ (.cons hlt htail)), hfit hsafe _ hlt ?_⟩
      · rw [address_pitched hσ hlen]
        unfold pitchedAddress
        omega
      · intro hzero
        obtain ⟨i, hi, he⟩ := List.getElem_of_mem hzero
        have := (isIndex_iff hlen rfl).mp htail i hi
        simp [List.getD_eq_getElem?_getD, hi, he] at this

end

end

end VllmHcu.Kv
