import VllmHcu.Kv.PackedViewSound

/-!
# Which accepted views are confined

Both functions hand back a pitched view. It is confined exactly when the blocks
are outermost, which neither of them checks.
-/

namespace VllmHcu.Kv

/-! ## The lookups -/

theorem getItem_eq_ok {l : List Nat} {i x : Nat} : getItem l i = .ok x ↔ l[i]? = some x := by
  unfold getItem
  split
  · rename_i y hy
    rw [hy]
    exact ⟨fun h => congrArg some (Except.ok.inj h), fun h => congrArg Except.ok (Option.some.inj h)⟩
  · rename_i hn
    rw [hn]
    exact ⟨nofun, nofun⟩

theorem indexOf_eq_ok {l : List Nat} {i j : Nat} : indexOf l i = .ok j ↔ i ∈ l ∧ l.idxOf i = j := by
  unfold indexOf
  split
  · rename_i hi
    exact ⟨fun h => ⟨hi, Except.ok.inj h⟩, fun ⟨_, h⟩ => congrArg _ h⟩
  · rename_i hi
    exact ⟨nofun, fun ⟨h, _⟩ => absurd h hi⟩

theorem asStrided_eq_ok {storageSize storageOffset : Nat} {size stride : List Nat} {v : View} :
    asStrided storageSize size stride storageOffset = .ok v ↔
      (0 ∈ size ∨ storageOffset + dot (size.map (· - 1)) stride < storageSize) ∧ ⟨size, stride, storageOffset⟩ = v := by
  unfold asStrided
  split
  · rename_i h
    exact ⟨fun hv => ⟨h, Except.ok.inj hv⟩, fun ⟨_, hv⟩ => congrArg _ hv⟩
  · rename_i h
    exact ⟨nofun, fun ⟨hv, _⟩ => absurd hv h⟩

theorem mapM_getItem {shape : List Nat} : ∀ {σ phys : List Nat}, σ.mapM (getItem shape) = .ok phys → phys = pick shape σ := by
  intro σ phys h
  have hall := (mapM_eq_ok _).mp h
  clear h
  induction hall with
  | nil => rfl
  | cons hx _ ih =>
    have hget := getItem_eq_ok.mp hx
    rw [ih]
    simp [pick, List.getD_eq_getElem?_getD, hget]

theorem mapM_indexOf {σ dims : List Nat} (h : (List.range σ.length).mapM (indexOf σ) = .ok dims) :
    dims = (List.range σ.length).map σ.idxOf ∧ σ.Perm (List.range σ.length) := by
  have hall := (mapM_eq_ok _).mp h
  constructor
  · have hmap : List.Forall₂ (fun i j => σ.idxOf i = j) (List.range σ.length) dims :=
      hall.imp fun i j hij => (indexOf_eq_ok.mp hij).2
    clear h hall
    generalize List.range σ.length = l at hmap ⊢
    induction hmap with
    | nil => rfl
    | cons hx _ ih => rw [List.map_cons, hx, ← ih]
  · have hsub : List.range σ.length ⊆ σ := by
      intro i hi
      obtain ⟨j, hj⟩ := List.mem_iff_getElem.mp hi
      obtain ⟨hj, rfl⟩ := hj
      exact (indexOf_eq_ok.mp (hall.get hj (hall.length_eq ▸ hj))).1
    have hperm := List.subperm_of_subset List.nodup_range hsub
    exact (hperm.perm_of_length_le (by simp)).symm

theorem emptyStride_eq {shape : List Nat} (h : 0 ∉ shape) : emptyStride shape = contiguous shape := by
  unfold emptyStride
  have hmap : shape.map (max 1) = shape.map id := by
    apply List.map_congr_left
    intro x hx
    have : x ≠ 0 := fun h0 => h (h0 ▸ hx)
    simp only [id_eq]
    omega
  rw [hmap, List.map_id]

/-! ## Confinement -/

section
variable {K : Nat} {rest σ : List Nat}

theorem blocksOutermost_iff : BlocksOutermost (K :: rest) σ ↔
    K ≤ 1 ∨ 0 ∈ rest ∨ ∀ i ∈ σ.takeWhile (· ≠ 0), (K :: rest).getD i 0 = 1 := Iff.rfl

theorem confined_of_empty {v : View} {ds offset blockStride pageBytes backing : Nat} (h : 0 ∈ v.size) :
    Confined v ds offset blockStride pageBytes backing := by
  have hno : ∀ idx, ¬IsIndex idx v.size := by
    intro idx hidx
    obtain ⟨i, hi, he⟩ := List.getElem_of_mem h
    have := (isIndex_iff hidx.length_eq rfl).mp hidx i hi
    simp [List.getD_eq_getElem?_getD, hi, he] at this
  exact ⟨fun idx _ hidx => absurd hidx (hno idx), fun idx _ hidx => absurd hidx (hno idx)⟩

theorem outermost_of_empty (h : 0 ∈ K :: rest) : BlocksOutermost (K :: rest) σ := by
  rcases List.mem_cons.mp h with rfl | hrest
  · exact .inl (Nat.zero_le 1)
  · exact .inr (.inl hrest)

variable (hσ : σ.Perm (List.range (rest.length + 1)))
include hσ

/-- The view that the reused strides give. -/
def reusedView (K : Nat) (rest σ : List Nat) (S off : Nat) : View where
  size := K :: rest
  stride := pick ((contiguous (pick (K :: rest) σ)).set (σ.idxOf 0) S) ((List.range (rest.length + 1)).map σ.idxOf)
  storageOffset := off

theorem exists_split : ∃ B, σ = σ.takeWhile (· ≠ 0) ++ 0 :: B ∧ ∀ S off,
    reusedView K rest σ S off = pitchedView K rest (σ.takeWhile (· ≠ 0)) B S off := by
  have hmem : 0 ∈ σ := (perm_mem hσ).mpr (Nat.succ_pos _)
  obtain ⟨B, hB, hidx⟩ := split_order hmem
  refine ⟨B, hB, fun S off => ?_⟩
  unfold reusedView pitchedView
  rw [hidx, ← hB]

theorem reused_confined_iff {ds S off backing : Nat} (hds : 0 < ds) (hS : rest.prod ≤ S)
    (hfit : BlocksOutermost (K :: rest) σ → ∀ b < K, 0 ∉ rest → (off + b * S + rest.prod) * ds ≤ backing) :
    Confined (reusedView K rest σ S off) ds (off * ds) (S * ds) (ds * rest.prod) backing ↔
      BlocksOutermost (K :: rest) σ := by
  obtain ⟨B, hB, hview⟩ := exists_split (K := K) hσ
  rw [hview, blocksOutermost_iff]
  exact pitched_bytes_iff (hB ▸ hσ) hds hS hfit

theorem last_address (S off : Nat) (hne : 0 ∉ K :: rest) (h : BlocksOutermost (K :: rest) σ) :
    (reusedView K rest σ S off).address ((K - 1) :: rest.map (· - 1)) + 1 = off + (K - 1) * S + rest.prod := by
  obtain ⟨B, hB, hview⟩ := exists_split (K := K) hσ
  rw [hview]
  rw [blocksOutermost_iff] at h
  generalize σ.takeWhile (· ≠ 0) = A at hB h ⊢
  subst hB
  have hpos : ∀ d ∈ K :: rest, 0 < d := fun d hd => Nat.pos_of_ne_zero fun h0 => hne (h0 ▸ hd)
  have hpick : ∀ l, (∀ i ∈ l, i ∈ A ++ 0 :: B) → ∀ d ∈ pick (K :: rest) l, 0 < d := by
    intro l hl d hd
    obtain ⟨i, hi, rfl⟩ := List.mem_map.mp hd
    have hlt : i < (K :: rest).length := (perm_mem hσ).mp (hl i hi)
    apply hpos
    rw [List.getD_eq_getElem?_getD, List.getElem?_eq_getElem hlt]
    exact List.getElem_mem _
  have hA := hpick A fun i hi => List.mem_append_left _ hi
  have hBpos := hpick B fun i hi => List.mem_append_right _ (List.mem_cons_of_mem _ hi)
  have hK := hpos K List.mem_cons_self
  have hsafe := (pitchSafe_iff (K := K) hσ).mpr h
  have hsame := (hsafe.page (isIndex_last hA) (isIndex_last hBpos) (show K - 1 < K by omega)).2
  have hlast := flat_last hA
  have hlast' := flat_last hBpos
  have hlasts : (K - 1) :: rest.map (· - 1) = (K :: rest).map (· - 1) := rfl
  rw [address_pitched hσ (by simp), ← page_prod (K := K) hσ, hlasts, pick_pred, pick_pred]
  unfold pitchedAddress
  rw [hsame, ← hlast, Nat.succ_mul]
  omega

end

/-! ## Accepted views -/

theorem erase_blocks {K : Nat} {rest σ : List Nat} (hσ : σ.Perm (List.range (rest.length + 1))) :
    ((pick (K :: rest) σ).eraseIdx (σ.idxOf 0)).prod = rest.prod := by
  obtain ⟨B, hB, hidx⟩ := split_order ((perm_mem hσ).mpr (Nat.succ_pos _))
  rw [hidx]
  generalize σ.takeWhile (· ≠ 0) = A at hB
  subst hB
  rw [pick_order, List.eraseIdx_append_of_length_le (by simp)]
  simp only [pick_length, Nat.sub_self, List.eraseIdx_cons_zero, List.prod_append]
  exact page_prod (K := K) hσ

/-- What the checks of a packed view establish. -/
structure PackedAccepted (rawNumel : Nat) (descriptor : PackedDescriptor) (dtypeSize K : Nat) (rest σ : List Nat)
    (S off : Nat) (v : View) : Prop where
  order : σ.Perm (List.range (rest.length + 1))
  blockStride : descriptor.blockStride = S * dtypeSize
  offset : descriptor.offset = (off * dtypeSize : Nat)
  page : dtypeSize * rest.prod ≤ descriptor.blockStride
  fits : descriptor.offset + ((K : Int) - 1) * descriptor.blockStride + (dtypeSize * rest.prod : Nat) ≤ rawNumel
  size : v.size = K :: rest
  view : 0 ∉ K :: rest → v = reusedView K rest σ S off

theorem packed_accepted {rawNumel : Nat} {descriptor : PackedDescriptor} {spec : AttentionSpec} {backend : AttentionBackend}
    {numBlocks : Nat} {cacheDtype : String} {v : View}
    (hok : reshapeModernPackedCache rawNumel descriptor spec backend numBlocks cacheDtype = .ok v)
    (hblocks : (cacheShape spec backend numBlocks cacheDtype).head? = some numBlocks) :
    ∃ rest S off, cacheShape spec backend numBlocks cacheDtype = numBlocks :: rest ∧
      PackedAccepted rawNumel descriptor spec.dtypeSize numBlocks rest backend.strideOrder S off v := by
  unfold reshapeModernPackedCache at hok
  simp only [bind_eq_ok, ensure_eq_ok] at hok
  obtain ⟨_, _, _, _, _, _, _, rfl, _, hlen, phys, hphys, _, ⟨hstride, hoffset⟩, blockDim, hdim, _, hpage, _, ⟨hpos, hfits⟩,
    view, hview, dims, hdims, hv⟩ := hok
  obtain ⟨rest, hrest⟩ : ∃ rest, cacheShape spec backend (rawNumel / descriptor.blockStride) cacheDtype =
      rawNumel / descriptor.blockStride :: rest := by
    obtain ⟨rest, hrest⟩ := List.head?_eq_some_iff.mp hblocks
    exact ⟨rest, hrest⟩
  rw [hrest] at hlen hphys
  obtain ⟨rfl, hperm⟩ := mapM_indexOf hdims
  obtain ⟨-, rfl⟩ := indexOf_eq_ok.mp hdim
  obtain ⟨-, rfl⟩ := asStrided_eq_ok.mp hview
  have hphys := mapM_getItem hphys
  subst hphys
  rw [hlen] at hperm
  rw [erase_blocks hperm] at hpage hfits
  have hv := (pure_eq_ok.mp hv).symm
  have hsize : pick (pick (rawNumel / descriptor.blockStride :: rest) backend.strideOrder)
      ((List.range backend.strideOrder.length).map backend.strideOrder.idxOf) = rawNumel / descriptor.blockStride :: rest := by
    rw [hlen]
    exact pick_unpick hperm rfl
  refine ⟨rest, descriptor.blockStride / spec.dtypeSize, (descriptor.offset / spec.dtypeSize).toNat, hrest, hperm, ?_, ?_, hpage,
    hfits, ?_, ?_⟩
  · exact (Nat.div_mul_cancel (Nat.dvd_of_mod_eq_zero hstride)).symm
  · have hdiv := Int.ediv_mul_cancel (Int.dvd_of_emod_eq_zero hoffset)
    rw [Nat.cast_mul, Int.toNat_of_nonneg (Int.ediv_nonneg hpos (Int.natCast_nonneg _)), hdiv]
  · rw [hv]
    exact hsize
  · intro hne
    rw [hv]
    unfold View.permute reusedView
    dsimp only
    rw [hsize, hlen, emptyStride_eq]
    · rfl
    · rwa [(pick_perm hperm rfl).mem_iff]

/-- In the flash view every stride is kept but that of the blocks, which the page may not exceed. -/
theorem flash_accepted {storageSize blockSize numKvHeads headSize : Nat} {cache v : View} {strideOrder : List Nat}
    (hok : reshapeHcuFlashCache storageSize cache blockSize numKvHeads headSize strideOrder = .ok v) :
    let rest := [2, blockSize, numKvHeads, headSize]
    strideOrder.Perm (List.range (rest.length + 1)) ∧ rest.prod ≤ cache.stride.headD 0 ∧
      v = reusedView (cache.size.headD 0) rest strideOrder (cache.stride.headD 0) cache.storageOffset ∧
      (0 ∈ cache.size.headD 0 :: rest ∨ v.address ((cache.size.headD 0 - 1) :: rest.map (· - 1)) < storageSize) := by
  unfold reshapeHcuFlashCache at hok
  simp only [bind_eq_ok, ensure_eq_ok] at hok
  obtain ⟨_, _, _, hsorted, _, hpage, hok⟩ := hok
  obtain ⟨hfits, rfl⟩ := asStrided_eq_ok.mp hok
  have hperm : strideOrder.Perm (List.range 5) := by
    have := (List.perm_insertionSort (· ≤ ·) strideOrder).symm
    rwa [hsorted] at this
  have hlen : strideOrder.length = 5 := perm_length hperm
  refine ⟨hperm, ?_, ?_, hfits⟩
  · simpa [Nat.mul_assoc] using hpage
  · unfold reusedView
    congr 1
    rw [hlen]
    exact (pick_set hperm _ (by simp [hlen]) (by omega)).symm

/-- A view with its logical shape, the order of its dimensions in memory and, in bytes, its pages. -/
structure CacheLayout where
  view : View
  shape : List Nat
  strideOrder : List Nat
  dtypeSize : Nat
  offset : Nat
  blockStride : Nat
  pageBytes : Nat
  backing : Nat

namespace CacheLayout

def Confined (l : CacheLayout) : Prop :=
  Kv.Confined l.view l.dtypeSize l.offset l.blockStride l.pageBytes l.backing

def numBlocks (l : CacheLayout) : Nat := l.shape.headD 0

/-- No page of one layer meets a page of the other. -/
def PagesDisjoint (l l' : CacheLayout) : Prop := ∀ b < l.numBlocks, ∀ b' < l'.numBlocks,
  l.offset + b * l.blockStride + l.pageBytes ≤ l'.offset + b' * l'.blockStride ∨
    l'.offset + b' * l'.blockStride + l'.pageBytes ≤ l.offset + b * l.blockStride

/-- No byte belongs to an entry of each. -/
def NoOverlap (l l' : CacheLayout) : Prop := ∀ idx idx', IsIndex idx l.view.size → IsIndex idx' l'.view.size →
  (l.view.address idx + 1) * l.dtypeSize ≤ l'.view.address idx' * l'.dtypeSize ∨
    (l'.view.address idx' + 1) * l'.dtypeSize ≤ l.view.address idx * l.dtypeSize

end CacheLayout

/-- What the two functions return, for a shape that has the blocks as dimension 0. -/
inductive Reshaped : CacheLayout → Prop
  | packed {rawNumel : Nat} {descriptor : PackedDescriptor} {spec : AttentionSpec} {backend : AttentionBackend}
      {numBlocks : Nat} {cacheDtype : String} {view : View}
      (hok : reshapeModernPackedCache rawNumel descriptor spec backend numBlocks cacheDtype = .ok view)
      (hblocks : (cacheShape spec backend numBlocks cacheDtype).head? = some numBlocks) :
      Reshaped {
        view
        shape := cacheShape spec backend numBlocks cacheDtype
        strideOrder := backend.strideOrder
        dtypeSize := spec.dtypeSize
        offset := descriptor.offset.toNat
        blockStride := descriptor.blockStride
        pageBytes := spec.dtypeSize * (cacheShape spec backend numBlocks cacheDtype).tail.prod
        backing := rawNumel }
  | flash {storageSize blockSize numKvHeads headSize dtypeSize : Nat} {cache view : View} {strideOrder : List Nat}
      (hdtype : 0 < dtypeSize)
      (hok : reshapeHcuFlashCache storageSize cache blockSize numKvHeads headSize strideOrder = .ok view) :
      Reshaped {
        view
        shape := [cache.size.headD 0, 2, blockSize, numKvHeads, headSize]
        strideOrder
        dtypeSize
        offset := cache.storageOffset * dtypeSize
        blockStride := cache.stride.headD 0 * dtypeSize
        pageBytes := dtypeSize * [2, blockSize, numKvHeads, headSize].prod
        backing := storageSize * dtypeSize }

theorem Reshaped.size_eq {l : CacheLayout} (h : Reshaped l) : ∃ rest, l.shape = l.numBlocks :: rest ∧ l.view.size = l.shape := by
  cases h with
  | packed hok hblocks =>
    obtain ⟨rest, S, off, hshape, hacc⟩ := packed_accepted hok hblocks
    refine ⟨rest, ?_, hacc.size.trans hshape.symm⟩
    simp [CacheLayout.numBlocks, hshape]
  | flash hdtype hok => exact ⟨_, rfl, by rw [(flash_accepted hok).2.2.1]; rfl⟩

theorem packed_confined_iff {rawNumel : Nat} {descriptor : PackedDescriptor} {ds K S off : Nat} {rest σ : List Nat} {v : View}
    (hds : 0 < ds) (h : PackedAccepted rawNumel descriptor ds K rest σ S off v) :
    Confined v ds descriptor.offset.toNat descriptor.blockStride (ds * rest.prod) rawNumel ↔ BlocksOutermost (K :: rest) σ := by
  by_cases hempty : 0 ∈ K :: rest
  · exact iff_of_true (confined_of_empty (h.size ▸ hempty)) (outermost_of_empty hempty)
  · have hoff : descriptor.offset.toNat = off * ds := by
      rw [h.offset]
      rfl
    have hpage := h.page
    rw [h.blockStride, Nat.mul_comm] at hpage
    rw [h.view hempty, hoff, h.blockStride]
    apply reused_confined_iff h.order hds (Nat.le_of_mul_le_mul_right hpage hds)
    intro _ b hb _
    have hfits := h.fits
    rw [h.offset, h.blockStride] at hfits
    have hle : b * (S * ds) ≤ (K - 1) * (S * ds) := Nat.mul_le_mul_right _ (by omega)
    have hcast : ((K : Int) - 1) * ((S * ds : Nat) : Int) = (((K - 1) * (S * ds) : Nat) : Int) := by
      obtain ⟨k, rfl⟩ : ∃ k, K = k + 1 := ⟨K - 1, by omega⟩
      push_cast
      simp
    have hsum : (off + b * S + rest.prod) * ds = off * ds + b * (S * ds) + ds * rest.prod := by ring
    omega

theorem flash_confined_iff {storageSize blockSize numKvHeads headSize ds : Nat} {cache v : View} {strideOrder : List Nat}
    (hds : 0 < ds) (hok : reshapeHcuFlashCache storageSize cache blockSize numKvHeads headSize strideOrder = .ok v) :
    Confined v ds (cache.storageOffset * ds) (cache.stride.headD 0 * ds) (ds * [2, blockSize, numKvHeads, headSize].prod)
        (storageSize * ds) ↔
      BlocksOutermost [cache.size.headD 0, 2, blockSize, numKvHeads, headSize] strideOrder := by
  obtain ⟨hperm, hpage, rfl, hfits⟩ := flash_accepted hok
  apply reused_confined_iff hperm hds hpage
  intro hsafe b hb hne
  apply Nat.mul_le_mul_right
  have hnotEmpty : 0 ∉ cache.size.headD 0 :: [2, blockSize, numKvHeads, headSize] := by
    intro h
    rcases List.mem_cons.mp h with h0 | h0
    · omega
    · exact hne h0
  have hlast := last_address hperm (cache.stride.headD 0) cache.storageOffset hnotEmpty hsafe
  have hlt := hfits.resolve_left hnotEmpty
  have hle : b * cache.stride.headD 0 ≤ (cache.size.headD 0 - 1) * cache.stride.headD 0 := Nat.mul_le_mul_right _ (by omega)
  omega

theorem Reshaped.confined_iff {l : CacheLayout} (h : Reshaped l) : l.Confined ↔ BlocksOutermost l.shape l.strideOrder := by
  cases h with
  | @packed _ _ spec _ _ _ _ hok hblocks =>
    obtain ⟨rest, S, off, hshape, hacc⟩ := packed_accepted hok hblocks
    unfold CacheLayout.Confined
    dsimp only
    rw [hshape]
    exact packed_confined_iff spec.dtypeSize_pos hacc
  | flash hdtype hok => exact flash_confined_iff hdtype hok

theorem noOverlap_of_confined {l l' : CacheLayout} (h : Reshaped l) (h' : Reshaped l') (hconf : l.Confined) (hconf' : l'.Confined)
    (hpages : l.PagesDisjoint l') : l.NoOverlap l' := by
  obtain ⟨rest, hshape, hsize⟩ := h.size_eq
  obtain ⟨rest', hshape', hsize'⟩ := h'.size_eq
  intro idx idx' hidx hidx'
  have hcons := hidx
  have hcons' := hidx'
  rw [hsize, hshape] at hcons
  rw [hsize', hshape'] at hcons'
  cases hcons with
  | @cons b _ _ _ hb _ =>
    cases hcons' with
    | @cons b' _ _ _ hb' _ =>
      have hin := hconf.within _ b hidx rfl
      have hin' := hconf'.within _ b' hidx' rfl
      have := hpages b hb b' hb'
      omega

/-- An accepted view is confined exactly when its blocks are outermost; then views with disjoint pages do not overlap. -/
theorem reshaped_confined_iff {l l' : CacheLayout} (h : Reshaped l) (h' : Reshaped l') :
    (l.Confined ↔ BlocksOutermost l.shape l.strideOrder) ∧
      (BlocksOutermost l.shape l.strideOrder → BlocksOutermost l'.shape l'.strideOrder → l.PagesDisjoint l' →
        l.NoOverlap l') := by
  refine ⟨h.confined_iff, fun hout hout' hpages => ?_⟩
  exact noOverlap_of_confined h h' (h.confined_iff.mpr hout) (h'.confined_iff.mpr hout') hpages

/-! ## Two layers -/

/-- Pages of two sets of two slots with two bytes. -/
def byteSpec : AttentionSpec where
  blockSize := 2
  numKvHeads := 1
  headSize := 2
  dtypeSize := 1
  dtypeSize_pos := Nat.one_pos

def orderedBackend (strideOrder : List Nat) : AttentionBackend where
  getKvCacheShape := fun numBlocks blockSize numKvHeads headSize _ => [numBlocks, 2, blockSize, numKvHeads, headSize]
  strideOrder

/-- A layer in a backing of two blocks of 24 bytes. -/
def byteLayer (strideOrder stride : List Nat) (offset : Nat) : CacheLayout where
  view := ⟨[2, 2, 2, 1, 2], stride, offset⟩
  shape := [2, 2, 2, 1, 2]
  strideOrder
  dtypeSize := 1
  offset
  blockStride := 24
  pageBytes := 8
  backing := 48

theorem byteLayer_reshaped (strideOrder stride : List Nat) (offset : Nat)
    (h : reshapeModernPackedCache 48 ⟨offset, 24⟩ byteSpec (orderedBackend strideOrder) 2 "auto" =
      .ok (byteLayer strideOrder stride offset).view) :
    Reshaped (byteLayer strideOrder stride offset) := Reshaped.packed h rfl

/-- The heads may lie outside the slots: the blocks are still outermost. -/
theorem slots_before_heads_confined :
    (byteLayer [0, 1, 3, 2, 4] [24, 4, 2, 4, 1] 0).Confined ∧
      (byteLayer [0, 1, 3, 2, 4] [24, 4, 2, 4, 1] 0).NoOverlap (byteLayer [0, 1, 3, 2, 4] [24, 4, 2, 4, 1] 8) := by
  have h := reshaped_confined_iff (byteLayer_reshaped [0, 1, 3, 2, 4] [24, 4, 2, 4, 1] 0 rfl)
    (byteLayer_reshaped [0, 1, 3, 2, 4] [24, 4, 2, 4, 1] 8 rfl)
  refine ⟨h.1.mpr (by decide), h.2 (by decide) (by decide) ?_⟩
  unfold CacheLayout.PagesDisjoint
  decide

/-- With keys and values outermost the second set of a layer is the first of the next one. -/
theorem keys_outermost_overlap :
    Reshaped (byteLayer [1, 0, 2, 3, 4] [24, 8, 2, 2, 1] 0) ∧ Reshaped (byteLayer [1, 0, 2, 3, 4] [24, 8, 2, 2, 1] 8) ∧
      (byteLayer [1, 0, 2, 3, 4] [24, 8, 2, 2, 1] 0).PagesDisjoint (byteLayer [1, 0, 2, 3, 4] [24, 8, 2, 2, 1] 8) ∧
      ¬(byteLayer [1, 0, 2, 3, 4] [24, 8, 2, 2, 1] 0).Confined ∧
      ¬(byteLayer [1, 0, 2, 3, 4] [24, 8, 2, 2, 1] 0).NoOverlap (byteLayer [1, 0, 2, 3, 4] [24, 8, 2, 2, 1] 8) := by
  have hindex : IsIndex [0, 1, 0, 0, 0] [2, 2, 2, 1, 2] := by
    unfold IsIndex
    decide
  have hfirst : IsIndex [0, 0, 0, 0, 0] [2, 2, 2, 1, 2] := by
    unfold IsIndex
    decide
  refine ⟨byteLayer_reshaped _ _ 0 rfl, byteLayer_reshaped _ _ 8 rfl, ?_, fun h => ?_, fun h => ?_⟩
  · unfold CacheLayout.PagesDisjoint
    decide
  · have := (h.within _ 0 hindex rfl).2.1
    revert this
    decide
  · have := h _ _ hindex hfirst
    revert this
    decide

end VllmHcu.Kv
