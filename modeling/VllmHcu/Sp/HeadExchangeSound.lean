import VllmHcu.Lib.RowMajor

/-!
# Where each head goes

Under sequence parallelism each rank projects its own tokens with all heads, the
attention layer runs on all tokens with the heads of one rank, and the output
goes back to the tokens' ranks. The exchange is collective: a function takes the
tensors of all ranks and yields the result of one.

An exchanged query head arrives on the rank that runs it, with the tokens in
rank order, and the output exchange sends it back. KV heads follow when every
rank owns some of them. A rank that replicates a KV head selects it for its own
tokens only and then gathers the selections of the others, so with two or more
replicated heads the gathered tokens belong to different heads.
-/

namespace VllmHcu.Sp

/-- A contiguous `(rows, cols)` tensor. -/
structure Tensor (α : Type) where
  rows : Nat
  cols : Nat
  data : Nat → α

def Tensor.get {α : Type} (x : Tensor α) (i j : Nat) : α := x.data (i * x.cols + j)

/-- `hcu_runtime_sp_enabled` and the tensor-parallel world size. -/
structure SpGroup where
  enabled : Bool
  spSize : Nat

section
variable {α : Type} (sp : SpGroup)

def gatherTokensForSp (x : Nat → Tensor α) (rank : Nat) : Tensor α :=
  if !sp.enabled then x rank
  else
    let rows := (x rank).rows
    let cols := (x rank).cols
    ⟨sp.spSize * rows, cols, allGather (rows * cols) fun s => (x s).data⟩

/-- Head `localHead` of every row, kept as a `(rows, head_dim)` tensor. -/
def Tensor.selectHead (x : Tensor α) (totalNumHeads headDim localHead : Nat) : Tensor α :=
  ⟨x.rows, headDim, sliceLast (totalNumHeads * headDim) (localHead * headDim) headDim x.data⟩

def tokenToHeadAll2allForSp (totalNumHeads headDim : Nat) (x : Nat → Tensor α) (rank : Nat) : Option (Tensor α) :=
  if !sp.enabled then some (x rank)
  else if totalNumHeads < sp.spSize then
    some (gatherTokensForSp sp (fun spRank =>
      (x spRank).selectHead totalNumHeads headDim (spRank % totalNumHeads)) rank)
  else if totalNumHeads % sp.spSize ≠ 0 then none
  else
    let localTokens := (x rank).rows
    let headsPerRank := totalNumHeads / sp.spSize
    let send := fun s => swapLeading localTokens sp.spSize (headsPerRank * headDim) (x s).data
    let recv := allToAllSingle (localTokens * (headsPerRank * headDim)) send rank
    some ⟨sp.spSize * localTokens, headsPerRank * headDim, recv⟩

def qkvTokenToHeadAll2allForSp (totalNumHeads totalNumKvHeads headDim : Nat) (q k v : Nat → Tensor α) (rank : Nat) :
    Option (Tensor α × Tensor α × Tensor α) :=
  if !sp.enabled then some (q rank, k rank, v rank)
  else if totalNumHeads % sp.spSize ≠ 0 ∨ totalNumKvHeads % sp.spSize ≠ 0 then do
    let q ← tokenToHeadAll2allForSp sp totalNumHeads headDim q rank
    let k ← tokenToHeadAll2allForSp sp totalNumKvHeads headDim k rank
    let v ← tokenToHeadAll2allForSp sp totalNumKvHeads headDim v rank
    return (q, k, v)
  else
    let localTokens := (q rank).rows
    let headsPerRank := totalNumHeads / sp.spSize
    let kvHeadsPerRank := totalNumKvHeads / sp.spSize
    let qSize := headsPerRank * headDim
    let kvSize := kvHeadsPerRank * headDim
    let qkv := fun s => catLast qSize (kvSize + kvSize) (q s).data (catLast kvSize kvSize (k s).data (v s).data)
    let width := qSize + (kvSize + kvSize)
    let send := fun s => swapLeading localTokens sp.spSize width (qkv s)
    let recv := allToAllSingle (localTokens * width) send rank
    let rows := sp.spSize * localTokens
    some (⟨rows, qSize, sliceLast width 0 qSize recv⟩,
      ⟨rows, kvSize, sliceLast width qSize kvSize recv⟩,
      ⟨rows, kvSize, sliceLast width (qSize + kvSize) kvSize recv⟩)

def headToTokenAll2allForSp (totalNumHeads headDim : Nat) (x : Nat → Tensor α) (rank : Nat) : Option (Tensor α) :=
  if !sp.enabled then some (x rank)
  else if totalNumHeads % sp.spSize ≠ 0 then none
  else if (x rank).rows % sp.spSize ≠ 0 then none
  else
    let headsPerRank := totalNumHeads / sp.spSize
    let localTokens := (x rank).rows / sp.spSize
    let width := headsPerRank * headDim
    let recv := allToAllSingle (localTokens * width) (fun s => (x s).data) rank
    some ⟨localTokens, totalNumHeads * headDim, swapLeading sp.spSize localTokens width recv⟩

def prepareAttentionInputsForSp (totalNumHeads totalNumKvHeads headDim : Nat) (q k v : Nat → Tensor α) (rank : Nat) :
    Option (Tensor α × Tensor α × Tensor α) :=
  qkvTokenToHeadAll2allForSp sp totalNumHeads totalNumKvHeads headDim q k v rank

def finalizeAttentionOutputForSp (totalNumHeads headDim : Nat) (attnOutput : Nat → Tensor α) (rank : Nat) :
    Option (Tensor α) :=
  headToTokenAll2allForSp sp totalNumHeads headDim attnOutput rank

end

/-- The head counts of the local attention layer, as the constructor of `Glm4MoeAttention` admits them. -/
def attentionHeads (tpSize totalNumHeads totalNumKvHeads : Nat) : Option (Nat × Nat) :=
  if totalNumHeads % tpSize ≠ 0 then none
  else if totalNumKvHeads ≥ tpSize then
    if totalNumKvHeads % tpSize ≠ 0 then none
    else some (totalNumHeads / tpSize, max 1 (totalNumKvHeads / tpSize))
  else if tpSize % totalNumKvHeads ≠ 0 then none
  else some (totalNumHeads / tpSize, max 1 (totalNumKvHeads / tpSize))

/-- The KV head that query head `h` uses in a layer of `numHeads` query and `numKvHeads` KV heads. -/
def kvHead (numHeads numKvHeads h : Nat) : Nat := h / (numHeads / numKvHeads)

section
variable {α : Type}

/-- Every rank below `sp` holds `tokens` tokens with `heads` heads. -/
def Sharded (sp : Nat) (x : Nat → Tensor α) (tokens heads headDim : Nat) : Prop :=
  ∀ s < sp, (x s).rows = tokens ∧ (x s).cols = heads * headDim

/-- Entry `d` of head `h` of token `t`. -/
def Tensor.entry (x : Tensor α) (headDim t h d : Nat) : α := x.get t (h * headDim + d)

/-- `y` holds the tokens of all ranks in rank order; for each `j < n` its head `place j` is head `head j` of `x`. -/
def Exchanged (sp tokens headDim n : Nat) (x : Nat → Tensor α) (y : Tensor α) (place head : Nat → Nat) : Prop :=
  ∀ s < sp, ∀ t < tokens, ∀ j < n, ∀ d < headDim,
    y.entry headDim (s * tokens + t) (place j) d = (x s).entry headDim t (head j) d

variable {sp H K T D hp r : Nat} {x y : Nat → Tensor α}

theorem Tensor.entry_eq {y : Tensor α} (h : y.cols = H * D) (t i d : Nat) :
    y.entry D t i d = y.data (t * (H * D) + (i * D + d)) := by
  unfold Tensor.entry Tensor.get
  rw [h]

theorem allToAll_swapped {w s t o : Nat} (y : Nat → Nat → α) (ht : t < T) (ho : o < w) :
    allToAllSingle (T * w) (fun s => swapLeading T sp w (y s)) r ((s * T + t) * w + o) =
      y s ((t * sp + r) * w + o) := by
  have hflat : (s * T + t) * w + o = s * (T * w) + (t * w + o) := by ring
  have hsend : r * (T * w) + (t * w + o) = (r * T + t) * w + o := by ring
  rw [hflat, allToAllSingle_apply _ _ (block_lt ht ho), hsend, swapLeading_apply _ ht ho]

theorem block_entry {s t j d : Nat} (hx : Sharded sp x T (sp * hp) D) (hs : s < sp) :
    (x s).data ((t * sp + r) * (hp * D) + (j * D + d)) = (x s).entry D t (r * hp + j) d := by
  rw [Tensor.entry_eq (hx s hs).2]
  congr 1
  ring

theorem head_lt {j d : Nat} (hj : j < hp) (hd : d < D) : j * D + d < hp * D := block_lt hj hd

theorem tokenToHead_heads (hr : r < sp) (hle : sp ≤ sp * hp) (hx : Sharded sp x T (sp * hp) D) :
    ∃ y, tokenToHeadAll2allForSp ⟨true, sp⟩ (sp * hp) D x r = some y ∧ y.rows = sp * T ∧ y.cols = hp * D ∧
      Exchanged sp T D hp x y id fun j => r * hp + j := by
  have hpos : 0 < sp := by omega
  refine ⟨⟨sp * T, hp * D, allToAllSingle (T * (hp * D)) (fun s => swapLeading T sp (hp * D) (x s).data) r⟩,
    ?_, rfl, rfl, ?_⟩
  · simp [tokenToHeadAll2allForSp, Nat.not_lt.mpr hle, (hx r hr).1, Nat.mul_div_cancel_left hp hpos]
  · intro s hs t ht j hj d hd
    rw [Tensor.entry_eq rfl]
    exact (allToAll_swapped (fun s => (x s).data) ht (head_lt hj hd)).trans (block_entry hx hs)

/-! ## The two routes in -/

section
variable {q k v : Nat → Tensor α}

theorem qkv_heads {w off n : Nat} {z : Nat → Nat → α} (hx : Sharded sp x T (sp * n) D)
    (hw : off + n * D ≤ w)
    (hz : ∀ s i o, o < n * D → z s (i * w + (off + o)) = (x s).data (i * (n * D) + o)) :
    Exchanged sp T D n x
      ⟨sp * T, n * D, sliceLast w off (n * D)
        (allToAllSingle (T * w) (fun s => swapLeading T sp w (z s)) r)⟩ id fun j => r * n + j := by
  intro s hs t ht j hj d hd
  have ho := head_lt hj hd
  rw [Tensor.entry_eq rfl]
  simp only [id]
  rw [sliceLast_apply _ ho, allToAll_swapped z ht (by omega), hz s _ _ ho]
  exact block_entry hx hs

/-- The joint rows that `s` sends. -/
def joined (hp n D : Nat) (q k v : Nat → Tensor α) (s : Nat) : Nat → α :=
  catLast (hp * D) (n * D + n * D) (q s).data (catLast (n * D) (n * D) (k s).data (v s).data)

theorem qkv_exchanged {n : Nat} (hr : r < sp) (hq : Sharded sp q T (sp * hp) D) (hk : Sharded sp k T (sp * n) D)
    (hv : Sharded sp v T (sp * n) D) :
    ∃ q' k' v', prepareAttentionInputsForSp ⟨true, sp⟩ (sp * hp) (sp * n) D q k v r = some (q', k', v') ∧
      (q'.rows = sp * T ∧ q'.cols = hp * D ∧ Exchanged sp T D hp q q' id fun j => r * hp + j) ∧
      (k'.rows = sp * T ∧ k'.cols = n * D ∧ Exchanged sp T D n k k' id fun j => r * n + j) ∧
      (v'.rows = sp * T ∧ v'.cols = n * D ∧ Exchanged sp T D n v v' id fun j => r * n + j) := by
  have hpos : 0 < sp := by omega
  let w := hp * D + (n * D + n * D)
  let recv := allToAllSingle (T * w) (fun s => swapLeading T sp w (joined hp n D q k v s)) r
  refine ⟨⟨sp * T, hp * D, sliceLast w 0 (hp * D) recv⟩, ⟨sp * T, n * D, sliceLast w (hp * D) (n * D) recv⟩,
    ⟨sp * T, n * D, sliceLast w (hp * D + n * D) (n * D) recv⟩, ?_, ⟨rfl, rfl, ?_⟩, ⟨rfl, rfl, ?_⟩, ⟨rfl, rfl, ?_⟩⟩
  · simp [prepareAttentionInputsForSp, qkvTokenToHeadAll2allForSp, Nat.mul_div_cancel_left _ hpos, (hq r hr).1,
      recv, w, joined]
  · refine qkv_heads hq (by omega) fun s i o ho => ?_
    rw [Nat.zero_add, joined, catLast_left _ _ ho]
  · refine qkv_heads hk (by omega) fun s i o ho => ?_
    rw [joined, catLast_right _ _ (by omega), catLast_left _ _ ho]
  · refine qkv_heads hv (by omega) fun s i o ho => ?_
    rw [joined, Nat.add_assoc, catLast_right _ _ (by omega), catLast_right _ _ ho]

/-- A replicated head: the tokens of rank `s` come with the head that `s` selected. -/
theorem tokenToHead_replicated (hr : r < sp) (hK : K < sp) (hx : Sharded sp x T K D) :
    ∃ y, tokenToHeadAll2allForSp ⟨true, sp⟩ K D x r = some y ∧ y.rows = sp * T ∧ y.cols = D ∧
      ∀ s < sp, ∀ t < T, ∀ d < D, y.entry D (s * T + t) 0 d = (x s).entry D t (s % K) d := by
  refine ⟨⟨sp * T, D, allGather (T * D) fun s => sliceLast (K * D) (s % K * D) D (x s).data⟩, ?_, rfl, rfl, ?_⟩
  · simp [tokenToHeadAll2allForSp, hK, gatherTokensForSp, Tensor.selectHead, (hx r hr).1]
  · intro s hs t ht d hd
    have hflat : (s * T + t) * D + (0 * D + d) = s * (T * D) + (t * D + d) := by ring
    have hone : (1 : Nat) * D = D := Nat.one_mul D
    rw [Tensor.entry_eq (H := 1) hone.symm, hone, Tensor.entry_eq (hx s hs).2, hflat]
    simp only []
    rw [allGather_apply _ (block_lt ht hd), sliceLast_apply _ hd]

end

/-! ## The way back -/

/-- `y` holds the tokens of rank `r` with the heads of all ranks in order. -/
def Returned (sp tokens headDim hp r : Nat) (x : Nat → Tensor α) (y : Tensor α) : Prop :=
  ∀ t < tokens, ∀ h < sp * hp, ∀ d < headDim,
    y.entry headDim t h d = (x (h / hp)).entry headDim (r * tokens + t) (h % hp) d

theorem finalize_returned (hr : r < sp) (hx : Sharded sp x (sp * T) hp D) :
    ∃ y, finalizeAttentionOutputForSp ⟨true, sp⟩ (sp * hp) D x r = some y ∧ y.rows = T ∧ y.cols = sp * hp * D ∧
      Returned sp T D hp r x y := by
  have hpos : 0 < sp := by omega
  refine ⟨⟨T, sp * hp * D, swapLeading sp T (hp * D)
    (allToAllSingle (T * (hp * D)) (fun s => (x s).data) r)⟩, ?_, rfl, rfl, ?_⟩
  · simp [finalizeAttentionOutputForSp, headToTokenAll2allForSp, (hx r hr).1, Nat.mul_div_cancel_left _ hpos]
  · intro t ht h hh d hd
    have hhp : 0 < hp := Nat.pos_of_ne_zero fun h0 => by simp [h0] at hh
    have hs : h / hp < sp := (Nat.div_lt_iff_lt_mul hhp).mpr hh
    have ho := head_lt (Nat.mod_lt h hhp) hd
    have hflat : t * (sp * hp * D) + (h * D + d) = (t * sp + h / hp) * (hp * D) + (h % hp * D + d) := by
      have hsplit : h * D = (h / hp * hp + h % hp) * D := by rw [Nat.div_add_mod' h hp]
      rw [hsplit]
      ring
    have hrecv : (h / hp * T + t) * (hp * D) + (h % hp * D + d) =
        h / hp * (T * (hp * D)) + (t * (hp * D) + (h % hp * D + d)) := by ring
    rw [Tensor.entry_eq rfl, hflat, Tensor.entry_eq (hx _ hs).2]
    simp only []
    rw [swapLeading_apply _ hs ho, hrecv, allToAllSingle_apply _ _ (block_lt ht ho)]
    congr 1
    ring

theorem returned_exchanged {z : Nat → Tensor α} {w : Tensor α} (hr : r < sp)
    (hz : ∀ s < sp, Exchanged sp T D hp x (z s) id fun j => s * hp + j) (hw : Returned sp T D hp r z w) :
    ∀ t < T, ∀ h < sp * hp, ∀ d < D, w.entry D t h d = (x r).entry D t h d := by
  intro t ht h hh d hd
  have hhp : 0 < hp := Nat.pos_of_ne_zero fun h0 => by simp [h0] at hh
  have hs : h / hp < sp := (Nat.div_lt_iff_lt_mul hhp).mpr hh
  rw [hw t ht h hh d hd]
  refine (hz _ hs r hr t ht _ (Nat.mod_lt h hhp) d hd).trans ?_
  simp only [Nat.div_add_mod' h hp]

end

/-! ## The pairing of heads -/

/-- The inputs of the attention layer of rank `r`, a layer of `nh` query and `nkv` KV heads: all tokens in
rank order, the query heads `r * nh ..`, and for each of them the KV head of the unsharded layer. -/
structure Prepared {α : Type} (sp H KV T D nh nkv r : Nat) (q k v : Nat → Tensor α) (q' k' v' : Tensor α) : Prop where
  queryShape : q'.rows = sp * T ∧ q'.cols = nh * D
  keyShape : k'.rows = sp * T ∧ k'.cols = nkv * D
  valueShape : v'.rows = sp * T ∧ v'.cols = nkv * D
  query : Exchanged sp T D nh q q' id fun j => r * nh + j
  key : Exchanged sp T D nh k k' (kvHead nh nkv) fun j => kvHead H KV (r * nh + j)
  value : Exchanged sp T D nh v v' (kvHead nh nkv) fun j => kvHead H KV (r * nh + j)

/-- Both directions of the exchange, for the attention layer of `nh` and `nkv` heads. -/
def KeepsHeads (α : Type) (sp H KV T D nh nkv : Nat) : Prop :=
  ∀ q k v : Nat → Tensor α, Sharded sp q T H D → Sharded sp k T KV D → Sharded sp v T KV D →
    ∃ q' k' v' : Nat → Tensor α,
      (∀ r < sp, prepareAttentionInputsForSp ⟨true, sp⟩ H KV D q k v r = some (q' r, k' r, v' r) ∧
        Prepared sp H KV T D nh nkv r q k v (q' r) (k' r) (v' r)) ∧
      (∀ r < sp, ∃ y, finalizeAttentionOutputForSp ⟨true, sp⟩ H D q' r = some y ∧
        y.rows = T ∧ y.cols = H * D ∧ ∀ t < T, ∀ h < H, ∀ d < D, y.entry D t h d = (q r).entry D t h d) ∧
      ∀ x : Nat → Tensor α, Sharded sp x (sp * T) nh D → ∀ r < sp, ∃ y, finalizeAttentionOutputForSp ⟨true, sp⟩ H D x r = some y ∧
        y.rows = T ∧ y.cols = H * D ∧ Returned sp T D nh r x y

section
variable {α : Type} {sp H KV T D nh nkv : Nat}

theorem attentionHeads_eq (hsp : 0 < sp) (h : attentionHeads sp H KV = some (nh, nkv)) :
    H = sp * nh ∧ (sp ≤ KV ∧ KV = sp * nkv ∧ 0 < nkv ∨ KV < sp ∧ nkv = 1) := by
  unfold attentionHeads at h
  have hdvd : H % sp = 0 := by
    by_contra hne
    simp [hne] at h
  have hH : H = sp * (H / sp) := (Nat.mul_div_cancel' (Nat.dvd_of_mod_eq_zero hdvd)).symm
  rw [if_neg (by simp [hdvd])] at h
  split at h
  · rename_i hle
    split at h
    · cases h
    · rename_i hmod
      have hK : sp * (KV / sp) = KV := Nat.mul_div_cancel' (Nat.dvd_of_mod_eq_zero (by simpa using hmod))
      have hpos : 0 < KV / sp := Nat.div_pos hle hsp
      have hmax : max 1 (KV / sp) = KV / sp := by omega
      rw [hmax] at h
      cases h
      exact ⟨hH, .inl ⟨hle, hK.symm, hpos⟩⟩
  · rename_i hlt
    split at h
    · cases h
    · have hzero : KV / sp = 0 := Nat.div_eq_of_lt (by omega)
      rw [hzero] at h
      cases h
      exact ⟨hH, .inr ⟨by omega, rfl⟩⟩

theorem keepsHeads_of_prepared (hrank : ∀ q k v : Nat → Tensor α, Sharded sp q T (sp * nh) D →
      Sharded sp k T KV D → Sharded sp v T KV D → ∀ r < sp, ∃ q' k' v',
        prepareAttentionInputsForSp ⟨true, sp⟩ (sp * nh) KV D q k v r = some (q', k', v') ∧
          Prepared sp (sp * nh) KV T D nh nkv r q k v q' k' v') :
    KeepsHeads α sp (sp * nh) KV T D nh nkv := by
  intro q k v hq hk hv
  have : Nonempty (Tensor α) := ⟨q 0⟩
  have hr := hrank q k v hq hk hv
  choose! q' k' v' hrun hprep using hr
  refine ⟨q', k', v', fun r hr => ⟨hrun r hr, hprep r hr⟩, fun r hr => ?_, fun x hx r hr => finalize_returned hr hx⟩
  obtain ⟨y, hy, hrows, hcols, hret⟩ := finalize_returned (T := T) hr fun s hs => (hprep s hs).queryShape
  exact ⟨y, hy, hrows, hcols, returned_exchanged hr (fun s hs => (hprep s hs).query) hret⟩

theorem Exchanged.reindex {x : Nat → Tensor α} {y : Tensor α} {n m : Nat} {head : Nat → Nat}
    (h : Exchanged sp T D n x y id head) {place : Nat → Nat} (hp : ∀ j < m, place j < n) {head' : Nat → Nat}
    (hh : ∀ j < m, head' j = head (place j)) : Exchanged sp T D m x y place head' := by
  intro s hs t ht j hj d hd
  rw [hh j hj]
  exact h s hs t ht (place j) (hp j hj) d hd

theorem owned_pairing {n m r : Nat} (hsp : 0 < sp) (hn : 0 < n) : ∀ j < n * m,
    kvHead (n * m) n j < n ∧ kvHead (sp * (n * m)) (sp * n) (r * (n * m) + j) = r * n + kvHead (n * m) n j := by
  intro j hj
  have hm : 0 < m := Nat.pos_of_ne_zero fun h0 => by simp [h0] at hj
  have hglobal : sp * (n * m) / (sp * n) = m := by
    rw [← Nat.mul_assoc, Nat.mul_div_cancel_left _ (Nat.mul_pos hsp hn)]
  have hlocal : n * m / n = m := Nat.mul_div_cancel_left m hn
  have hshift : r * (n * m) + j = j + r * n * m := by ring
  unfold kvHead
  rw [hglobal, hlocal, hshift, Nat.add_mul_div_right _ _ hm, Nat.add_comm]
  exact ⟨(Nat.div_lt_iff_lt_mul hm).mpr hj, rfl⟩

theorem keepsHeads_owned {n m : Nat} (hn : 0 < n) : KeepsHeads α sp (sp * (n * m)) (sp * n) T D (n * m) n := by
  refine keepsHeads_of_prepared fun q k v hq hk hv r hr => ?_
  obtain ⟨q', k', v', hrun, ⟨hqr, hqc, hq'⟩, ⟨hkr, hkc, hk'⟩, hvr, hvc, hv'⟩ := qkv_exchanged hr hq hk hv
  have hpair := fun j hj => @owned_pairing sp n m r (by omega) hn j hj
  exact ⟨q', k', v', hrun, ⟨hqr, hqc⟩, ⟨hkr, hkc⟩, ⟨hvr, hvc⟩, hq',
    hk'.reindex (fun j hj => (hpair j hj).1) fun j hj => (hpair j hj).2,
    hv'.reindex (fun j hj => (hpair j hj).1) fun j hj => (hpair j hj).2⟩

theorem prepare_replicated {q k v : Nat → Tensor α} {r : Nat} (hr : r < sp) (hnh : 0 < nh) (hKV : 0 < KV) (hlt : KV < sp)
    (hq : Sharded sp q T (sp * nh) D) (hk : Sharded sp k T KV D) (hv : Sharded sp v T KV D) :
    ∃ q' k' v', prepareAttentionInputsForSp ⟨true, sp⟩ (sp * nh) KV D q k v r = some (q', k', v') ∧
      (q'.rows = sp * T ∧ q'.cols = nh * D ∧ Exchanged sp T D nh q q' id fun j => r * nh + j) ∧
      (k'.rows = sp * T ∧ k'.cols = D ∧
        ∀ s < sp, ∀ t < T, ∀ d < D, k'.entry D (s * T + t) 0 d = (k s).entry D t (s % KV) d) ∧
      (v'.rows = sp * T ∧ v'.cols = D ∧
        ∀ s < sp, ∀ t < T, ∀ d < D, v'.entry D (s * T + t) 0 d = (v s).entry D t (s % KV) d) := by
  obtain ⟨q', hq', hqs⟩ := tokenToHead_heads hr (Nat.le_mul_of_pos_right sp hnh) hq
  obtain ⟨k', hk', hks⟩ := tokenToHead_replicated hr hlt hk
  obtain ⟨v', hv', hvs⟩ := tokenToHead_replicated hr hlt hv
  refine ⟨q', k', v', ?_, hqs, hks, hvs⟩
  have hmod : KV % sp ≠ 0 := by
    rw [Nat.mod_eq_of_lt hlt]
    omega
  simp [prepareAttentionInputsForSp, qkvTokenToHeadAll2allForSp, hmod, hq', hk', hv']

theorem keepsHeads_single (hnh : 0 < nh) (hlt : 1 < sp) : KeepsHeads α sp (sp * nh) 1 T D nh 1 := by
  refine keepsHeads_of_prepared fun q k v hq hk hv r hr => ?_
  obtain ⟨q', k', v', hrun, ⟨hqr, hqc, hq'⟩, ⟨hkr, hkc, hk'⟩, hvr, hvc, hv'⟩ :=
    prepare_replicated hr hnh Nat.one_pos hlt hq hk hv
  have hlocal : ∀ j < nh, kvHead nh 1 j = 0 := fun j hj => by
    rw [kvHead, Nat.div_one, Nat.div_eq_of_lt hj]
  have hglobal : ∀ j < nh, kvHead (sp * nh) 1 (r * nh + j) = 0 := fun j hj => by
    rw [kvHead, Nat.div_one, Nat.div_eq_of_lt (block_lt hr hj)]
  refine ⟨q', k', v', hrun, ⟨hqr, hqc⟩, ⟨hkr, by rw [hkc, Nat.one_mul]⟩, ⟨hvr, by rw [hvc, Nat.one_mul]⟩, hq', ?_, ?_⟩
  · intro s hs t ht j hj d hd
    simp only [hlocal j hj, hglobal j hj]
    simpa [Nat.mod_one] using hk' s hs t ht d hd
  · intro s hs t ht j hj d hd
    simp only [hlocal j hj, hglobal j hj]
    simpa [Nat.mod_one] using hv' s hs t ht d hd

theorem keepsHeads_empty (hnh : 0 < nh) (hKV : 0 < KV) (hlt : KV < sp) (hnone : T = 0 ∨ D = 0) :
    KeepsHeads α sp (sp * nh) KV T D nh 1 := by
  refine keepsHeads_of_prepared fun q k v hq hk hv r hr => ?_
  obtain ⟨q', k', v', hrun, ⟨hqr, hqc, hq'⟩, ⟨hkr, hkc, -⟩, hvr, hvc, -⟩ := prepare_replicated hr hnh hKV hlt hq hk hv
  refine ⟨q', k', v', hrun, ⟨hqr, hqc⟩, ⟨hkr, by rw [hkc, Nat.one_mul]⟩, ⟨hvr, by rw [hvc, Nat.one_mul]⟩, hq', ?_, ?_⟩
  · intro s hs t ht j hj d hd
    omega
  · intro s hs t ht j hj d hd
    omega

/-- The keys of every rank, with `a` in head 1 and `b` in every other head. -/
def markedKeys (T KV D : Nat) (a b : α) : Nat → Tensor α :=
  fun _ => ⟨T, KV * D, fun n => if n / D % KV = 1 then a else b⟩

theorem markedKeys_entry {a b : α} {s t h d : Nat} (hh : h < KV) (hd : d < D) :
    (markedKeys T KV D a b s).entry D t h d = if h = 1 then a else b := by
  have hflat : t * (KV * D) + (h * D + d) = (t * KV + h) * D + d := by ring
  rw [Tensor.entry_eq rfl, hflat]
  simp only [markedKeys, block_div hd, block_mod hh]

/-- The second rank contributes its tokens with KV head 1; the first rank runs them under KV head 0. -/
theorem not_keepsHeads_replicated [Nontrivial α] (hnh : 0 < nh) (hKV : 1 < KV) (hlt : KV < sp) (hT : 0 < T)
    (hD : 0 < D) : ¬ KeepsHeads α sp (sp * nh) KV T D nh 1 := by
  intro hkeep
  obtain ⟨a, b, hab⟩ := exists_pair_ne α
  have hsh : ∀ n, Sharded sp (markedKeys T n D a b) T n D := fun n s hs => ⟨rfl, rfl⟩
  obtain ⟨q', k', v', hprep, -⟩ := hkeep (markedKeys T (sp * nh) D a b) (markedKeys T KV D a b)
    (markedKeys T KV D a b) (hsh _) (hsh _) (hsh _)
  obtain ⟨hrun, hp⟩ := hprep 0 (by omega)
  obtain ⟨q₂, k₂, v₂, hrun₂, -, ⟨-, -, hk⟩, -⟩ := prepare_replicated (r := 0) (by omega) hnh (by omega) hlt (hsh _)
    (hsh _) (hsh _)
  rw [hrun] at hrun₂
  cases hrun₂
  have hcode := hk 1 (by omega) 0 hT 0 hD
  have hclaim := hp.key 1 (by omega) 0 hT 0 hnh 0 hD
  simp only [kvHead, Nat.zero_mul, Nat.zero_div, Nat.zero_add] at hclaim
  rw [hclaim, markedKeys_entry (by omega) hD, Nat.mod_eq_of_lt hKV, markedKeys_entry hKV hD] at hcode
  exact hab (by simpa using hcode.symm)

/-- Heads are paired as in the unsharded layer unless two or more KV heads are replicated. -/
theorem keepsHeads_iff [Nontrivial α] (hsp : 0 < sp) (hH : 0 < H) (hKV : 0 < KV) (hdvd : KV ∣ H)
    (h : attentionHeads sp H KV = some (nh, nkv)) :
    KeepsHeads α sp H KV T D nh nkv ↔ sp ≤ KV ∨ KV = 1 ∨ T = 0 ∨ D = 0 := by
  obtain ⟨rfl, ⟨hle, rfl, hnkv⟩ | ⟨hlt, rfl⟩⟩ := attentionHeads_eq hsp h
  · obtain ⟨m, rfl⟩ : nkv ∣ nh := Nat.dvd_of_mul_dvd_mul_left hsp hdvd
    exact iff_of_true (keepsHeads_owned hnkv) (.inl hle)
  · have hnh : 0 < nh := Nat.pos_of_ne_zero fun h0 => by simp [h0] at hH
    constructor
    · intro hkeep
      by_contra hbad
      have hmany : 1 < KV := by omega
      exact not_keepsHeads_replicated hnh hmany hlt (by omega) (by omega) hkeep
    · rintro (hle | rfl | hnone)
      · omega
      · exact keepsHeads_single hnh hlt
      · exact keepsHeads_empty hnh hKV hlt hnone

theorem keepsHeads_eight_over_two : KeepsHeads Nat 2 8 4 3 64 4 2 :=
  (keepsHeads_iff (by decide) (by decide) (by decide) (by decide) (by decide)).mpr (.inl (by decide))

theorem two_kv_heads_over_four : attentionHeads 4 8 2 = some (2, 1) ∧ ¬ KeepsHeads Nat 4 8 2 1 1 2 1 := by
  refine ⟨by decide, ?_⟩
  have hbad : ¬ KeepsHeads Nat 4 (4 * 2) 2 1 1 2 1 :=
    not_keepsHeads_replicated (by decide) (by decide) (by decide) (by decide) (by decide)
  exact hbad

end

end VllmHcu.Sp
