import VllmHcu.KimiK3.SpMoe
import VllmHcu.Lib.Stride

/-!
# The sharded layer is the replicated layer

Every tensor of the row-sharded part is related by `Sharded` to the tensor of the
replicated layer at the same point. The relation says nothing about padding rows,
so each row-wise step keeps it, whatever it makes of them.
-/

namespace VllmHcu.KimiK3

theorem shardRows_eq (n : Nat) {tp : Nat} (htp : 0 < tp) : shardRows n tp = cdiv n tp := by
  have hfloor : -(-(n : Int) / (tp : Int)) = ((cdiv n tp : Nat) : Int) := by
    have hle := le_cdiv_mul n htp
    have hlt : cdiv n tp * tp < n + tp := by
      unfold cdiv
      have := Nat.div_mul_le_self (n + tp - 1) tp
      omega
    have hdiv : -(n : Int) / (tp : Int) = -((cdiv n tp : Nat) : Int) := by
      refine (Int.ediv_eq_iff_of_pos (by exact_mod_cast htp)).mpr ?_
      have hle' : (n : Int) ≤ (cdiv n tp : Nat) * tp := by exact_mod_cast hle
      have hlt' : ((cdiv n tp : Nat) : Int) * tp < n + tp := by exact_mod_cast hlt
      rw [Int.neg_mul]
      omega
    rw [hdiv, Int.neg_neg]
  rw [shardRows, hfloor, Int.toNat_natCast]

theorem le_shardRows_mul (n : Nat) {tp : Nat} (htp : 0 < tp) : n ≤ tp * shardRows n tp := by
  rw [shardRows_eq n htp, Nat.mul_comm]
  exact le_cdiv_mul n htp

/-! ## The padding mask -/

/-- The window of a rank is marked where the bitmap is, and past its end. -/
theorem windowMask_spec (mask : List Bool) {shard tp r i : Nat} (hr : r < tp) (hi : i < shard) :
    (windowSpPaddingMask mask shard (some (r, tp)))[i]? = some (mask.getD (r * shard + i) true) := by
  have hlt : r * shard + i < shard * tp := by
    rw [Nat.mul_comm shard]
    exact block_lt hr hi
  rw [windowSpPaddingMask]
  simp only [sliceAt, List.getElem?_take, if_pos hi, List.getElem?_drop, if_pos hlt]
  by_cases hshort : mask.length < shard * tp
  · rw [if_pos hshort, padRows]
    by_cases hin : r * shard + i < mask.length
    · rw [List.getElem?_append_left hin]
      simp [hin]
    · have hrep : r * shard + i - mask.length < shard * tp - mask.length := by omega
      rw [List.getElem?_append_right (by omega), List.getElem?_replicate, if_pos hrep,
        List.getD_eq_getElem?_getD, List.getElem?_eq_none (by omega)]
      rfl
  · rw [if_neg hshort]
    have hin : r * shard + i < mask.length := by omega
    simp [hin]

theorem windowMask_length (mask : List Bool) {shard tp r : Nat} (hr : r < tp) :
    (windowSpPaddingMask mask shard (some (r, tp))).length = shard := by
  have hend : r * shard + shard ≤ shard * tp := by
    rw [← Nat.succ_mul, Nat.mul_comm shard]
    exact Nat.mul_le_mul_right _ hr
  rw [windowSpPaddingMask]
  by_cases hshort : mask.length < shard * tp
  · simp only [if_pos hshort, sliceAt, padRows, List.length_take, List.length_drop, List.length_append,
      List.length_replicate]
    omega
  · simp only [if_neg hshort, sliceAt, List.length_take, List.length_drop]
    omega

/-- The masked rows of the windows are the masked rows of the batch. -/
theorem maskedRows_sharded {isPadding : Option (List Bool)} {n shard tp : Nat}
    (hmask : ∀ mask, isPadding = some mask → n ≤ mask.length) (hn : n ≤ tp * shard) :
    Sharded tp shard n (fun r => maskedRows isPadding shard (some (r, tp))) (maskedRows isPadding n none) := by
  cases isPadding with
  | none =>
    exact Sharded.replicate hn false
  | some mask =>
    have hle := hmask mask rfl
    have hfull : maskedRows (some mask) n none = mask.take n := by
      simp only [maskedRows, Option.map_some, windowSpPaddingMask, if_pos hle]
    have hloc : ∀ r < tp, maskedRows (some mask) shard (some (r, tp)) = windowSpPaddingMask mask shard (some (r, tp)) := by
      intro r hr
      have hlen : (windowSpPaddingMask mask shard (some (r, tp))).length = shard := windowMask_length mask hr
      simp only [maskedRows, Option.map_some, hlen, le_refl, if_true]
      exact List.take_of_length_le hlen.le
    have hflen : (mask.take n).length = n := by simp [hle]
    rw [hfull]
    refine ⟨hn, hflen, fun r hr => ?_, fun r hr i hi hlt => ?_⟩
    · rw [hloc r hr, windowMask_length mask hr]
    · have hin : r * shard + i < mask.length := lt_of_lt_of_le hlt hle
      rw [hloc r hr, windowMask_spec mask hr hi, List.getElem?_take, if_pos hlt]
      simp [hin]

/-! ## The windows -/

section
variable {n shard tp : Nat}

theorem windowIdx_getElem? {r i : Nat} (hi : i < shard) : (windowIdx shard r)[i]? = some (r * shard + i) := by
  rw [windowIdx, List.getElem?_range' hi, Nat.one_mul]

theorem selectWindow_sharded {α : Type} [Zero α] {x : List α} (hn : x.length = n) (hcov : n ≤ tp * shard) :
    Sharded tp shard n (fun r => selectWindow n shard r x) x where
  covers := hcov
  rows := hn
  length r _ := by simp [selectWindow, indexSelect, windowIdx]
  row r _ i hi hlt := by
    have hmin : min (r * shard + i) (n - 1) = r * shard + i := by omega
    simp only [selectWindow, indexSelect, List.getElem?_map, windowIdx_getElem? hi, Option.map_some, hmin]
    have hin : r * shard + i < x.length := by rwa [hn]
    simp [hin]

variable {H : Type}

theorem attnRes_sharded (kernel : H → (Nat → H) → Int → H) {p : Nat → List H} {b : Nat → List (Nat → H)} {full : List H}
    {blocks : List (Nat → H)} (hp : Sharded tp shard n p full) (hb : Sharded tp shard n b blocks) (valid : Int) :
    Sharded tp shard n (fun r => attnRes kernel (p r) (b r) valid) (attnRes kernel full blocks valid) := by
  unfold attnRes
  by_cases hv : valid ≤ 0
  · simpa only [if_pos hv] using hp
  · simpa only [if_neg hv] using hp.zipWith hb _

theorem attnRes_length (kernel : H → (Nat → H) → Int → H) {p : List H} {b : List (Nat → H)} (h : b.length = p.length)
    (valid : Int) : (attnRes kernel p b valid).length = p.length := by
  unfold attnRes
  by_cases hv : valid ≤ 0
  · rw [if_pos hv]
  · rw [if_neg hv, List.length_zipWith, h, Nat.min_self]

/-- The rows that enter attention and the residual tensors keep the token count. -/
theorem enterLayer_lengths (layer : DecoderLayer H) {hidden : List H} {residual : List (Nat → H)}
    (h : residual.length = hidden.length) {p : Option (List H)} {b : List (Nat → H)} {x : List H}
    (he : enterLayer layer hidden residual = (p, b, x)) :
    (∀ q, p = some q → q.length = hidden.length) ∧ b.length = hidden.length ∧ x.length = hidden.length := by
  rw [enterLayer] at he
  have hx := attnRes_length layer.selfAttentionRes h layer.prevValidBlocks
  by_cases hw : layer.isBlockWriteLayer = true
  · rw [if_pos hw] at he
    obtain ⟨rfl, rfl, rfl⟩ := he
    simp [h, hx]
  · rw [if_neg hw] at he
    obtain ⟨rfl, rfl, rfl⟩ := he
    simp [h, hx]

variable [NonAssocSemiring H]

/-- The mask of the padding rows keeps the real rows. -/
theorem keep_sharded {x : Nat → List H} {full : List H} (h : Sharded tp shard n x full) :
    Sharded tp shard n (fun r => List.zipWith (· * ·) (x r) (keep H n shard r)) full := by
  refine h.of_sameRows fun r hr => ⟨?_, fun i hi hlt => ?_⟩
  · simp [h.length r hr, keep, windowIdx]
  · have hlen := h.length r hr
    have hx : i < (x r).length := by rwa [hlen]
    simp only [List.getElem?_zipWith, keep, List.getElem?_map, windowIdx_getElem? hi, Option.map_some, if_pos hlt,
      List.getElem?_eq_getElem hx, mul_one]

/-! ## The steps of the layer -/

variable (layer : DecoderLayer H) {isPadding : Option (List Bool)}

/-- The residual stream and the rows before the norm, after attention. -/
theorem spResidual_sharded {p : Option (List H)} {b : List (Nat → H)} {local' : Nat → List H} {attn : List H}
    (hp : ∀ q, p = some q → q.length = n) (hb : b.length = n) (h : Sharded tp shard n local' attn) :
    Sharded tp shard n (fun r => (spResidual layer n shard r p b (local' r)).1) (addAttn p attn) ∧
    Sharded tp shard n (fun r => (spResidual layer n shard r p b (local' r)).2)
      (attnRes layer.mlpRes (addAttn p attn) b (mlpValidBlocks layer)) := by
  have hsum : Sharded tp shard n (fun r => (spResidual layer n shard r p b (local' r)).1) (addAttn p attn) := by
    cases p with
    | none =>
      refine h.congr fun r _ => ?_
      rw [spResidual]
      split <;> rfl
    | some q =>
      have hq := keep_sharded (selectWindow_sharded (hp q rfl) h.covers)
      refine (hq.zipWith h (· + ·)).congr fun r _ => ?_
      rw [spResidual]
      split <;> rfl
  refine ⟨hsum, ?_⟩
  by_cases hv : mlpValidBlocks layer ≤ 0
  · rw [attnRes, if_pos hv]
    refine hsum.congr fun r _ => ?_
    simp only [spResidual, if_pos hv]
  · have hres := attnRes_sharded layer.mlpRes hsum (selectWindow_sharded hb h.covers) (mlpValidBlocks layer)
    refine (keep_sharded hres).congr fun r _ => ?_
    simp only [spResidual, if_neg hv]

/-- The experts of the local rows give the rows of the experts on the full tensor. -/
theorem spMlp_sharded (htp : 0 < tp) (hmask : ∀ mask, isPadding = some mask → n ≤ mask.length) {x : Nat → List H}
    {full : List H} (h : Sharded tp shard n x full) :
    Sharded tp shard n (spMlp layer tp isPadding x) (mlp layer tp isPadding full) := by
  have hrouted : Sharded tp shard n (fun r => routedExperts layer isPadding (some (r, tp)) (x r))
      (routedExperts layer isPadding none full) := by
    have hrows := (maskedRows_sharded hmask h.covers).zipWith h layer.experts
    rw [routedExperts, h.rows]
    refine hrows.congr fun r hr => ?_
    rw [routedExperts, h.length r hr]
  cases hs : layer.sharedExperts with
  | none =>
    simp only [mlp, hs]
    refine hrouted.congr fun r _ => ?_
    simp only [spMlp, hs]
  | some shared =>
    have hlen : ∀ q < tp, ((allGatherRows tp x).map (shared q)).length = tp * shard := by
      intro q _
      rw [List.length_map, allGatherRows_length h.length]
    have htake : ∀ q < tp, ((allGatherRows tp x).map (shared q)).take n = full.map (shared q) := by
      intro q _
      rw [← List.map_take, h.gather]
    have hshared := Sharded.reduceScatter htp hlen htake h.covers
    simp only [mlp, hs]
    refine (hrouted.zipWith hshared (· + ·)).congr fun r _ => ?_
    simp only [spMlp, hs, spSharedForward]

/-- The residual stream after the experts. -/
theorem spPrefixLocal_sharded (htp : 0 < tp) (hmask : ∀ mask, isPadding = some mask → n ≤ mask.length)
    {locals : Nat → List H × List H} {p x : List H} (hp : Sharded tp shard n (fun r => (locals r).1) p)
    (hx : Sharded tp shard n (fun r => (locals r).2) x) :
    Sharded tp shard n (spPrefixLocal layer tp isPadding locals)
      (List.zipWith (· + ·) p (mlp layer tp isPadding (x.map layer.postAttentionLayernorm))) :=
  hp.zipWith (spMlp_sharded layer htp hmask (hx.map layer.postAttentionLayernorm)) (· + ·)

/-- The scattered attention output. -/
theorem spAttnLocal_sharded (htp : 0 < tp) {positions : List Int} {normed : List H} (hn : normed.length = n)
    (hattn : ∀ r < tp, (layer.runSelfAttn r positions normed).length = normed.length) :
    Sharded tp (shardRows n tp) n (spAttnLocal layer tp positions normed n)
      (allReduceRows tp fun r => layer.runSelfAttn r positions normed) := by
  have hcov := le_shardRows_mul n htp
  refine Sharded.reduceScatter htp (fun q hq => ?_) (fun q hq => ?_) hcov
  · rw [padRows, List.length_append, List.length_replicate, hattn q hq, hn, Nat.mul_comm _ tp]
    omega
  · rw [padRows, List.take_append_of_le_length (by rw [hattn q hq, hn])]
    exact List.take_of_length_le (by rw [hattn q hq, hn])

/-- On every rank the sharded layer returns what the replicated layer returns. The shards
are equal in size, the padding rows of any of them can be anything, and the window of the
padding bitmap marks what the bitmap marks and all that it does not reach. -/
theorem sp_layer_refines (htp : 0 < tp) (hmask : ∀ mask, isPadding = some mask → n ≤ mask.length)
    {positions : List Int} {hidden : List H} {residual : List (Nat → H)} (hn : hidden.length = n)
    (hres : residual.length = n) (hattn : ∀ r < tp, ∀ x, (layer.runSelfAttn r positions x).length = x.length) :
    let S := shardRows n tp
    let entered := enterLayer layer hidden residual
    let attnLocal := spAttnLocal layer tp positions entered.2.2 n
    let residuals := fun (attn : Nat → List H) r => spResidual layer n S r entered.1 entered.2.1 (attn r)
    let reference := forwardAttnResidual layer tp isPadding positions hidden residual
    (∀ state : SpState, (state.checked = true ∨ checkRunner state.runner = .ok ()) →
      spForwardAttnResidual layer tp isPadding state positions hidden residual =
        .ok ({ state with checked := true }, reference)) ∧
    (∀ r < tp, (attnLocal r).length = S ∧ (residuals attnLocal r).1.length = S ∧
      (residuals attnLocal r).2.length = S ∧ (spPrefixLocal layer tp isPadding (residuals attnLocal) r).length = S) ∧
    (∀ attn', SameRows tp S n attn' attnLocal →
      spGather tp n (spPrefixLocal layer tp isPadding (residuals attn')) = reference.1) ∧
    (∀ locals' : Nat → List H × List H, SameRows tp S n (fun r => (locals' r).1) (fun r => (residuals attnLocal r).1) →
      SameRows tp S n (fun r => (locals' r).2) (fun r => (residuals attnLocal r).2) →
      spGather tp n (spPrefixLocal layer tp isPadding locals') = reference.1) ∧
    (∀ final', SameRows tp S n final' (spPrefixLocal layer tp isPadding (residuals attnLocal)) →
      spGather tp n final' = reference.1) ∧
    ∀ mask : List Bool, mask.length ≤ tp * S → ∀ r < tp, ∀ i < S,
      (windowSpPaddingMask mask S (some (r, tp)))[i]? = some (mask.getD (r * S + i) true) := by
  intro S entered attnLocal residuals reference
  obtain ⟨hp, hb, hx⟩ := enterLayer_lengths layer (hres.trans hn.symm) (rfl : enterLayer layer hidden residual = entered)
  rw [hn] at hp hb hx
  have hlocal : Sharded tp S n attnLocal (allReduceRows tp fun r => layer.runSelfAttn r positions entered.2.2) :=
    spAttnLocal_sharded layer htp hx fun r hr => hattn r hr entered.2.2
  -- the steps after any sharding of the attention output
  have hafter : ∀ attn', Sharded tp S n attn' (allReduceRows tp fun r => layer.runSelfAttn r positions entered.2.2) →
      Sharded tp S n (spPrefixLocal layer tp isPadding (residuals attn')) reference.1 := by
    intro attn' h
    obtain ⟨hsum, hhidden⟩ := spResidual_sharded layer hp hb h
    exact spPrefixLocal_sharded layer htp hmask hsum hhidden
  obtain ⟨hsum, hhidden⟩ := spResidual_sharded layer hp hb hlocal
  refine ⟨fun state hcheck => ?_, fun r hr => ⟨hlocal.length r hr, hsum.length r hr, hhidden.length r hr,
    (hafter _ hlocal).length r hr⟩, fun attn' h => (hafter _ (hlocal.of_sameRows h)).gather, fun locals' h₁ h₂ => ?_,
    fun final' h => ((hafter _ hlocal).of_sameRows h).gather, fun mask _ r hr i hi => windowMask_spec mask hr hi⟩
  · have hrows : spGather tp n (spPrefixLocal layer tp isPadding (residuals attnLocal)) = reference.1 :=
      (hafter _ hlocal).gather
    have hresult := congrArg (fun rows => (Except.ok ({ state with checked := true }, rows, entered.2.1) :
      Except String (SpState × List H × List (Nat → H)))) hrows
    subst hn
    by_cases hdone : state.checked = true
    · simp only [spForwardAttnResidual, hdone]
      exact hresult
    · have hok := hcheck.resolve_left hdone
      simp only [spForwardAttnResidual, hdone, hok]
      exact hresult
  · exact (spPrefixLocal_sharded layer htp hmask (hsum.of_sameRows h₁) (hhidden.of_sameRows h₂)).gather

end

/-- A block-write layer of integer rows, whose attention and shared experts add up over the ranks. -/
def integerLayer : DecoderLayer Int where
  isBlockWriteLayer := true
  blockWriteIdx := 1
  prevValidBlocks := 1
  selfAttentionRes row blocks valid := row + blocks 0 * valid
  mlpRes row blocks valid := row + blocks 1 * valid
  inputLayernorm row := 2 * row
  postAttentionLayernorm row := row + 1
  runSelfAttn rank _ rows := rows.map fun row => row * (rank + 1)
  experts masked row := if masked then 0 else 3 * row
  sharedExperts := some fun rank row => row - rank

theorem sp_layer_refines_three :
    spForwardAttnResidual integerLayer 2 (some [false, false, true])
        ⟨⟨1, false, false, true, false, false⟩, false⟩ [0, 1, 2] [5, 6, 7] [fun _ => 1, fun _ => 2, fun _ => 3] =
      .ok (⟨⟨1, false, false, true, false, false⟩, true⟩,
        forwardAttnResidual integerLayer 2 (some [false, false, true]) [0, 1, 2] [5, 6, 7]
          [fun _ => 1, fun _ => 2, fun _ => 3]) :=
  (sp_layer_refines integerLayer (n := 3) (by decide) (fun mask h => by cases h; decide) rfl rfl
    (fun r _ x => List.length_map ..)).1 _ (.inr rfl)

end VllmHcu.KimiK3
