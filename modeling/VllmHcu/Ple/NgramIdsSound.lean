import VllmHcu.Ple.NgramIds
import VllmHcu.Lib.RowMajor
import Mathlib.Algebra.Order.BigOperators.Group.List
import Mathlib.Data.List.GetD

/-!
# N-gram ids do not depend on the chunks

The loop over predecessors reads the sequence of the request wherever a token
stands, and its latch is the first EOS among the predecessors. The id is a
function of the sequence and the position alone.
-/

namespace VllmHcu.Ple

/-! ## The remainder -/

theorem toInt_bounds (x : BitVec 64) : -(2 ^ 63) ≤ x.toInt ∧ x.toInt < 2 ^ 63 := by
  have := BitVec.two_mul_toInt_lt (x := x)
  have := BitVec.le_two_mul_toInt (x := x)
  norm_num at *
  omega

/-- The corrected machine remainder is the remainder with the sign of the size. -/
theorem remainder_eq_smod (x : BitVec 64) {size : BitVec 64} (hsize : 0 < size.toInt) :
    NgramCall.remainder x size = x.smod size := by
  have hr := BitVec.toInt_srem x size
  have hsmall : (x.srem size).toInt < size.toInt ∧ -size.toInt < (x.srem size).toInt := by
    rw [hr]
    exact ⟨Int.tmod_lt_of_pos _ hsize, Int.lt_tmod_of_pos _ hsize⟩
  have hfmod : x.toInt.fmod size.toInt = x.toInt % size.toInt := Int.fmod_eq_emod_of_nonneg _ hsize.le
  have hb := toInt_bounds size
  apply BitVec.eq_of_toInt_eq
  rw [BitVec.toInt_smod, hfmod, NgramCall.remainder]
  simp only [BitVec.slt, BitVec.toInt_zero, decide_eq_true_eq]
  split
  · rename_i hneg
    have hadd : (x.srem size + size).toInt = (x.srem size).toInt + size.toInt := by
      rw [BitVec.toInt_add]
      apply Int.bmod_eq_of_le <;> norm_num <;> omega
    rw [hadd, hr]
    rw [hr] at hneg hsmall
    refine ((Int.emod_eq_iff (by omega)).mpr ⟨by omega, by omega, ?_⟩).symm
    rw [add_sub_right_comm]
    exact Int.dvd_add Int.dvd_tmod_sub_self (Int.dvd_refl _)
  · rename_i hpos
    rw [hr] at hpos hsmall ⊢
    refine ((Int.emod_eq_iff (by omega)).mpr ⟨by omega, by omega, ?_⟩).symm
    exact Int.dvd_tmod_sub_self

/-! ## The loop over predecessors -/

/-- The query starts are the row starts of the chunks. -/
theorem Chunks.Describes.rows {b : Chunks} {c : NgramCall} (h : b.Describes c) : RowSearch.Rows c.queryStartLoc c.numReqs := by
  refine ⟨h.zero, fun r hr => ?_⟩
  rw [h.next r (h.numReqs ▸ hr)]
  exact Nat.le_add_right ..

section
variable {b : Chunks} {c : NgramCall} (h : b.Describes c) {r j : Nat} (hr : r < b.numReqs) (hj : j < b.len r)
include h hr hj

theorem req_of_chunk : c.req (c.queryStartLoc r + j) = r := by
  have hrows := h.rows
  have hr' : r < c.numReqs := h.numReqs ▸ hr
  have hnext := h.next r hr
  have hend := hrows.le_of_le (r + 1) c.numReqs (by omega) (Nat.le_refl _)
  obtain ⟨hlt, hl, hu⟩ := RowSearch.findRow_spec hrows (show c.queryStartLoc r + j < c.queryStartLoc c.numReqs by omega)
    (Nat.lt_size_self c.numReqs)
  exact hrows.row_unique hlt hr' hl hu (by omega) (by omega)

/-- A predecessor is read from the chunk or from the context row, and is that of the sequence. -/
theorem candidate_eq {shift : Nat} (hpos : 1 ≤ shift) (hshift : shift ≤ c.ctxLen) :
    c.candidate (c.queryStartLoc r + j) shift = predecessor (b.tokens r) c.eosTokenId (b.start r + j) shift := by
  have hchunk : c.chunkPos (c.queryStartLoc r + j) = j := by
    rw [NgramCall.chunkPos, req_of_chunk h hr hj]
    omega
  rw [NgramCall.candidate, hchunk, req_of_chunk h hr hj, predecessor]
  by_cases hin : shift ≤ j
  · have hidx : c.queryStartLoc r + j - shift = c.queryStartLoc r + (j - shift) := by omega
    have hpos : b.start r + (j - shift) = b.start r + j - shift := by omega
    rw [if_pos (by omega), if_pos (by omega), hidx, h.inputs r hr (j - shift) (by omega), hpos]
  · have hcol : ((c.ctxLen : Int) - shift + j).toNat = c.ctxLen - shift + j := by omega
    rw [if_neg (by omega), hcol, h.context r hr _ (by omega)]
    by_cases hstart : shift ≤ b.start r + j
    · have hpos : b.start r + (c.ctxLen - shift + j) - c.ctxLen = b.start r + j - shift := by omega
      rw [if_pos (by omega), if_pos hstart, hpos]
    · rw [if_neg (by omega), if_neg hstart]

end

section
variable (tokens : Nat → Nat) (eos : Nat)

theorem hashedToken_zero (p : Nat) : hashedToken tokens eos p 0 = tokens p := by
  simp [hashedToken, predecessor]

theorem hashWord_succ (multipliers : Nat → BitVec 64) (p n : Nat) :
    hashWord tokens eos multipliers p (n + 1) =
      hashWord tokens eos multipliers p n ^^^ BitVec.ofNat 64 (hashedToken tokens eos p n) * multipliers n := by
  rw [hashWord, List.range_succ, List.foldl_append]
  rfl

theorem exactHash_succ (multipliers : Nat → Nat) (p n : Nat) :
    exactHash tokens eos multipliers p (n + 1) =
      exactHash tokens eos multipliers p n ^^^ hashedToken tokens eos p n * multipliers n := by
  rw [exactHash, List.range_succ, List.foldl_append]
  rfl

end

section
variable {b : Chunks} {c : NgramCall} (h : b.Describes c) {r j : Nat} (hr : r < b.numReqs) (hj : j < b.len r)
include h hr hj

/-- After `k` predecessors: the latch is an EOS among them, and the hash holds the terms below the order. -/
theorem mixStep_run {order : Nat} (horder : 1 ≤ order) {k : Nat} (hk : k ≤ c.ctxLen) :
    (List.range' 1 k).foldl (c.mixStep (c.queryStartLoc r + j) order)
        (false, BitVec.ofNat 64 (c.inputIds (c.queryStartLoc r + j)) * c.layerMultipliers 0) =
      ((List.range' 1 k).any (fun i => predecessor (b.tokens r) c.eosTokenId (b.start r + j) i == c.eosTokenId),
        hashWord (b.tokens r) c.eosTokenId c.layerMultipliers (b.start r + j) (min (k + 1) order)) := by
  induction k with
  | zero =>
    have hmin : min (0 + 1) order = 0 + 1 := by omega
    rw [h.inputs r hr j hj, hmin, hashWord_succ, hashedToken_zero]
    simp [hashWord]
  | succ k ih =>
    rw [List.range'_1_concat, List.foldl_append, ih (by omega), List.foldl_cons, List.foldl_nil, NgramCall.mixStep,
      candidate_eq h hr hj (by omega) (by omega), Nat.add_comm 1 k, List.any_append]
    simp only [List.any_cons, List.any_nil, Bool.or_false]
    have htoken : hashedToken (b.tokens r) c.eosTokenId (b.start r + j) (k + 1) =
        if (List.range' 1 k).any (fun i => predecessor (b.tokens r) c.eosTokenId (b.start r + j) i == c.eosTokenId) then
          c.eosTokenId else predecessor (b.tokens r) c.eosTokenId (b.start r + j) (k + 1) := rfl
    rw [← htoken]
    refine Prod.ext ?_ ?_
    · simp only [htoken]
      split <;> simp_all
    · simp only
      by_cases hlt : k + 1 < order
      · have hmin : min (k + 1) order = k + 1 := by omega
        have hmin' : min (k + 1 + 1) order = k + 1 + 1 := by omega
        rw [if_pos hlt, hmin, hmin', hashWord_succ _ _ _ _ (k + 1)]
      · have hmin : min (k + 1 + 1) order = min (k + 1) order := by omega
        rw [if_neg hlt, hmin, BitVec.xor_zero]

theorem id_eq {g : Nat} (hg : g < c.ngramHeads) (hsize : 0 < (c.vocabSizes g).toInt) :
    c.id (c.queryStartLoc r + j) g =
      (hashWord (b.tokens r) c.eosTokenId c.layerMultipliers (b.start r + j) (c.order g)).smod (c.vocabSizes g) +
        c.vocabOffsets g := by
  have horder : c.order g ≤ c.ctxLen + 1 := by
    have : g / c.headsPerNgram < c.ctxLen := Nat.div_lt_of_lt_mul (by rwa [NgramCall.ngramHeads, Nat.mul_comm] at hg)
    unfold NgramCall.order
    omega
  have hmin : min (c.ctxLen + 1) (c.order g) = c.order g := by omega
  rw [NgramCall.id, remainder_eq_smod _ hsize, NgramCall.mixed,
    mixStep_run h hr hj (show 1 ≤ c.order g from Nat.le_add_left 1 (g / c.headsPerNgram + 1)) (Nat.le_refl _), hmin]

omit hj in
theorem token_lt : c.queryStartLoc r + j < c.numTokens ∨ b.len r ≤ j := by
  have hrows := h.rows
  have hend := hrows.le_of_le (r + 1) c.numReqs (by have := h.numReqs; omega) (Nat.le_refl _)
  have hnext := h.next r hr
  have htotal := h.total
  rw [h.numReqs] at hend
  omega

end

/-- Every id is stored in its own place. -/
theorem pleNgramIds_read (c : NgramCall) (out : Nat → BitVec 64) {t g : Nat} (ht : t < c.numTokens) (hg : g < c.ngramHeads) :
    c.pleNgramIds out (t * c.ngramHeads + g) = c.id t g := by
  have hpad : c.ngramHeads ≤ c.blockH := Nat.le_pow_clog (by omega) _
  rw [NgramCall.pleNgramIds, launchStores_eq (show 0 < NgramCall.blockT by decide)]
  apply scatter_eq_of_agree
  · intro w hw he
    obtain ⟨row, hrow, hw⟩ := List.mem_flatMap.mp hw
    obtain ⟨t', ht', rfl⟩ := List.mem_map.mp hrow
    obtain ⟨g', hg', rfl⟩ := List.mem_map.mp hw
    have hlt : g' < c.ngramHeads := by simpa using (List.mem_filter.mp hg').2
    have hdiv := congrArg (· / c.ngramHeads) he
    have hmod := congrArg (· % c.ngramHeads) he
    simp only [block_div hlt, block_div hg] at hdiv
    simp only [block_mod hlt, block_mod hg] at hmod
    rw [hdiv, hmod]
  · refine .inr ⟨(t * c.ngramHeads + g, c.id t g), List.mem_flatMap.mpr ⟨(t, c.id t), List.mem_map.mpr ⟨t, List.mem_range.mpr ht, rfl⟩, ?_⟩, rfl⟩
    exact List.mem_map.mpr ⟨g, List.mem_filter.mpr ⟨List.mem_range.mpr (by omega), by simpa using hg⟩, rfl⟩

/-! ## The tables -/

theorem makeLayerMultipliers_bound {ngramSize vocab : Nat} {seed layer : Int} {i token : Nat}
    (htoken : token < vocab) (hword : token < 2 ^ 63) :
    token * (makeLayerMultipliers ngramSize vocab seed layer).getD i 0 < 2 ^ 63 := by
  rcases Nat.lt_or_ge i ngramSize with hi | hi
  · have hlen : (makeLayerMultipliers ngramSize vocab seed layer).length = ngramSize := by simp [makeLayerMultipliers]
    have hform : ∃ x, (makeLayerMultipliers ngramSize vocab seed layer).getD i 0 =
        2 * (x % max 1 (9223372036854775807 / vocab / 2)) + 1 := by
      rw [List.getD_eq_getElem _ _ (by omega)]
      simp only [makeLayerMultipliers, List.getElem_map]
      exact ⟨_, rfl⟩
    obtain ⟨x, hx⟩ := hform
    have hprod : token * (9223372036854775807 / vocab) ≤ 9223372036854775807 :=
      (Nat.mul_le_mul_right _ htoken.le).trans (Nat.mul_div_le ..)
    rw [hx]
    generalize 9223372036854775807 / vocab = bound at hprod
    have hmod := Nat.mod_lt x (show 0 < max 1 (bound / 2) by omega)
    by_cases hhalf : bound / 2 = 0
    · have hzero : x % max 1 (bound / 2) = 0 := by
        rw [hhalf]
        exact Nat.mod_one x
      rw [hzero]
      omega
    · have hle : 2 * (x % max 1 (bound / 2)) + 1 ≤ bound := by omega
      have := Nat.mul_le_mul_left token hle
      omega
  · have hnone : (makeLayerMultipliers ngramSize vocab seed layer).getD i 0 = 0 := by
      apply List.getD_eq_default
      simpa [makeLayerMultipliers] using hi
    rw [hnone, Nat.mul_zero]
    decide

/-- The size of head `g` of the layout. -/
def headSize (nthPrimeAfter : Int → Nat → Nat) (base : Int) (heads layer g : Nat) : Nat :=
  nthPrimeAfter (base - 1) (layer * heads + g + 1)

/-- The rows of the heads before `g`. -/
def headOffset (nthPrimeAfter : Int → Nat → Nat) (base : Int) (heads layer g : Nat) : Nat :=
  ((List.range g).map (headSize nthPrimeAfter base heads layer)).sum

theorem makeVocabLayout_eq (nthPrimeAfter : Int → Nat → Nat) (base : Int) (heads layer : Nat) :
    makeVocabLayout nthPrimeAfter base heads layer =
      ((List.range heads).map (headSize nthPrimeAfter base heads layer),
        (List.range heads).map (headOffset nthPrimeAfter base heads layer), headOffset nthPrimeAfter base heads layer heads) := by
  have hrun : ∀ n, (List.range n).foldl (fun (s : List Nat × List Nat × Nat) localHead =>
      let size := nthPrimeAfter (base - 1) (layer * heads + localHead + 1)
      (s.1 ++ [size], s.2.1 ++ [s.2.2], s.2.2 + size)) ([], [], 0) =
      ((List.range n).map (headSize nthPrimeAfter base heads layer),
        (List.range n).map (headOffset nthPrimeAfter base heads layer), headOffset nthPrimeAfter base heads layer n) := by
    intro n
    induction n with
    | zero => rfl
    | succ n ih =>
      rw [List.range_succ, List.foldl_append, ih]
      simp [headOffset, headSize, List.range_succ]
  exact hrun heads

section
variable (nthPrimeAfter : Int → Nat → Nat) (base : Int) (heads layer : Nat)

theorem headOffset_succ (g : Nat) : headOffset nthPrimeAfter base heads layer (g + 1) =
    headOffset nthPrimeAfter base heads layer g + headSize nthPrimeAfter base heads layer g := by
  simp [headOffset, List.range_succ]

/-- Heads take ranges of rows one after another. -/
theorem headOffset_le {g g' : Nat} (hlt : g < g') :
    headOffset nthPrimeAfter base heads layer g + headSize nthPrimeAfter base heads layer g ≤
      headOffset nthPrimeAfter base heads layer g' := by
  rw [← headOffset_succ]
  exact offset_mono (headOffset_succ nthPrimeAfter base heads layer) hlt

end

/-! ## The exact hash -/

section
variable {tokens : Nat → Nat} {eos p : Nat} {multipliers : Nat → Nat}

theorem hashedToken_forall {P : Nat → Prop} (heos : P eos) (htokens : ∀ q, P (tokens q)) (i : Nat) :
    P (hashedToken tokens eos p i) := by
  unfold hashedToken predecessor
  split
  · exact heos
  · split
    · exact htokens _
    · exact heos

/-- Below `2 ^ 63` the wrapping hash is the exact one. -/
theorem hashWord_exact (hprod : ∀ i, hashedToken tokens eos p i * multipliers i < 2 ^ 63) (n : Nat) :
    (hashWord tokens eos (fun i => BitVec.ofNat 64 (multipliers i)) p n) = BitVec.ofNat 64 (exactHash tokens eos multipliers p n) ∧
      exactHash tokens eos multipliers p n < 2 ^ 63 := by
  induction n with
  | zero => exact ⟨rfl, by simp [exactHash]⟩
  | succ n ih =>
    rw [hashWord_succ, exactHash_succ, ih.1]
    refine ⟨?_, Nat.xor_lt_two_pow ih.2 (hprod n)⟩
    apply BitVec.eq_of_toNat_eq
    have hlt : exactHash tokens eos multipliers p n ^^^ hashedToken tokens eos p n * multipliers n < 2 ^ 64 :=
      (Nat.xor_lt_two_pow ih.2 (hprod n)).trans (by decide)
    have h₁ : exactHash tokens eos multipliers p n < 2 ^ 64 := ih.2.trans (by decide)
    have h₂ : hashedToken tokens eos p n * multipliers n < 2 ^ 64 := (hprod n).trans (by decide)
    rw [← BitVec.ofNat_mul, BitVec.toNat_xor, BitVec.toNat_ofNat, BitVec.toNat_ofNat, BitVec.toNat_ofNat, Nat.mod_eq_of_lt h₁,
      Nat.mod_eq_of_lt h₂, Nat.mod_eq_of_lt hlt]

theorem toInt_ofNat_small {n : Nat} (h : n < 2 ^ 63) : (BitVec.ofNat 64 n).toInt = n := by
  rw [BitVec.toInt_ofNat']
  apply Int.bmod_eq_of_le <;> norm_num at * <;> omega

theorem smod_add_exact {x size offset : Nat} (hx : x < 2 ^ 63) (hsize : 0 < size) (hend : offset + size < 2 ^ 63) :
    ((BitVec.ofNat 64 x).smod (BitVec.ofNat 64 size) + BitVec.ofNat 64 offset).toInt = ((offset + x % size : Nat) : Int) := by
  have hmod : x % size < size := Nat.mod_lt x hsize
  have hword : (BitVec.ofNat 64 x).smod (BitVec.ofNat 64 size) = BitVec.ofNat 64 (x % size) := by
    apply BitVec.eq_of_toInt_eq
    rw [BitVec.toInt_smod, toInt_ofNat_small hx, toInt_ofNat_small (by omega), toInt_ofNat_small (by omega),
      Int.fmod_eq_emod_of_nonneg _ (by omega), Int.natCast_emod]
  rw [hword, ← BitVec.ofNat_add, toInt_ofNat_small (by omega), Nat.add_comm]

end

/-- The tables of a layer as the 64-bit tensors of the call. -/
structure LayerTables (c : NgramCall) (nthPrimeAfter : Int → Nat → Nat) (vocab : Nat) (seed base : Int) (layer : Nat) : Prop where
  multipliers : ∀ i, c.layerMultipliers i = BitVec.ofNat 64 ((makeLayerMultipliers (c.ctxLen + 1) vocab seed layer).getD i 0)
  sizes : ∀ g < c.ngramHeads, c.vocabSizes g =
    BitVec.ofNat 64 ((makeVocabLayout nthPrimeAfter base c.ngramHeads layer).1.getD g 0)
  offsets : ∀ g < c.ngramHeads, c.vocabOffsets g =
    BitVec.ofNat 64 ((makeVocabLayout nthPrimeAfter base c.ngramHeads layer).2.1.getD g 0)
  positive : ∀ g < c.ngramHeads, 0 < (makeVocabLayout nthPrimeAfter base c.ngramHeads layer).1.getD g 0
  total : (makeVocabLayout nthPrimeAfter base c.ngramHeads layer).2.2 < 2 ^ 63

theorem ngram_ids_independent {b : Chunks} {c : NgramCall} (h : b.Describes c) (out : Nat → BitVec 64) :
    (∀ r < b.numReqs, ∀ j < b.len r, ∀ g < c.ngramHeads, 0 < (c.vocabSizes g).toInt →
      c.pleNgramIds out ((c.queryStartLoc r + j) * c.ngramHeads + g) =
        (hashWord (b.tokens r) c.eosTokenId c.layerMultipliers (b.start r + j) (c.order g)).smod (c.vocabSizes g) +
          c.vocabOffsets g) ∧
    ∀ (nthPrimeAfter : Int → Nat → Nat) (vocab : Nat) (seed base : Int) (layer : Nat),
      LayerTables c nthPrimeAfter vocab seed base layer →
      (∀ r p, b.tokens r p < vocab ∧ b.tokens r p < 2 ^ 63) → c.eosTokenId < vocab ∧ c.eosTokenId < 2 ^ 63 →
      let multipliers := fun i => (makeLayerMultipliers (c.ctxLen + 1) vocab seed layer).getD i 0
      let layout := makeVocabLayout nthPrimeAfter base c.ngramHeads layer
      (∀ r p i, hashedToken (b.tokens r) c.eosTokenId p i * multipliers i < 2 ^ 63) ∧
      (∀ r < b.numReqs, ∀ j < b.len r, ∀ g < c.ngramHeads,
        let hash := exactHash (b.tokens r) c.eosTokenId multipliers (b.start r + j) (c.order g)
        (c.pleNgramIds out ((c.queryStartLoc r + j) * c.ngramHeads + g)).toInt =
            ((layout.2.1.getD g 0 + hash % layout.1.getD g 0 : Nat) : Int) ∧
          layout.2.1.getD g 0 + hash % layout.1.getD g 0 < layout.2.1.getD g 0 + layout.1.getD g 0) ∧
      (∀ g < c.ngramHeads, layout.2.1.getD g 0 + layout.1.getD g 0 ≤ layout.2.2) ∧
      ∀ g' < c.ngramHeads, ∀ g < g', layout.2.1.getD g 0 + layout.1.getD g 0 ≤ layout.2.1.getD g' 0 := by
  have hread : ∀ r < b.numReqs, ∀ j < b.len r, ∀ g < c.ngramHeads, 0 < (c.vocabSizes g).toInt →
      c.pleNgramIds out ((c.queryStartLoc r + j) * c.ngramHeads + g) =
        (hashWord (b.tokens r) c.eosTokenId c.layerMultipliers (b.start r + j) (c.order g)).smod (c.vocabSizes g) +
          c.vocabOffsets g := by
    intro r hr j hj g hg hsize
    have ht : c.queryStartLoc r + j < c.numTokens := (token_lt h hr).resolve_right (by omega)
    rw [pleNgramIds_read c out ht hg, id_eq h hr hj hg hsize]
  refine ⟨hread, ?_⟩
  intro nthPrimeAfter vocab seed base layer htab htokens heos
  have hprod : ∀ r p i, hashedToken (b.tokens r) c.eosTokenId p i *
      (makeLayerMultipliers (c.ctxLen + 1) vocab seed layer).getD i 0 < 2 ^ 63 := by
    intro r p i
    have := hashedToken_forall (P := fun x => x < vocab ∧ x < 2 ^ 63) (p := p) heos (htokens r) i
    exact makeLayerMultipliers_bound this.1 this.2
  have hsize : ∀ g < c.ngramHeads, (makeVocabLayout nthPrimeAfter base c.ngramHeads layer).1.getD g 0 =
      headSize nthPrimeAfter base c.ngramHeads layer g := by
    intro g hg
    simp [makeVocabLayout_eq, List.getD_eq_getElem?_getD, hg]
  have hoffset : ∀ g < c.ngramHeads, (makeVocabLayout nthPrimeAfter base c.ngramHeads layer).2.1.getD g 0 =
      headOffset nthPrimeAfter base c.ngramHeads layer g := by
    intro g hg
    simp [makeVocabLayout_eq, List.getD_eq_getElem?_getD, hg]
  have htotal : (makeVocabLayout nthPrimeAfter base c.ngramHeads layer).2.2 =
      headOffset nthPrimeAfter base c.ngramHeads layer c.ngramHeads := by rw [makeVocabLayout_eq]
  have hend : ∀ g < c.ngramHeads, headOffset nthPrimeAfter base c.ngramHeads layer g +
      headSize nthPrimeAfter base c.ngramHeads layer g ≤ headOffset nthPrimeAfter base c.ngramHeads layer c.ngramHeads :=
    fun g hg => headOffset_le nthPrimeAfter base c.ngramHeads layer hg
  refine ⟨hprod, ?_, ?_, ?_⟩
  · intro r hr j hj g hg
    have hpos := htab.positive g hg
    have hlim := htab.total
    have hin := hend g hg
    rw [htotal] at hlim
    have hmult : c.layerMultipliers = fun i => BitVec.ofNat 64 ((makeLayerMultipliers (c.ctxLen + 1) vocab seed layer).getD i 0) :=
      funext htab.multipliers
    obtain ⟨hword, hlt⟩ := hashWord_exact (hprod r (b.start r + j)) (c.order g)
    have hwordSize : 0 < (c.vocabSizes g).toInt := by
      rw [htab.sizes g hg, hsize g hg, toInt_ofNat_small (by omega), ← hsize g hg]
      exact_mod_cast hpos
    refine ⟨?_, Nat.add_lt_add_left (Nat.mod_lt _ hpos) _⟩
    rw [hread r hr j hj g hg hwordSize, htab.sizes g hg, htab.offsets g hg, hmult, hword]
    apply smod_add_exact hlt hpos
    rw [hsize g hg, hoffset g hg]
    omega
  · intro g hg
    rw [hsize g hg, hoffset g hg, htotal]
    exact hend g hg
  · intro g' hg' g hg
    rw [hsize g (by omega), hoffset g (by omega), hoffset g' hg']
    exact headOffset_le nthPrimeAfter base c.ngramHeads layer hg

/-- Chunks of one, no and two tokens. -/
def threeChunks : Chunks where
  numReqs := 3
  tokens := fun _ p => (p + 1) % 7
  start := fun r => [0, 3, 1].getD r 0
  len := fun r => [1, 0, 2].getD r 0

def threeCall : NgramCall where
  inputIds := fun t => [1, 2, 3].getD t 0
  numTokens := 3
  queryStartLoc := fun r => [0, 1, 1, 3].getD r 3
  numReqs := 3
  ngramContext := fun r col => [[0, 0], [2, 3], [0, 1]].getD r [] |>.getD col 0
  ctxLen := 2
  layerMultipliers := fun i => BitVec.ofNat 64 ((makeLayerMultipliers 3 7 1234 0).getD i 0)
  vocabSizes := fun g => BitVec.ofNat 64 ((makeVocabLayout (fun _ k => k + 10) 16 2 0).1.getD g 0)
  vocabOffsets := fun g => BitVec.ofNat 64 ((makeVocabLayout (fun _ k => k + 10) 16 2 0).2.1.getD g 0)
  eosTokenId := 0
  headsPerNgram := 1

/-- The last token of the third request, for the second head. -/
theorem ngram_ids_independent_three :
    (threeCall.pleNgramIds (fun _ => 0) 5).toInt = ((11 + exactHash (fun p => (p + 1) % 7) 0
      (fun i => (makeLayerMultipliers 3 7 1234 0).getD i 0) 2 3 % 12 : Nat) : Int) := by
  have h : threeChunks.Describes threeCall := ⟨rfl, rfl, by decide, by decide, by decide, by decide⟩
  have htab : LayerTables threeCall (fun _ k => k + 10) 7 1234 16 0 :=
    ⟨fun _ => rfl, fun _ _ => rfl, fun _ _ => rfl, by decide, by decide⟩
  have htokens : ∀ r p, threeChunks.tokens r p < 7 ∧ threeChunks.tokens r p < 2 ^ 63 := by
    intro r p
    have : threeChunks.tokens r p < 7 := Nat.mod_lt _ (by omega)
    exact ⟨this, this.trans (by decide)⟩
  have := (ngram_ids_independent h (fun _ => 0)).2 (fun _ k => k + 10) 7 1234 16 0 htab htokens (by decide)
  exact (this.2.1 2 (by decide) 1 (by decide) 1 (by decide)).1

end VllmHcu.Ple
