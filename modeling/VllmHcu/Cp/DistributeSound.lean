import VllmHcu.Cp.Distribute
import Mathlib.Data.List.Sort

/-!
# The balanced distribution and its inverse

Rank `r` has tile `r` of each request and tile `r` from its end. The tiles of a
request cover its tokens in order, so the index lists of all ranks hold each
token once, and sorting their positions by the tokens inverts the scatter.
-/

namespace VllmHcu.Cp

/-! ## Tiles of a request -/

section
variable {tpSize tpRank i accu : Nat} {req : Request}

theorem chunkLen_eq (h : 0 < tpSize) (q : Nat) : chunkLen tpSize q = cdiv q (2 * tpSize) :=
  Nat.mul_div_cancel _ (by omega)

theorem partLen_tile (c k q : Nat) : partLen c (k * c) ((k + 1) * c) q = min q ((k + 1) * c) - min q (k * c) := by
  have : (k + 1) * c = k * c + c := Nat.succ_mul k c
  unfold partLen
  split <;> omega

/-- The row of tile `k`. -/
def tileRow (tpSize i accu k : Nat) (req : Request) : List (Row × List Nat) :=
  chunkRow i accu (k * chunkLen tpSize req.qLen) ((k + 1) * chunkLen tpSize req.qLen) (chunkLen tpSize req.qLen) req

theorem requestRows_eq (hr : tpRank < tpSize) : requestRows tpSize tpRank i accu req =
    tileRow tpSize i accu tpRank req ++ tileRow tpSize i accu (2 * tpSize - 1 - tpRank) req := by
  unfold requestRows tileRow
  have hpad : roundUp req.qLen (2 * tpSize) = 2 * tpSize * chunkLen tpSize req.qLen := by
    rw [chunkLen_eq (by omega)]
    exact Nat.mul_comm _ _
  have hstop : 2 * tpSize - 1 - tpRank + 1 = 2 * tpSize - tpRank := by omega
  have hstart : 2 * tpSize - 1 - tpRank = 2 * tpSize - (tpRank + 1) := by omega
  simp only [hpad, hstop, ← Nat.sub_mul]
  rw [hstart]

theorem tileRow_tokens (k : Nat) :
    (tileRow tpSize i accu k req).flatMap Prod.snd = tile accu req.qLen (chunkLen tpSize req.qLen) k := by
  unfold tileRow chunkRow tile
  simp only [partLen_tile]
  by_cases h : 0 < min req.qLen ((k + 1) * chunkLen tpSize req.qLen) - min req.qLen (k * chunkLen tpSize req.qLen)
  · rw [if_pos h, List.flatMap_singleton, Nat.min_eq_right (a := req.qLen) (b := k * _) (by omega)]
  · rw [if_neg h, Nat.eq_zero_of_not_pos h]
    rfl

/-- A row is a chunk of the request, and its length in the cache is that of its last token. -/
structure IsChunk (start i : Nat) (req : Request) (p : Row × List Nat) (offset : Nat) : Prop where
  seqIndex : p.1.seqIndex = i
  tokens : p.2 = List.range' (start + offset) p.1.qLen
  pos : 0 < p.1.qLen
  within : offset + p.1.qLen ≤ req.qLen
  kvLen : p.1.kvLen = req.kvLen - req.qLen + (offset + p.1.qLen : Nat)

theorem tileRow_chunk {k : Nat} {p : Row × List Nat} (hp : p ∈ tileRow tpSize i accu k req) :
    IsChunk accu i req p (k * chunkLen tpSize req.qLen) := by
  unfold tileRow chunkRow at hp
  simp only [partLen_tile] at hp
  by_cases h : 0 < min req.qLen ((k + 1) * chunkLen tpSize req.qLen) - min req.qLen (k * chunkLen tpSize req.qLen)
  · rw [if_pos h, List.mem_singleton] at hp
    subst hp
    refine ⟨rfl, rfl, h, ?_, ?_⟩
    · change _ + (_ - _) ≤ _
      omega
    · change req.kvLen - req.qLen + (min req.qLen ((k + 1) * chunkLen tpSize req.qLen) : Nat) = _
      congr 2
      change _ = _ + (_ - _)
      omega
  · rw [if_neg h] at hp
    cases hp

theorem requestRows_chunk (hr : tpRank < tpSize) {p : Row × List Nat} (hp : p ∈ requestRows tpSize tpRank i accu req) :
    ∃ offset, IsChunk accu i req p offset := by
  rw [requestRows_eq hr] at hp
  obtain hp | hp := List.mem_append.mp hp
  · exact ⟨_, tileRow_chunk hp⟩
  · exact ⟨_, tileRow_chunk hp⟩

end

/-! ## All requests -/

section
variable {tpSize : Nat}

theorem requestTokens_perm (h : 0 < tpSize) (i accu : Nat) (req : Request) :
    ((List.range tpSize).flatMap fun r => (requestRows tpSize r i accu req).flatMap Prod.snd).Perm
      (List.range' accu req.qLen) := by
  have htiles : ((List.range tpSize).flatMap fun r => (requestRows tpSize r i accu req).flatMap Prod.snd) =
      (List.range tpSize).flatMap fun r => tile accu req.qLen (chunkLen tpSize req.qLen) r ++
        tile accu req.qLen (chunkLen tpSize req.qLen) (2 * tpSize - 1 - r) := by
    apply List.flatMap_congr
    intro r hr
    rw [requestRows_eq (List.mem_range.mp hr), List.flatMap_append, tileRow_tokens, tileRow_tokens]
  have hcover : req.qLen ≤ 2 * tpSize * chunkLen tpSize req.qLen := by
    rw [chunkLen_eq h, Nat.mul_comm]
    exact le_cdiv_mul _ (by omega)
  rw [htiles]
  refine (flatMap_ends_perm tpSize _).trans ?_
  rw [flatMap_tile, Nat.min_eq_left hcover]

/-- The tokens of one rank, in the order of its rows. -/
def rankTokens (tpSize : Nat) (i accu : Nat) (reqs : List Request) (r : Nat) : List Nat :=
  (balancedRows tpSize r i accu reqs).flatMap Prod.snd

theorem rankTokens_cons (i accu r : Nat) (req : Request) (reqs : List Request) :
    rankTokens tpSize i accu (req :: reqs) r = (requestRows tpSize r i accu req).flatMap Prod.snd ++
      rankTokens tpSize (i + 1) (accu + req.qLen) reqs r := List.flatMap_append

theorem rankTokens_perm (h : 0 < tpSize) : ∀ (i accu : Nat) (reqs : List Request),
    ((List.range tpSize).flatMap (rankTokens tpSize i accu reqs)).Perm (List.range' accu (totalTokens reqs))
  | i, accu, [] => by
    have hnil : (List.range tpSize).flatMap (rankTokens tpSize i accu []) = [] :=
      List.flatMap_eq_nil_iff.mpr fun _ _ => rfl
    rw [hnil]
    rfl
  | i, accu, req :: reqs => by
    have htotal : totalTokens (req :: reqs) = req.qLen + totalTokens reqs := List.sum_cons
    rw [List.flatMap_congr fun r _ => rankTokens_cons i accu r req reqs, htotal, ← List.range'_append_1]
    refine (List.flatMap_append_perm _ _ _).symm.trans ?_
    exact (requestTokens_perm h i accu req).append (rankTokens_perm h (i + 1) (accu + req.qLen) reqs)

theorem rankTokens_length_le {r : Nat} (hr : r < tpSize) : ∀ (i accu : Nat) (reqs : List Request),
    (rankTokens tpSize i accu reqs r).length ≤ rankPadTokens tpSize reqs
  | _, _, [] => Nat.zero_le _
  | i, accu, req :: reqs => by
    have ih := rankTokens_length_le hr (i + 1) (accu + req.qLen) reqs
    have hpad : rankPadTokens tpSize (req :: reqs) = chunkLen tpSize req.qLen * 2 + rankPadTokens tpSize reqs :=
      List.sum_cons
    have htile : ∀ k, (tile accu req.qLen (chunkLen tpSize req.qLen) k).length ≤ chunkLen tpSize req.qLen := by
      intro k
      unfold tile
      rw [List.length_range', Nat.succ_mul]
      omega
    have h₁ := htile r
    have h₂ := htile (2 * tpSize - 1 - r)
    rw [rankTokens_cons, requestRows_eq hr, List.flatMap_append, tileRow_tokens, tileRow_tokens, List.length_append,
      List.length_append, hpad]
    omega

theorem scatterIndexes_length {r : Nat} (hr : r < tpSize) (reqs : List Request) :
    (scatterIndexes tpSize r reqs).length = rankPadTokens tpSize reqs := by
  have hle := rankTokens_length_le hr 0 0 reqs
  unfold rankTokens at hle
  unfold scatterIndexes
  rw [List.length_append, List.length_map, List.length_replicate]
  omega

theorem scatterIndexes_filter (r : Nat) (reqs : List Request) :
    (scatterIndexes tpSize r reqs).filter (· ≠ -1) = (rankTokens tpSize 0 0 reqs r).map Int.ofNat := by
  unfold scatterIndexes
  rw [List.filter_append, List.filter_eq_self.mpr, List.filter_eq_nil_iff.mpr, List.append_nil]
  · rfl
  · intro v hv
    rw [List.eq_of_mem_replicate hv]
    decide
  · intro v hv
    obtain ⟨n, _, rfl⟩ := List.mem_map.mp hv
    rfl

theorem globalScatter_perm (h : 0 < tpSize) (reqs : List Request) :
    ((globalScatterIndexes tpSize reqs).filter (· ≠ -1)).Perm ((List.range (totalTokens reqs)).map Int.ofNat) := by
  unfold globalScatterIndexes
  rw [List.filter_flatMap, List.flatMap_congr fun r _ => scatterIndexes_filter r reqs, ← List.map_flatMap,
    @List.range_eq_range' (totalTokens reqs)]
  exact (rankTokens_perm h 0 0 reqs).map _

theorem balancedRows_chunk {r : Nat} (hr : r < tpSize) : ∀ {reqs : List Request} {i accu : Nat} {p : Row × List Nat},
    p ∈ balancedRows tpSize r i accu reqs → ∃ k req offset, reqs[k]? = some req ∧
      IsChunk (accu + totalTokens (reqs.take k)) (i + k) req p offset
  | [], _, _, _, h => by cases h
  | req :: reqs, i, accu, p, h => by
    obtain h | h := List.mem_append.mp h
    · obtain ⟨offset, hc⟩ := requestRows_chunk hr h
      exact ⟨0, req, offset, rfl, hc⟩
    · obtain ⟨k, req', offset, hk, hc⟩ := balancedRows_chunk hr h
      have htotal : totalTokens ((req :: reqs).take (k + 1)) = req.qLen + totalTokens (reqs.take k) := List.sum_cons
      refine ⟨k + 1, req', offset, hk, ?_⟩
      rw [htotal, ← Nat.add_assoc, ← Nat.add_assoc, Nat.add_right_comm i k 1]
      exact hc

end

/-! ## Sorting the positions -/

theorem gatherIndexes_spec {g : List Int} {n : Nat}
    (h : (g.filter (· ≠ -1)).Perm ((List.range n).map Int.ofNat)) :
    (gatherIndexes g).length = n ∧ ∀ (t : Nat) p, (gatherIndexes g)[t]? = some p → g[p]? = some (t : Int) := by
  have hfst : ((g.zipIdx.filter fun p => p.1 ≠ -1).map Prod.fst) = g.filter (· ≠ -1) := by
    have : (g.zipIdx.map Prod.fst).filter (· ≠ -1) = (g.zipIdx.filter fun p => p.1 ≠ -1).map Prod.fst := List.filter_map
    rw [List.zipIdx_map_fst] at this
    exact this.symm
  -- the values, sorted, are the tokens in order
  have hsorted : (((g.zipIdx.filter fun p => p.1 ≠ -1).mergeSort fun a b => a.1 ≤ b.1).map Prod.fst) =
      (List.range n).map Int.ofNat := by
    have hperm := ((List.mergeSort_perm (g.zipIdx.filter fun p => p.1 ≠ -1) fun a b => a.1 ≤ b.1).map Prod.fst)
    rw [hfst] at hperm
    refine List.Perm.eq_of_pairwise (fun a b _ _ hab hba => Int.le_antisymm hab hba) ?_ ?_ (hperm.trans h)
    · have := @List.pairwise_mergeSort _ (fun a b : Int × Nat => decide (a.1 ≤ b.1))
        (fun a b c hab hbc => by simp at *; omega) (fun a b => by simp; omega) (g.zipIdx.filter fun p => p.1 ≠ -1)
      exact (this.imp fun hab => of_decide_eq_true hab).map Prod.fst fun _ _ hab => hab
    · exact (List.pairwise_le_range).map _ fun _ _ hab => Int.ofNat_le.mpr hab
  have hlen := congrArg List.length hsorted
  rw [List.length_map, List.length_map, List.length_range] at hlen
  refine ⟨(List.length_map _).trans hlen, fun t p hp => ?_⟩
  obtain ⟨q, hq, rfl⟩ := Option.map_eq_some_iff.mp ((List.getElem?_map ..).symm.trans hp)
  have hmem := List.mem_of_getElem? hq
  rw [List.mem_mergeSort, List.mem_filter] at hmem
  have hval : q.1 = (t : Int) := by
    have := congrArg (fun l => l[t]?) hsorted
    simp only [List.getElem?_map, hq, Option.map_some] at this
    obtain ⟨m, hm, hmq⟩ := Option.map_eq_some_iff.mp this.symm
    rw [List.getElem?_eq_some_iff] at hm
    obtain ⟨_, rfl⟩ := hm
    rw [← hmq, List.getElem_range]
    rfl
  rw [← hval]
  exact List.mk_mem_zipIdx_iff_getElem?.mp hmem.1

/-! ## The round trip -/

section
variable {tpSize : Nat} {reqs : List Request} {α : Type} {hidden : List α}

/-- The row that an index reads. -/
def Reads (hidden : List α) (index : Int) (a : α) : Prop :=
  hidden[(if index = -1 then 0 else index).toNat]? = some a

theorem total_pos_of_padding {r : Nat} (hpos : ∀ req ∈ reqs, 0 < req.qLen) (h : scatterIndexes tpSize r reqs ≠ []) :
    0 < totalTokens reqs := by
  cases reqs with
  | nil => exact absurd rfl h
  | cons req reqs =>
    have htotal : totalTokens (req :: reqs) = req.qLen + totalTokens reqs := List.sum_cons
    have := hpos req List.mem_cons_self
    omega

theorem inputsSplitting_reads {r : Nat} (hr : r < tpSize) (hpos : ∀ req ∈ reqs, 0 < req.qLen)
    (hlen : totalTokens reqs ≤ hidden.length) : ∃ part, inputsSplitting hidden (scatterIndexes tpSize r reqs) = some part ∧
      List.Forall₂ (Reads hidden) (scatterIndexes tpSize r reqs) part := by
  have hsome : (inputsSplitting hidden (scatterIndexes tpSize r reqs)).isSome = true := by
    apply mapM_isSome
    intro v hv
    refine Option.isSome_of_eq_some (List.getElem?_eq_getElem ?_)
    have htotal := total_pos_of_padding hpos (List.ne_nil_of_mem hv)
    by_cases hneg : v = -1
    · rw [if_pos hneg]
      exact Nat.lt_of_lt_of_le htotal hlen
    · rw [if_neg hneg]
      have hmem : v ∈ globalScatterIndexes tpSize reqs := List.mem_flatMap.mpr ⟨r, List.mem_range.mpr hr, hv⟩
      have hfilter : v ∈ (globalScatterIndexes tpSize reqs).filter (· ≠ -1) :=
        List.mem_filter.mpr ⟨hmem, decide_eq_true hneg⟩
      obtain ⟨n, hn, rfl⟩ := List.mem_map.mp ((globalScatter_perm (by omega) reqs).mem_iff.mp hfilter)
      have := List.mem_range.mp hn
      change n < _
      omega
  obtain ⟨part, hpart⟩ := Option.isSome_iff_exists.mp hsome
  exact ⟨part, hpart, mapM_option hpart⟩

end

theorem balanced_scatter_gather (tpSize : Nat) (h : 0 < tpSize) (reqs : List Request)
    (hpos : ∀ req ∈ reqs, 0 < req.qLen) :
    (∀ r < tpSize, ∀ r' < tpSize,
      (scatterIndexes tpSize r reqs).length = (scatterIndexes tpSize r' reqs).length) ∧
    ((globalScatterIndexes tpSize reqs).filter (· ≠ -1)).Perm ((List.range (totalTokens reqs)).map Int.ofNat) ∧
    (∀ (α : Type) (hidden : List α), totalTokens reqs ≤ hidden.length → ∃ parts : Nat → List α,
      (∀ r < tpSize, inputsSplitting hidden (scatterIndexes tpSize r reqs) = some (parts r)) ∧
      (gatherIndexes (globalScatterIndexes tpSize reqs)).map (fun p => ((List.range tpSize).flatMap parts)[p]?) =
        (hidden.take (totalTokens reqs)).map some) ∧
    ∀ r < tpSize, ∀ p ∈ balancedRows tpSize r 0 0 reqs, ∃ req offset, reqs[p.1.seqIndex]? = some req ∧
      IsChunk (totalTokens (reqs.take p.1.seqIndex)) p.1.seqIndex req p offset := by
  refine ⟨fun r hr r' hr' => ?_, globalScatter_perm h reqs, fun α hidden hlen => ?_, fun r hr p hp => ?_⟩
  · rw [scatterIndexes_length hr, scatterIndexes_length hr']
  · have hread : ∀ r, ∃ part, r < tpSize → inputsSplitting hidden (scatterIndexes tpSize r reqs) = some part ∧
        List.Forall₂ (Reads hidden) (scatterIndexes tpSize r reqs) part := by
      intro r
      by_cases hr : r < tpSize
      · obtain ⟨part, hpart⟩ := inputsSplitting_reads hr hpos hlen
        exact ⟨part, fun _ => hpart⟩
      · exact ⟨[], fun hlt => absurd hlt hr⟩
    choose parts hparts using hread
    refine ⟨parts, fun r hr => (hparts r hr).1, ?_⟩
    have hall : List.Forall₂ (Reads hidden) (globalScatterIndexes tpSize reqs) ((List.range tpSize).flatMap parts) :=
      forall₂_flatMap fun r hr => (hparts r (List.mem_range.mp hr)).2
    obtain ⟨hglen, hget⟩ := gatherIndexes_spec (globalScatter_perm h reqs)
    apply List.ext_getElem?
    intro t
    rw [List.getElem?_map, List.getElem?_map, List.getElem?_take]
    by_cases ht : t < totalTokens reqs
    · have hlt : t < (gatherIndexes (globalScatterIndexes tpSize reqs)).length := by rwa [hglen]
      obtain ⟨a, ha, hread⟩ := forall₂_getElem? hall (hget t _ (List.getElem?_eq_getElem hlt))
      have hneg : ¬ (t : Int) = -1 := by omega
      have hrow : hidden[t]? = some a := by
        unfold Reads at hread
        rwa [if_neg hneg] at hread
      rw [List.getElem?_eq_getElem hlt, if_pos ht, hrow, Option.map_some, ha]
      rfl
    · have hge : (gatherIndexes (globalScatterIndexes tpSize reqs)).length ≤ t := by omega
      rw [List.getElem?_eq_none hge, if_neg ht]
      rfl
  · obtain ⟨k, req, offset, hk, hc⟩ := balancedRows_chunk hr hp
    rw [Nat.zero_add, Nat.zero_add] at hc
    have := hc.seqIndex
    subst this
    exact ⟨req, offset, hk, hc⟩

theorem balanced_scatter_gather_short :
    (∀ r < 2, ∀ r' < 2, (scatterIndexes 2 r [⟨3, 7⟩, ⟨1, 1⟩]).length = (scatterIndexes 2 r' [⟨3, 7⟩, ⟨1, 1⟩]).length) ∧
    ((globalScatterIndexes 2 [⟨3, 7⟩, ⟨1, 1⟩]).filter (· ≠ -1)).Perm
      ((List.range (totalTokens [⟨3, 7⟩, ⟨1, 1⟩])).map Int.ofNat) :=
  let spec := balanced_scatter_gather 2 (by decide) [⟨3, 7⟩, ⟨1, 1⟩] (by decide)
  ⟨spec.1, spec.2.1⟩

end VllmHcu.Cp
