import Mathlib.Algebra.BigOperators.Ring.Finset
import VllmHcu.Cp.DistributeSound

/-!
# The metadata of a rank is consistent for one row

`num_computed_tokens` is taken from the sums of the row lengths and the longest
query from the last sum, and the last sum of no rows does not exist. So the
metadata of a rank is right where the rank has exactly one row, and this
settles which batches are served.
-/

namespace VllmHcu.Cp

/-! ## Slices -/

theorem assignSlice_ok {buf values : List Int} {start n : Nat} (hn : values.length = n) (h : start + n ≤ buf.length) :
    assignSlice buf start n values = .ok (buf.take start ++ values ++ buf.drop (start + n)) := by
  unfold assignSlice
  have hwidth : min (start + n) buf.length - min start buf.length = n := by omega
  refine bind_eq_ok.mpr ⟨(), ensure_eq_ok.mpr (.inl (by omega)), ?_⟩
  rw [hwidth, if_pos hn]
  rfl

theorem assignSlice_fits {buf values buf' : List Int} {start n : Nat} (hn : values.length = n) (h2 : 2 ≤ n)
    (h : assignSlice buf start n values = .ok buf') : start + n ≤ buf.length := by
  obtain ⟨_, hwidth, _⟩ := bind_eq_ok.mp h
  have := ensure_eq_ok.mp hwidth
  omega

theorem cumsumFrom_length : ∀ (acc : Int) (xs : List Nat), (cumsumFrom acc xs).length = xs.length
  | _, [] => rfl
  | acc, x :: xs => congrArg Nat.succ (cumsumFrom_length (acc + x) xs)

theorem cumsumFrom_ne_nil {acc : Int} {xs : List Nat} (h : xs ≠ []) : cumsumFrom acc xs ≠ [] := by
  cases xs with
  | nil => exact absurd rfl h
  | cons x xs => exact List.cons_ne_nil _ _

/-- The differences of the sums are the lengths. -/
theorem zipWith_cumsum (acc : Int) (xs : List Nat) :
    List.zipWith (· - ·) (cumsumFrom acc xs) (acc :: cumsumFrom acc xs) = xs.map Int.ofNat := by
  induction xs generalizing acc with
  | nil => rfl
  | cons x xs ih =>
    have hx : acc + x - acc = Int.ofNat x := by
      change acc + (x : Int) - acc = (x : Int)
      omega
    exact congrArg₂ List.cons hx (ih (acc + x))

theorem fillFrom_take {values rest : List Int} {n : Nat} (v : Int) (hn : values.length = n) :
    (fillFrom (values ++ rest) n v).take n = values := by
  subst hn
  unfold fillFrom
  rw [List.take_left, List.take_left]

theorem startLocs_ok {buf : List Int} {qLens : List Nat} (hne : qLens ≠ []) (h : qLens.length + 1 ≤ buf.length) :
    ∃ starts, startLocs buf qLens = .ok starts ∧ starts.take (qLens.length + 1) = 0 :: cumsumFrom 0 qLens := by
  have hlen := cumsumFrom_length 0 qLens
  obtain ⟨x, buf, rfl⟩ := List.exists_cons_of_length_pos (Nat.lt_of_lt_of_le (Nat.succ_pos _) h)
  have hassign := @assignSlice_ok ((x :: buf).set 0 0) (cumsumFrom 0 qLens) 1 qLens.length hlen (by
    rw [List.length_set]
    omega)
  have hlast := List.getLast?_eq_getLast_of_ne_nil (@cumsumFrom_ne_nil 0 _ hne)
  refine ⟨_, bind_eq_ok.mpr ⟨(), ensure_eq_ok.mpr (List.cons_ne_nil _ _), bind_eq_ok.mpr ⟨_, hassign,
    bind_eq_ok.mpr ⟨_, expect_eq_ok.mpr hlast, rfl⟩⟩⟩, ?_⟩
  exact @fillFrom_take (0 :: cumsumFrom 0 qLens) _ _ _ (by rw [List.length_cons, hlen])

theorem startLocs_inv {buf starts : List Int} {qLens : List Nat} (h : startLocs buf qLens = .ok starts) :
    qLens ≠ [] ∧ (2 ≤ qLens.length → qLens.length + 1 ≤ buf.length) := by
  obtain ⟨_, _, h⟩ := bind_eq_ok.mp h
  obtain ⟨buf', hassign, h⟩ := bind_eq_ok.mp h
  obtain ⟨last, hlast, _⟩ := bind_eq_ok.mp h
  constructor
  · intro hnil
    rw [hnil] at hlast
    cases hlast
  · intro h2
    have := assignSlice_fits (cumsumFrom_length 0 qLens) h2 hassign
    rw [List.length_set] at this
    omega

/-! ## The metadata of one rank -/

/-- The lengths of the rows. -/
def rowLens (md : CommonAttentionMetadata) : List Int :=
  List.zipWith (· - ·) md.queryStartLocCpu.tail md.queryStartLocCpu

structure RankConsistent (md : CommonAttentionMetadata) : Prop where
  nonneg : 0 ≤ md.numActualTokens
  tokens : md.numActualTokens = (rowLens md).sum
  computed : md.numComputedTokensCpu = List.zipWith (· - ·) md.seqLensCpu (rowLens md)
  maxQueryLen : (rowLens md).max? = some md.maxQueryLen

/-- `query_start_loc` of a batch. -/
def startsFrom (acc : Nat) : List Request → List Nat
  | [] => [acc]
  | req :: reqs => acc :: startsFrom (acc + req.qLen) reqs

theorem requestsOf_starts (reqs : List Request) :
    requestsOf reqs.length (startsFrom 0 reqs) (reqs.map (·.kvLen)) = reqs := by
  have hlen : ∀ (acc : Nat) (reqs : List Request), (startsFrom acc reqs).length = reqs.length + 1 := by
    intro acc reqs
    induction reqs generalizing acc with
    | nil => rfl
    | cons req reqs ih => exact congrArg Nat.succ (ih _)
  have hdiff : ∀ (acc : Nat) (reqs : List Request), List.zipWith Request.mk
      (List.zipWith (· - ·) (startsFrom acc reqs).tail (startsFrom acc reqs)) (reqs.map (·.kvLen)) = reqs := by
    intro acc reqs
    induction reqs generalizing acc with
    | nil => rfl
    | cons req reqs ih =>
      have hhead : (startsFrom (acc + req.qLen) reqs) =
          (acc + req.qLen) :: (startsFrom (acc + req.qLen) reqs).tail := by
        cases reqs <;> rfl
      change List.zipWith _ (List.zipWith _ (startsFrom (acc + req.qLen) reqs) (acc :: startsFrom _ reqs)) _ = _
      nth_rewrite 1 [hhead]
      rw [List.map_cons, List.zipWith_cons_cons, List.zipWith_cons_cons, ih, Nat.add_sub_cancel_left]
  unfold requestsOf
  rw [List.take_of_length_le (hlen 0 reqs).le]
  exact hdiff 0 reqs

section
variable {d : Distribution} {numTokens : Nat} {blockTable : List (List Int)} {bufs : Buffers}

theorem metadataOf_inv {md : CommonAttentionMetadata} (h : metadataOf d numTokens blockTable bufs = .ok md) :
    d.rows ≠ [] ∧ (2 ≤ d.rows.length → md.queryStartLocCpu = 0 :: cumsumFrom 0 (d.rows.map (·.qLen)) ∧
      md.seqLensCpu = d.rows.map (·.kvLen) ∧
      md.numComputedTokensCpu = List.zipWith (· - ·) md.seqLensCpu md.queryStartLocCpu.tail) := by
  obtain ⟨starts, hstarts, h⟩ := bind_eq_ok.mp h
  obtain ⟨maxQ, _, h⟩ := bind_eq_ok.mp h
  obtain ⟨lens, hlens, h⟩ := bind_eq_ok.mp h
  obtain ⟨maxKv, _, h⟩ := bind_eq_ok.mp h
  obtain ⟨rows, _, h⟩ := bind_eq_ok.mp h
  cases pure_eq_ok.mp h
  obtain ⟨hne, hfit⟩ := startLocs_inv hstarts
  rw [List.length_map] at hfit
  refine ⟨fun hnil => hne (congrArg _ hnil), fun h2 => ?_⟩
  obtain ⟨starts', hstarts', htake⟩ := startLocs_ok hne (by rw [List.length_map]; exact hfit h2)
  obtain rfl : starts = starts' := Except.ok.inj (hstarts.symm.trans hstarts')
  rw [List.length_map] at htake
  have hkv : (d.rows.map (·.kvLen)).length = d.rows.length := List.length_map _
  have hseq := assignSlice_fits hkv h2 hlens
  obtain rfl := Except.ok.inj (hlens.symm.trans (assignSlice_ok hkv hseq))
  exact ⟨htake, fillFrom_take 0 hkv, rfl⟩

/-- Consistent metadata come from one row: with more rows the second one's `num_computed_tokens` is short of the
first one's length. -/
theorem rows_of_consistent {md : CommonAttentionMetadata} (h : metadataOf d numTokens blockTable bufs = .ok md)
    (hc : RankConsistent md) (hpos : ∀ row ∈ d.rows, 0 < row.qLen) : d.rows.length = 1 := by
  obtain ⟨hne, hmany⟩ := metadataOf_inv h
  cases hrows : d.rows with
  | nil => exact absurd hrows hne
  | cons a rows =>
    cases rows with
    | nil => rfl
    | cons b rows =>
      exfalso
      rw [hrows] at hmany hpos
      obtain ⟨hq, hs, hn⟩ := hmany (by simp)
      have hcomp := hc.computed
      unfold rowLens at hcomp
      rw [hn, hs, hq, List.tail_cons, zipWith_cumsum] at hcomp
      simp only [List.map_cons, cumsumFrom, List.zipWith_cons_cons] at hcomp
      have hb := (List.cons.inj (List.cons.inj hcomp).2).1
      have := hpos a List.mem_cons_self
      have hcast : Int.ofNat b.qLen = (b.qLen : Int) := rfl
      omega

theorem metadataOf_one {row : Row} {scatter : Option (List Int)} {gather : Option (List Nat)}
    (hq : 2 ≤ bufs.queryStartLoc.length) (hs : 1 ≤ bufs.seqLens.length) (hi : row.seqIndex < blockTable.length) :
    ∃ md, metadataOf ⟨row.qLen, [row], scatter, gather⟩ numTokens blockTable bufs = .ok md ∧ RankConsistent md ∧
      md.numActualTokens = row.qLen := by
  obtain ⟨starts, hstarts, htake⟩ := @startLocs_ok bufs.queryStartLoc [row.qLen] (List.cons_ne_nil _ _) hq
  have hlens := @assignSlice_ok bufs.seqLens [row.kvLen] 0 1 rfl (by omega)
  have hkv := @fillFrom_take [row.kvLen] (bufs.seqLens.drop (0 + 1)) 1 0 rfl
  have hmaxQ : maxOf (starts.take 2) = .ok (row.qLen : Int) := by
    have hmax : max (0 : Int) (0 + row.qLen) = row.qLen := by omega
    have hlist : List.max? [0, 0 + (row.qLen : Int)] = some (max (0 : Int) (0 + row.qLen)) := rfl
    rw [hmax] at hlist
    exact expect_eq_ok.mpr ((congrArg List.max? htake).trans hlist)
  have hmaxKv : maxOf ((fillFrom ([row.kvLen] ++ bufs.seqLens.drop (0 + 1)) 1 0).take 1) = .ok row.kvLen :=
    expect_eq_ok.mpr ((congrArg List.max? hkv).trans rfl)
  have htable : [row.seqIndex].mapM (fun i => blockTable[i]?) = some [blockTable[row.seqIndex]] := by simp [hi]
  refine ⟨⟨starts.take 2, (fillFrom ([row.kvLen] ++ bufs.seqLens.drop (0 + 1)) 1 0).take 1, _, 1, row.qLen, numTokens,
    row.qLen, row.kvLen, [blockTable[row.seqIndex]], [row.seqIndex], scatter, gather⟩, bind_eq_ok.mpr ⟨starts, hstarts,
    bind_eq_ok.mpr ⟨_, hmaxQ, bind_eq_ok.mpr ⟨_, hlens, bind_eq_ok.mpr ⟨_, hmaxKv, bind_eq_ok.mpr ⟨_,
      expect_eq_ok.mpr htable, rfl⟩⟩⟩⟩⟩, ?_, rfl⟩
  have htake2 : starts.take 2 = [0, 0 + (row.qLen : Int)] := htake
  have hq0 : 0 + (row.qLen : Int) - 0 = row.qLen := by omega
  have hlen : List.zipWith (· - ·) (starts.take 2).tail (starts.take 2) = [(row.qLen : Int)] := by
    rw [htake2]
    exact congrArg (fun x => [x]) hq0
  constructor
  · exact Int.natCast_nonneg _
  · unfold rowLens
    rw [hlen]
    exact (add_zero _).symm
  · unfold rowLens
    rw [hlen]
    refine (congrArg₂ (List.zipWith (· - ·)) hkv (congrArg List.tail htake2)).trans ?_
    change [row.kvLen - (0 + (row.qLen : Int))] = List.zipWith (· - ·) _ [(row.qLen : Int)]
    rw [Int.zero_add, hkv]
    rfl
  · unfold rowLens
    rw [hlen]
    rfl

end

/-! ## The rows of a contiguous run -/

theorem totalTokens_cons (req : Request) (reqs : List Request) :
    totalTokens (req :: reqs) = req.qLen + totalTokens reqs := List.sum_cons

theorem contiguousRows_past {endToken start : Nat} (h : endToken ≤ start) (i pos : Nat) (reqs : List Request) :
    contiguousRows endToken i start pos reqs = [] := by
  cases reqs with
  | nil => rfl
  | cons req reqs => exact if_neg (by omega)

/-- What the rows have of the run `[start, endToken)` that the requests from `pos` on cover. -/
structure RunRows (endToken start i pos : Nat) (reqs : List Request) (rows : List Row) : Prop where
  pos_len : ∀ row ∈ rows, 0 < row.qLen
  index : ∀ row ∈ rows, row.seqIndex < i + reqs.length
  sum : (rows.map (·.qLen)).sum = endToken - start
  one : rows.length = 1 ↔ ∀ k < reqs.length,
    ¬ (start < pos + totalTokens (reqs.take k) ∧ pos + totalTokens (reqs.take k) < endToken)

theorem contiguousRows_run {endToken : Nat} : ∀ {reqs : List Request} {i start pos : Nat}, pos ≤ start →
    start < endToken → endToken ≤ pos + totalTokens reqs →
    RunRows endToken start i pos reqs (contiguousRows endToken i start pos reqs)
  | [], i, start, pos, hpos, hlt, hend => by
    have : totalTokens [] = 0 := rfl
    omega
  | req :: reqs, i, start, pos, hpos, hlt, hend => by
    rw [totalTokens_cons] at hend
    unfold contiguousRows
    rw [if_pos hlt]
    simp only [Nat.max_eq_left hpos]
    have htake : ∀ k, pos + totalTokens ((req :: reqs).take (k + 1)) = pos + req.qLen + totalTokens (reqs.take k) := by
      intro k
      rw [List.take_succ_cons, totalTokens_cons, Nat.add_assoc]
    have hzero : pos + totalTokens ((req :: reqs).take 0) = pos := rfl
    by_cases hskip : pos + req.qLen ≤ start
    · -- the request ends before the run
      rw [if_neg (by omega)]
      have hend' : endToken ≤ pos + req.qLen + totalTokens reqs := by omega
      have ih := contiguousRows_run (i := i + 1) hskip hlt hend'
      refine ⟨ih.pos_len, fun row hrow => ?_, ih.sum, ih.one.trans ⟨fun h k hk => ?_, fun h k hk => ?_⟩⟩
      · have := ih.index row hrow
        rw [List.length_cons]
        omega
      · cases k with
        | zero =>
          rw [hzero]
          omega
        | succ k =>
          rw [htake]
          exact h k (Nat.lt_of_succ_lt_succ hk)
      · rw [← htake]
        exact h (k + 1) (Nat.succ_lt_succ hk)
    · rw [if_pos (by omega)]
      by_cases hlast : endToken ≤ pos + req.qLen
      · -- the run ends in this request
        rw [Nat.min_eq_left hlast, contiguousRows_past (Nat.le_refl _)]
        refine ⟨fun row hrow => ?_, fun row hrow => ?_, List.sum_singleton, ⟨fun _ k _ => ?_, fun _ => rfl⟩⟩
        · rw [List.mem_singleton.mp hrow]
          exact Nat.sub_pos_of_lt hlt
        · rw [List.mem_singleton.mp hrow, List.length_cons]
          change i < _
          omega
        · cases k with
          | zero =>
            rw [hzero]
            omega
          | succ k =>
            rw [htake]
            omega
      · have hmin : min endToken (pos + req.qLen) = pos + req.qLen := by omega
        rw [hmin]
        have hend' : endToken ≤ pos + req.qLen + totalTokens reqs := by omega
        have ih := contiguousRows_run (i := i + 1) (Nat.le_refl (pos + req.qLen)) (Nat.lt_of_not_le hlast) hend'
        refine ⟨fun row hrow => ?_, fun row hrow => ?_, ?_, ⟨fun h => ?_, fun h => ?_⟩⟩
        · obtain rfl | hrow := List.mem_cons.mp hrow
          · change 0 < pos + req.qLen - start
            omega
          · exact ih.pos_len row hrow
        · rw [List.length_cons]
          obtain rfl | hrow := List.mem_cons.mp hrow
          · change i < _
            omega
          · have := ih.index row hrow
            omega
        · rw [List.map_cons, List.sum_cons, ih.sum]
          change pos + req.qLen - start + _ = _
          omega
        · -- more rows follow
          rw [List.length_cons, Nat.add_eq_right, List.length_eq_zero_iff] at h
          have hsum := ih.sum
          rw [h, List.map_nil, List.sum_nil] at hsum
          omega
        · have hne : reqs ≠ [] := by
            rintro rfl
            have : totalTokens [] = 0 := rfl
            omega
          refine absurd ?_ (h 1 (by rw [List.length_cons]; have := List.length_pos_iff.mpr hne; omega))
          rw [htake 0]
          have : totalTokens (reqs.take 0) = 0 := rfl
          omega

theorem totalTokens_take_lt {reqs : List Request} (hpos : ∀ req ∈ reqs, 0 < req.qLen) :
    ∀ {k : Nat}, k < reqs.length → totalTokens (reqs.take k) < totalTokens reqs := by
  induction reqs with
  | nil => exact nofun
  | cons req reqs ih =>
    intro k hk
    cases k with
    | zero =>
      have := hpos req List.mem_cons_self
      have hnil : totalTokens ((req :: reqs).take 0) = 0 := rfl
      rw [hnil, totalTokens_cons]
      omega
    | succ k =>
      rw [List.take_succ_cons, totalTokens_cons, totalTokens_cons]
      exact Nat.add_lt_add_left (ih (fun r hr => hpos r (List.mem_cons_of_mem _ hr)) (Nat.lt_of_succ_lt_succ hk)) _

/-! ## The rows of balanced chunks -/

section
variable {tpSize : Nat}

theorem chunkLen_pos (htp : 0 < tpSize) {q : Nat} (hq : 0 < q) : 0 < chunkLen tpSize q := by
  rw [chunkLen_eq htp, lt_cdiv (by omega)]
  omega

theorem tileRow_length (htp : 0 < tpSize) {req : Request} (hq : 0 < req.qLen) (i accu k : Nat) :
    (tileRow tpSize i accu k req).length = if k * chunkLen tpSize req.qLen < req.qLen then 1 else 0 := by
  have hc := chunkLen_pos htp hq
  have hmul : (k + 1) * chunkLen tpSize req.qLen = k * chunkLen tpSize req.qLen + chunkLen tpSize req.qLen :=
    Nat.succ_mul ..
  unfold tileRow chunkRow
  simp only [partLen_tile]
  by_cases hk : k * chunkLen tpSize req.qLen < req.qLen
  · rw [if_pos (by omega), if_pos hk]
    rfl
  · rw [if_neg (by omega), if_neg hk]
    rfl

theorem balancedRows_ge (htp : 0 < tpSize) : ∀ {reqs : List Request} (i accu : Nat), (∀ req ∈ reqs, 0 < req.qLen) →
    reqs.length ≤ (balancedRows tpSize 0 i accu reqs).length
  | [], _, _, _ => Nat.zero_le _
  | req :: reqs, i, accu, hpos => by
    have ih := balancedRows_ge htp (i + 1) (accu + req.qLen) fun r hr => hpos r (List.mem_cons_of_mem _ hr)
    have hq := hpos req List.mem_cons_self
    have hhead := tileRow_length htp hq i accu 0
    rw [if_pos (by omega)] at hhead
    unfold balancedRows
    rw [List.length_append, List.length_cons, requestRows_eq htp, List.length_append, hhead]
    omega

theorem balancedRows_single (htp : 0 < tpSize) {req : Request} (hq : 0 < req.qLen) {r : Nat} (hr : r < tpSize) :
    (balancedRows tpSize r 0 0 [req]).length = (if r * chunkLen tpSize req.qLen < req.qLen then 1 else 0) +
      (if (2 * tpSize - 1 - r) * chunkLen tpSize req.qLen < req.qLen then 1 else 0) := by
  change (requestRows tpSize r 0 0 req ++ []).length = _
  rw [List.append_nil, requestRows_eq hr, List.length_append, tileRow_length htp hq, tileRow_length htp hq]

/-- Every rank has one row of the only request when it has one token for each rank. -/
theorem one_token_each (htp : 0 < tpSize) {req : Request} (hq : 0 < req.qLen) :
    (∀ r < tpSize, (balancedRows tpSize r 0 0 [req]).length = 1) ↔ req.qLen = tpSize := by
  constructor
  · intro h
    have hlast := h (tpSize - 1) (by omega)
    rw [balancedRows_single htp hq (by omega)] at hlast
    have hk : 2 * tpSize - 1 - (tpSize - 1) = tpSize := by omega
    rw [hk] at hlast
    have hc := chunkLen_pos htp hq
    have hstep : tpSize * chunkLen tpSize req.qLen =
        (tpSize - 1) * chunkLen tpSize req.qLen + chunkLen tpSize req.qLen := by
      rw [← Nat.succ_mul, Nat.succ_eq_add_one, Nat.sub_add_cancel htp]
    -- the head chunk of the last rank is not empty and its tail chunk is
    have hhead : (tpSize - 1) * chunkLen tpSize req.qLen < req.qLen := by
      by_contra hno
      rw [if_neg hno, if_neg (by omega)] at hlast
      omega
    have htail : req.qLen ≤ tpSize * chunkLen tpSize req.qLen := by
      by_contra hno
      rw [if_pos hhead, if_pos (by omega)] at hlast
      omega
    have hone : chunkLen tpSize req.qLen = 1 := by
      by_contra hno
      have hprev : (chunkLen tpSize req.qLen - 1) * (2 * tpSize) < req.qLen :=
        (lt_cdiv (by omega)).mp (by rw [← chunkLen_eq htp]; omega)
      have hmul : chunkLen tpSize req.qLen * tpSize ≤ (chunkLen tpSize req.qLen - 1) * 2 * tpSize :=
        Nat.mul_le_mul_right tpSize (by omega)
      rw [Nat.mul_assoc, Nat.mul_comm _ tpSize] at hmul
      omega
    rw [hone] at hhead htail
    omega
  · intro h r hr
    have hone : chunkLen tpSize req.qLen = 1 := by
      rw [chunkLen_eq htp, h]
      unfold cdiv
      exact Nat.div_eq_of_lt_le (by omega) (by omega)
    rw [balancedRows_single htp hq hr, hone, if_pos (by omega), if_neg (by omega)]

end

/-! ## All ranks -/

def prepareBatch (reqs : List Request) (tpRank tpSize : Nat) (balanced : Bool) (blockTable : List (List Int))
    (bufs : Buffers) : Except String CommonAttentionMetadata :=
  prepareCpMetadata reqs.length (totalTokens reqs) tpRank tpSize balanced (startsFrom 0 reqs) (reqs.map (·.kvLen))
    blockTable bufs

theorem prepareBatch_eq {tpRank tpSize : Nat} {balanced : Bool} {reqs : List Request} {blockTable : List (List Int)}
    {bufs : Buffers} : prepareBatch reqs tpRank tpSize balanced blockTable bufs =
      metadataOf (distributeTokens (totalTokens reqs) reqs tpRank tpSize balanced) (totalTokens reqs) blockTable bufs := by
  unfold prepareBatch prepareCpMetadata
  rw [requestsOf_starts]

/-- Every rank's call succeeds with consistent metadata, and the ranks' token counts add up to the batch. -/
def AllConsistent (tpSize : Nat) (balanced : Bool) (reqs : List Request) (blockTable : List (List Int)) (bufs : Buffers) :
    Prop :=
  ∃ mds : Nat → CommonAttentionMetadata,
    (∀ r < tpSize, prepareBatch reqs r tpSize balanced blockTable bufs = .ok (mds r) ∧ RankConsistent (mds r)) ∧
    ((List.range tpSize).map fun r => (mds r).numActualTokens).sum = totalTokens reqs

/-- Balanced, there is one request with one token for each rank. Contiguous, the last rank has tokens and each request
starts where the run of some rank does. -/
def OneRowEach (tpSize : Nat) (balanced : Bool) (reqs : List Request) : Prop :=
  if balanced then reqs.map (·.qLen) = [tpSize]
  else (tpSize - 1) * cdiv (totalTokens reqs) tpSize < totalTokens reqs ∧
    ∀ k < reqs.length, cdiv (totalTokens reqs) tpSize ∣ totalTokens (reqs.take k)

section
variable {tpSize : Nat} {reqs : List Request} {blockTable : List (List Int)} {bufs : Buffers}

theorem rank_run {r : Nat} (h : r * cdiv (totalTokens reqs) tpSize <
      min ((r + 1) * cdiv (totalTokens reqs) tpSize) (totalTokens reqs)) :
    RunRows (min ((r + 1) * cdiv (totalTokens reqs) tpSize) (totalTokens reqs))
      (r * cdiv (totalTokens reqs) tpSize) 0 0 reqs
      (contiguousRows (min ((r + 1) * cdiv (totalTokens reqs) tpSize) (totalTokens reqs)) 0
        (r * cdiv (totalTokens reqs) tpSize) 0 reqs) :=
  contiguousRows_run (Nat.zero_le _) h (by rw [Nat.zero_add]; exact Nat.min_le_right _ _)

theorem rows_pos {balanced : Bool} {r : Nat} (hr : r < tpSize) :
    ∀ row ∈ (distributeTokens (totalTokens reqs) reqs r tpSize balanced).rows, 0 < row.qLen := by
  intro row hrow
  cases balanced with
  | true =>
    obtain ⟨p, hp, rfl⟩ := List.mem_map.mp hrow
    obtain ⟨_, _, _, _, hc⟩ := balancedRows_chunk hr hp
    exact hc.pos
  | false =>
    change row ∈ contiguousRows (min ((r + 1) * cdiv (totalTokens reqs) tpSize) (totalTokens reqs)) 0
      (r * cdiv (totalTokens reqs) tpSize) 0 reqs at hrow
    by_cases hlt : r * cdiv (totalTokens reqs) tpSize <
        min ((r + 1) * cdiv (totalTokens reqs) tpSize) (totalTokens reqs)
    · exact (rank_run hlt).pos_len row hrow
    · rw [contiguousRows_past (Nat.le_of_not_lt hlt)] at hrow
      cases hrow

theorem balanced_one_iff (htp : 0 < tpSize) (hne : reqs ≠ []) (hpos : ∀ req ∈ reqs, 0 < req.qLen) :
    (∀ r < tpSize, (distributeTokens (totalTokens reqs) reqs r tpSize true).rows.length = 1) ↔
      OneRowEach tpSize true reqs := by
  have hrows : ∀ r, (distributeTokens (totalTokens reqs) reqs r tpSize true).rows.length =
      (balancedRows tpSize r 0 0 reqs).length := fun r => List.length_map _
  simp only [hrows]
  cases reqs with
  | nil => exact absurd rfl hne
  | cons req reqs =>
    have hq := hpos req List.mem_cons_self
    cases reqs with
    | nil =>
      rw [one_token_each htp hq]
      exact ⟨fun h => congrArg (fun x => [x]) h, fun h => (List.cons.inj h).1⟩
    | cons req' reqs =>
      constructor
      · intro h
        have hge := balancedRows_ge htp 0 0 hpos
        rw [h 0 htp, List.length_cons, List.length_cons] at hge
        omega
      · intro h
        cases h

/-- The run of rank `r`, and when it is one row. -/
theorem contiguous_one (htp : 0 < tpSize) {r : Nat} :
    (distributeTokens (totalTokens reqs) reqs r tpSize false).rows.length = 1 ↔
      r * cdiv (totalTokens reqs) tpSize < totalTokens reqs ∧ ∀ k < reqs.length,
        ¬ (r * cdiv (totalTokens reqs) tpSize < totalTokens (reqs.take k) ∧
          totalTokens (reqs.take k) < min ((r + 1) * cdiv (totalTokens reqs) tpSize) (totalTokens reqs)) := by
  have hmul : (r + 1) * cdiv (totalTokens reqs) tpSize =
      r * cdiv (totalTokens reqs) tpSize + cdiv (totalTokens reqs) tpSize := Nat.succ_mul ..
  change (contiguousRows (min ((r + 1) * cdiv (totalTokens reqs) tpSize) (totalTokens reqs)) 0
    (r * cdiv (totalTokens reqs) tpSize) 0 reqs).length = 1 ↔ _
  by_cases hlt : r * cdiv (totalTokens reqs) tpSize <
      min ((r + 1) * cdiv (totalTokens reqs) tpSize) (totalTokens reqs)
  · rw [(rank_run hlt).one]
    simp only [Nat.zero_add]
    exact ⟨fun h => ⟨by omega, h⟩, And.right⟩
  · rw [contiguousRows_past (Nat.le_of_not_lt hlt)]
    constructor
    · intro h
      cases h
    · intro ⟨h, _⟩
      -- there is a token for each rank where there are tokens
      have hcover := le_cdiv_mul (totalTokens reqs) htp
      have hzero : cdiv (totalTokens reqs) tpSize = 0 := by omega
      rw [hzero] at hcover h
      omega

theorem contiguous_one_iff (htp : 0 < tpSize) (hpos : ∀ req ∈ reqs, 0 < req.qLen) :
    (∀ r < tpSize, (distributeTokens (totalTokens reqs) reqs r tpSize false).rows.length = 1) ↔
      OneRowEach tpSize false reqs := by
  simp only [contiguous_one htp]
  constructor
  · intro h
    refine ⟨(h (tpSize - 1) (by omega)).1, fun k hk => ?_⟩
    by_contra hdvd
    have hlt := totalTokens_take_lt hpos hk
    have hcover := le_cdiv_mul (totalTokens reqs) htp
    have hdiv := Nat.div_add_mod (totalTokens (reqs.take k)) (cdiv (totalTokens reqs) tpSize)
    have hmod := Nat.pos_of_ne_zero fun h0 => hdvd (Nat.dvd_of_mod_eq_zero h0)
    have ht : 0 < cdiv (totalTokens reqs) tpSize := Nat.pos_of_ne_zero fun h0 => by
      rw [h0] at hcover
      omega
    have hmodlt := Nat.mod_lt (totalTokens (reqs.take k)) ht
    have hr : totalTokens (reqs.take k) / cdiv (totalTokens reqs) tpSize < tpSize :=
      Nat.div_lt_of_lt_mul (by omega)
    refine (h _ hr).2 k hk ⟨?_, ?_⟩
    · rw [Nat.mul_comm]
      omega
    · rw [Nat.succ_mul, Nat.mul_comm]
      omega
  · intro ⟨hlast, hdvd⟩ r hr
    have hle := Nat.mul_le_mul_right (cdiv (totalTokens reqs) tpSize) (Nat.le_sub_one_of_lt hr)
    refine ⟨by omega, fun k hk ⟨hlo, hhi⟩ => ?_⟩
    obtain ⟨m, hm⟩ := hdvd k hk
    rw [hm, Nat.mul_comm _ m] at hlo hhi
    have h₁ := Nat.lt_of_mul_lt_mul_right hlo
    have h₂ := Nat.lt_of_mul_lt_mul_right (Nat.lt_of_lt_of_le hhi (Nat.min_le_left _ _))
    omega

theorem one_row {balanced : Bool} {r : Nat} (hr : r < tpSize)
    (h : (distributeTokens (totalTokens reqs) reqs r tpSize balanced).rows.length = 1) :
    ∃ row scatter gather, distributeTokens (totalTokens reqs) reqs r tpSize balanced =
      ⟨row.qLen, [row], scatter, gather⟩ ∧ row.seqIndex < reqs.length := by
  obtain ⟨row, hrow⟩ := List.length_eq_one_iff.mp h
  have hmem : row ∈ (distributeTokens (totalTokens reqs) reqs r tpSize balanced).rows := by
    rw [hrow]
    exact List.mem_singleton_self row
  cases balanced with
  | true =>
    obtain ⟨p, hp, rfl⟩ := List.mem_map.mp hmem
    obtain ⟨k, req, _, hk, hc⟩ := balancedRows_chunk hr hp
    have hrow' : (balancedRows tpSize r 0 0 reqs).map Prod.fst = [p.1] := hrow
    refine ⟨p.1, some (scatterIndexes tpSize r reqs), some (gatherIndexes (globalScatterIndexes tpSize reqs)), ?_, ?_⟩
    · change Distribution.mk ((((balancedRows tpSize r 0 0 reqs).map Prod.fst).map (·.qLen)).sum : Nat)
        ((balancedRows tpSize r 0 0 reqs).map Prod.fst) _ _ = _
      rw [hrow']
      rfl
    · rw [hc.seqIndex, Nat.zero_add]
      exact (List.getElem?_eq_some_iff.mp hk).1
  | false =>
    have htp : 0 < tpSize := by omega
    have hmul : (r + 1) * cdiv (totalTokens reqs) tpSize =
        r * cdiv (totalTokens reqs) tpSize + cdiv (totalTokens reqs) tpSize := Nat.succ_mul ..
    have hlt := ((contiguous_one htp).mp h).1
    have hcover := le_cdiv_mul (totalTokens reqs) htp
    have ht : 0 < cdiv (totalTokens reqs) tpSize := Nat.pos_of_ne_zero fun h0 => by
      rw [h0] at hcover
      omega
    have hrun := @rank_run tpSize reqs r (by omega)
    have hrow' : contiguousRows (min ((r + 1) * cdiv (totalTokens reqs) tpSize) (totalTokens reqs)) 0
        (r * cdiv (totalTokens reqs) tpSize) 0 reqs = [row] := hrow
    have hsum := hrun.sum
    have hindex := hrun.index row hmem
    rw [hrow', List.map_singleton, List.sum_singleton] at hsum
    refine ⟨row, none, none, ?_, by omega⟩
    refine congrArg₂ (fun tokens rows => Distribution.mk tokens rows none none) ?_ hrow'
    change min ((cdiv (totalTokens reqs) tpSize : Nat) : Int)
      (((min ((r + 1) * cdiv (totalTokens reqs) tpSize) (totalTokens reqs) : Nat) : Int) -
        ((r * cdiv (totalTokens reqs) tpSize : Nat) : Int)) = _
    omega

theorem tokens_sum {balanced : Bool} (htp : 0 < tpSize)
    (h : ∀ r < tpSize, (distributeTokens (totalTokens reqs) reqs r tpSize balanced).rows.length = 1) :
    ((List.range tpSize).map fun r =>
      ((distributeTokens (totalTokens reqs) reqs r tpSize balanced).rows.map (·.qLen)).sum).sum = totalTokens reqs := by
  cases balanced with
  | true =>
    have hperm := (rankTokens_perm htp 0 0 reqs).length_eq
    rw [List.length_flatMap, List.length_range'] at hperm
    refine (congrArg List.sum (List.map_congr_left fun r hr => ?_)).trans hperm
    unfold rankTokens
    rw [List.length_flatMap]
    change (((balancedRows tpSize r 0 0 reqs).map Prod.fst).map (·.qLen)).sum = _
    rw [List.map_map]
    congr 1
    apply List.map_congr_left
    intro p hp
    obtain ⟨_, _, _, _, hc⟩ := balancedRows_chunk (List.mem_range.mp hr) hp
    rw [hc.tokens, List.length_range']
    rfl
  | false =>
    have hcover := le_cdiv_mul (totalTokens reqs) htp
    have htile := congrArg List.length (flatMap_tile 0 (totalTokens reqs) (cdiv (totalTokens reqs) tpSize) tpSize)
    rw [List.length_flatMap, List.length_range', Nat.min_eq_left (by rwa [Nat.mul_comm])] at htile
    refine (congrArg List.sum (List.map_congr_left fun r hr => ?_)).trans htile
    have hlt := ((contiguous_one htp).mp (h r (List.mem_range.mp hr))).1
    have hmul : (r + 1) * cdiv (totalTokens reqs) tpSize =
        r * cdiv (totalTokens reqs) tpSize + cdiv (totalTokens reqs) tpSize := Nat.succ_mul ..
    have ht : 0 < cdiv (totalTokens reqs) tpSize := Nat.pos_of_ne_zero fun h0 => by
      rw [h0] at hcover
      omega
    have hrun := @rank_run tpSize reqs r (by omega)
    unfold tile
    rw [List.length_range']
    refine hrun.sum.trans ?_
    omega

end

theorem metadata_consistent_iff (tpSize : Nat) (htp : 0 < tpSize) (balanced : Bool) (reqs : List Request)
    (hne : reqs ≠ []) (hpos : ∀ req ∈ reqs, 0 < req.qLen) (blockTable : List (List Int))
    (htable : reqs.length ≤ blockTable.length) (bufs : Buffers) (hq : reqs.length + 1 ≤ bufs.queryStartLoc.length)
    (hs : reqs.length ≤ bufs.seqLens.length) :
    AllConsistent tpSize balanced reqs blockTable bufs ↔ OneRowEach tpSize balanced reqs := by
  have hlen := List.length_pos_iff.mpr hne
  have hiff : (∀ r < tpSize, (distributeTokens (totalTokens reqs) reqs r tpSize balanced).rows.length = 1) ↔
      OneRowEach tpSize balanced reqs := by
    cases balanced with
    | true => exact balanced_one_iff htp hne hpos
    | false => exact contiguous_one_iff htp hpos
  rw [← hiff]
  constructor
  · intro ⟨mds, hmds, _⟩ r hr
    obtain ⟨hok, hc⟩ := hmds r hr
    rw [prepareBatch_eq] at hok
    exact rows_of_consistent hok hc (rows_pos hr)
  · intro h
    have hmd : ∀ r, ∃ md, r < tpSize → (prepareBatch reqs r tpSize balanced blockTable bufs = .ok md ∧
        RankConsistent md) ∧ md.numActualTokens =
          (((distributeTokens (totalTokens reqs) reqs r tpSize balanced).rows.map (·.qLen)).sum : Nat) := by
      intro r
      by_cases hr : r < tpSize
      · obtain ⟨row, scatter, gather, hd, hi⟩ := one_row hr (h r hr)
        obtain ⟨md, hok, hc, htok⟩ := @metadataOf_one (totalTokens reqs) blockTable bufs row scatter gather (by omega)
          (by omega) (by omega)
        refine ⟨md, fun _ => ⟨⟨?_, hc⟩, ?_⟩⟩
        · rw [prepareBatch_eq, hd]
          exact hok
        · rw [htok, hd]
          rfl
      · exact ⟨⟨[], [], [], 0, 0, 0, 0, 0, [], [], none, none⟩, fun hlt => absurd hlt hr⟩
    choose mds hmds using hmd
    refine ⟨mds, fun r hr => (hmds r hr).1, ?_⟩
    rw [← tokens_sum htp h, Nat.cast_list_sum, List.map_map]
    congr 1
    apply List.map_congr_left
    intro r hr
    exact (hmds r (List.mem_range.mp hr)).2

theorem metadata_consistent_two_ranks :
    AllConsistent 2 false [⟨2, 5⟩, ⟨2, 2⟩] [[0], [1]] ⟨[0, 0, 0], [0, 0]⟩ ↔
      OneRowEach 2 false [⟨2, 5⟩, ⟨2, 2⟩] :=
  metadata_consistent_iff 2 (by decide) false [⟨2, 5⟩, ⟨2, 2⟩] (by decide) (by decide) [[0], [1]] (by decide)
    ⟨[0, 0, 0], [0, 0]⟩ (by decide) (by decide)

/-- Two new requests on one rank: the second has `num_computed_tokens` -2. -/
theorem second_row_short :
    (∃ md, prepareBatch [⟨2, 2⟩, ⟨3, 3⟩] 0 1 false [[0], [1]] ⟨[0, 0, 0], [0, 0]⟩ = .ok md ∧
      md.numComputedTokensCpu = [0, -2] ∧ md.maxQueryLen = 5) ∧
    (∃ error, prepareBatch [⟨1, 1⟩] 1 2 false [[0]] ⟨[0, 0], [0]⟩ = .error error) ∧
    ¬ AllConsistent 1 false [⟨2, 2⟩, ⟨3, 3⟩] [[0], [1]] ⟨[0, 0, 0], [0, 0]⟩ := by
  have hok : prepareBatch [⟨2, 2⟩, ⟨3, 3⟩] 0 1 false [[0], [1]] ⟨[0, 0, 0], [0, 0]⟩ =
      .ok ⟨[0, 2, 5], [2, 3], [0, -2], 2, 5, 5, 5, 3, [[0], [1]], [0, 1], none, none⟩ := by rfl
  refine ⟨⟨_, hok, rfl, rfl⟩, ⟨_, rfl⟩, ?_⟩
  intro ⟨mds, hmds, _⟩
  obtain ⟨hmd, hc⟩ := hmds 0 Nat.zero_lt_one
  have hcomp := hc.computed
  rw [← Except.ok.inj (hok.symm.trans hmd)] at hcomp
  exact absurd hcomp (by decide)

end VllmHcu.Cp
