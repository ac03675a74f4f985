import VllmHcu.HyV4.SinkDcp

/-!
# The sink counts once

Weighted by its LSE, the output of a rank is the numerator over its own keys;
the LSE of rank 0 holds the sink besides its denominator. The combination is
sink attention over all selected keys.
-/

namespace VllmHcu.HyV4

open LogSumExp

section
variable {Q Key : Type} {score : Q → Key → ℝ} {value : Key → Nat → ℝ} {q : Q} {width : Nat} {key : Nat → Option Key}

theorem denominator_pos {j : Nat} (hj : j < width) (hk : key j ≠ none) : 0 < denominator score q width key := by
  apply Finset.sum_pos'
  · intro i _
    cases key i with
    | none => exact le_refl 0
    | some k => exact (Real.exp_pos _).le
  · refine ⟨j, Finset.mem_range.mpr hj, ?_⟩
    obtain ⟨k, hk⟩ := Option.ne_none_iff_exists'.mp hk
    rw [hk]
    exact Real.exp_pos _

theorem denominator_empty (h : ∀ j < width, key j = none) : denominator score q width key = 0 := by
  apply Finset.sum_eq_zero
  intro j hj
  rw [h j (Finset.mem_range.mp hj)]
  rfl

theorem numerator_empty (h : ∀ j < width, key j = none) (d : Nat) : numerator score value q width key d = 0 := by
  apply Finset.sum_eq_zero
  intro j hj
  rw [h j (Finset.mem_range.mp hj)]
  rfl

end

theorem keyAt_eq_none {Key : Type} (cache : Nat → Key) (index : Int) : keyAt cache index = none ↔ index = -1 := by
  unfold keyAt
  split
  · rename_i h
    exact ⟨fun _ => h, fun _ => rfl⟩
  · rename_i h
    exact ⟨nofun, fun he => absurd he h⟩

/-- A sum over the keys of all ranks, each key owned by one rank. -/
theorem sum_owned {Key : Type} {ranks width : Nat} {owner : Nat → Nat} (howner : ∀ j < width, owner j < ranks)
    (key : Nat → Option Key) (f : Key → ℝ) :
    ∑ r ∈ Finset.range ranks, ∑ j ∈ Finset.range width, (if owner j = r then key j else none).elim 0 f =
      ∑ j ∈ Finset.range width, (key j).elim 0 f := by
  rw [Finset.sum_comm]
  refine Finset.sum_congr rfl fun j hj => ?_
  have hmem : owner j ∈ Finset.range ranks := Finset.mem_range.mpr (howner j (Finset.mem_range.mp hj))
  rw [Finset.sum_eq_single_of_mem (owner j) hmem, if_pos rfl]
  intro r _ hne
  rw [if_neg (Ne.symm hne)]
  rfl

section
variable (g : DcpImpl)

/-- The impl of rank `r` of the group. -/
def DcpImpl.atRank (r : Nat) : DcpImpl := { g with dcpRank := r }

/-- The gathered query heads. -/
def DcpImpl.queryHeads : Nat := g.dcpWorldSize * g.numHeads

variable {g} {sinks : Nat → Nat → ℝ} (hsinks : g.sinks = some sinks)
include hsinks

theorem gathered_sinks (r : Nat) :
    (g.atRank r).dcpGatheredSinks = some ⟨g.queryHeads, allGather g.numHeads sinks⟩ := by
  simp only [DcpImpl.dcpGatheredSinks, DcpImpl.atRank, hsinks, Option.map_some, DcpImpl.queryHeads]

/-- Off rank 0 the kernel gets no sink; on rank 0 every gathered head gets its own. -/
theorem sink_for_query (hpad : g.queryHeads ≤ g.fp8DecodePaddedHeads) (r : Nat) :
    ∃ sink, (g.atRank r).fp8SinkForGatheredQuery g.queryHeads = .ok sink ∧ (r ≠ 0 → sink = none) ∧
      (r = 0 → ∃ s, sink = some s ∧ ∀ h < g.queryHeads, s h = (allGather g.numHeads sinks h : ℝ)) := by
  by_cases hr : r = 0
  · have hcond : ¬ ((g.atRank r).dcpRank ≠ 0 ∨ (g.atRank r).sinks.isNone = true) := by
      simp [DcpImpl.atRank, hr, hsinks]
    have hge : ¬ (g.atRank r).fp8DecodePaddedHeads < g.queryHeads := Nat.not_lt.mpr hpad
    rw [DcpImpl.fp8SinkForGatheredQuery, if_neg hcond, gathered_sinks hsinks]
    simp only [ne_eq, not_true_eq_false, if_false, if_neg hge]
    split
    · exact ⟨_, rfl, fun hne => absurd hr hne, fun _ => ⟨_, rfl, fun h _ => rfl⟩⟩
    · exact ⟨_, rfl, fun hne => absurd hr hne, fun _ => ⟨_, rfl, fun h hh => if_pos hh⟩⟩
  · have hcond : (g.atRank r).dcpRank ≠ 0 ∨ (g.atRank r).sinks.isNone = true := .inl hr
    exact ⟨none, if_pos hcond, fun _ => rfl, fun he => absurd he hr⟩

/-- Rank 0 adds the sink of each head to its LSE, the other ranks nothing. -/
theorem add_sink (r : Nat) (rawLse : Nat → Nat → Lse) :
    ∃ lse, (g.atRank r).addSingleDcpSinkToLse g.queryHeads rawLse = .ok lse ∧ ∀ t h,
      weight (lse t h) = weight (rawLse t h) + if r = 0 then Real.exp (allGather g.numHeads sinks h) else 0 := by
  by_cases hr : r = 0
  · have hcond : ¬ ((g.atRank r).dcpRank ≠ 0 ∨ (g.atRank r).sinks.isNone = true) := by
      simp [DcpImpl.atRank, hr, hsinks]
    refine ⟨fun t h => logaddexp (rawLse t h) (allGather g.numHeads sinks h : ℝ), ?_, fun t h => ?_⟩
    · rw [DcpImpl.addSingleDcpSinkToLse, if_neg hcond, gathered_sinks hsinks]
      simp
    · rw [weight_logaddexp, weight_coe, if_pos hr]
  · have hcond : (g.atRank r).dcpRank ≠ 0 ∨ (g.atRank r).sinks.isNone = true := .inl hr
    exact ⟨rawLse, if_pos hcond, fun t h => by rw [if_neg hr, add_zero]⟩

end

section
variable {Q Key : Type} [Zero Q] {kernel : KernelArgs Q Key → KernelResult} {score : Q → Key → ℝ} {value : Key → Nat → ℝ}
variable (hk : KernelSpec score value kernel) {g : DcpImpl} {sinks : Nat → Nat → ℝ} (hsinks : g.sinks = some sinks)
variable (hpad : g.queryHeads ≤ g.fp8DecodePaddedHeads) (hlse : g.needToReturnLseForDecode = true)
include hk hsinks hpad hlse

/-- What a rank returns, weighted: the numerator over its own keys, and its denominator with the sink on rank 0. -/
theorem rank_result (query : Nat → Nat → Q) (cache : Nat → Key) (width : Nat) (convert : Nat → Nat → Int) (r : Nat) :
    ∃ out lse, (g.atRank r).forwardFp8KvMixedBatch kernel g.queryHeads query cache width convert = .ok (out, some lse) ∧
      ∀ t, ∀ h < g.queryHeads,
        weight (lse t h) = denominator score (query t h) width (fun j => keyAt cache (convert t j)) +
          (if r = 0 then Real.exp (allGather g.numHeads sinks h) else 0) ∧
        ∀ d, out t h d * weight (lse t h) = numerator score value (query t h) width (fun j => keyAt cache (convert t j)) d := by
  obtain ⟨sink, hsink, hoff, hzero⟩ := sink_for_query hsinks hpad r
  -- the arguments the kernel is called with
  obtain ⟨a, ha, hheads, hquery, hcache, hwidth, hindices, hattn⟩ : ∃ a : KernelArgs Q Key,
      (g.atRank r).fp8FlashMlaKernel kernel g.queryHeads query cache width convert = .ok (kernel a) ∧
      g.queryHeads ≤ a.heads ∧ (∀ t, ∀ h < g.queryHeads, a.query t h = query t h) ∧ a.cache = cache ∧ a.width = width ∧
      a.indices = convert ∧ a.attnSink = sink := by
    refine ⟨_, by rw [DcpImpl.fp8FlashMlaKernel, hsink]; rfl, ?_, ?_, rfl, rfl, rfl, rfl⟩
    · simp only
      split
      · exact hpad
      · exact Nat.le_refl _
    · intro t h hh
      simp only
      split
      · exact if_pos hh
      · rfl
  obtain ⟨lse, hadd, hweight⟩ := add_sink hsinks r fun t h =>
    if (List.range width).all fun j => convert t j = -1 then ⊥ else (kernel a).lse h t
  refine ⟨fun t h d => if (List.range width).all fun j => convert t j = -1 then 0 else (kernel a).out t h d, lse, ?_, ?_⟩
  · have hneed : (g.atRank r).needToReturnLseForDecode = true := hlse
    rw [DcpImpl.forwardFp8KvMixedBatch, ha]
    simp only [hneed, Bool.not_true, Bool.false_eq_true, if_false]
    refine bind_eq_ok.mpr ⟨_, rfl, bind_eq_ok.mpr ⟨lse, hadd, rfl⟩⟩
  · intro t h hh
    have hw := hweight t h
    by_cases hempty : (List.range width).all (fun j => decide (convert t j = -1)) = true
    · have hnone : ∀ j < width, keyAt cache (convert t j) = none := by
        intro j hj
        rw [List.all_eq_true] at hempty
        exact (keyAt_eq_none cache _).mpr (by simpa using hempty j (List.mem_range.mpr hj))
      simp only [hempty, if_true] at hw ⊢
      refine ⟨?_, fun d => ?_⟩
      · rw [hw, denominator_empty hnone, weight_bot]
      · rw [zero_mul, numerator_empty hnone]
    · have hexists : ∃ j < width, convert t j ≠ -1 := by
        by_contra hall
        push Not at hall
        exact hempty (List.all_eq_true.mpr fun j hj => by simpa using hall j (List.mem_range.mp hj))
      obtain ⟨j, hj, hne⟩ := hexists
      have hpos : 0 < denominator score (query t h) width fun j => keyAt cache (convert t j) :=
        denominator_pos hj fun he => hne ((keyAt_eq_none cache _).mp he)
      have hrow : ∃ j < a.width, a.indices t j ≠ -1 := ⟨j, by rwa [hwidth], by rwa [hindices]⟩
      have hl := hk.lse a t h (by omega) hrow
      have ho := fun d => hk.out a t h d (by omega) hrow
      rw [hquery t h hh, hwidth, hindices, hcache] at hl
      simp only [hquery t h hh, hwidth, hindices, hcache, hattn, hl, weight_ofWeight hpos.le] at ho
      have hfull := Bool.eq_false_iff.mpr hempty
      simp only [hfull, Bool.false_eq_true, if_false, hl, weight_ofWeight hpos.le] at hw ⊢
      refine ⟨hw, fun d => ?_⟩
      rw [hw, ho d]
      by_cases hr : r = 0
      · obtain ⟨s, hs, hsh⟩ := hzero hr
        have hexp := Real.exp_pos (allGather g.numHeads sinks h)
        rw [hs, Option.elim_some, hsh h hh, weight_coe, if_pos hr]
        field_simp
      · rw [hoff hr, Option.elim_none, if_neg hr, add_zero, mul_one]
        field_simp

theorem dcp_sink_once {width : Nat} {selected : Nat → Nat → Option Key} {owner : Nat → Nat → Nat} {cache : Nat → Nat → Key}
    {convert : Nat → Nat → Nat → Int} (hloc : Localized g.dcpWorldSize width selected owner cache convert)
    (query : Nat → Nat → Q) :
    ∃ (out : Nat → Nat → Nat → Nat → ℝ) (lse : Nat → Nat → Nat → Lse),
      (∀ r < g.dcpWorldSize, (g.atRank r).forwardFp8KvMixedBatch kernel g.queryHeads query (cache r) width (convert r) =
        .ok (out r, some (lse r))) ∧
      ∀ t, ∀ h < g.queryHeads, ∀ d,
        combine g.dcpWorldSize (fun r => out r t h d) (fun r => lse r t h) =
          numerator score value (query t h) width (selected t) d /
            (denominator score (query t h) width (selected t) + Real.exp (sinks (h / g.numHeads) (h % g.numHeads))) ∧
        ((∀ j < width, selected t j = none) → combine g.dcpWorldSize (fun r => out r t h d) (fun r => lse r t h) = 0) := by
  have hres := fun r => rank_result hk hsinks hpad hlse query (cache r) width (convert r) r
  choose out lse hrun hval using hres
  have hcomb : ∀ t, ∀ h < g.queryHeads, ∀ d, combine g.dcpWorldSize (fun r => out r t h d) (fun r => lse r t h) =
      numerator score value (query t h) width (selected t) d /
        (denominator score (query t h) width (selected t) + Real.exp (sinks (h / g.numHeads) (h % g.numHeads))) := by
    intro t h hh d
    rw [combine_eq (fun r _ => (hval r t h hh).2 d) (fun r _ => (hval r t h hh).1)]
    have hkey : ∀ (f : Key → ℝ), ∑ r ∈ Finset.range g.dcpWorldSize, ∑ j ∈ Finset.range width,
        (keyAt (cache r) (convert r t j)).elim 0 f = ∑ j ∈ Finset.range width, (selected t j).elim 0 f := by
      intro f
      rw [← sum_owned (fun j hj => hloc.owner_lt t j hj) (selected t) f]
      refine Finset.sum_congr rfl fun r hr => Finset.sum_congr rfl fun j hj => ?_
      rw [hloc.key r (Finset.mem_range.mp hr) t j (Finset.mem_range.mp hj)]
    have hzero : 0 ∈ Finset.range g.dcpWorldSize := Finset.mem_range.mpr (by have := g.dcp_gt; omega)
    have hsink : ∑ r ∈ Finset.range g.dcpWorldSize, (if r = 0 then Real.exp (allGather g.numHeads sinks h) else 0) =
        Real.exp (sinks (h / g.numHeads) (h % g.numHeads)) := by
      rw [Finset.sum_ite_eq' _ 0, if_pos hzero]
      rfl
    rw [Finset.sum_add_distrib, hsink]
    simp only [numerator, denominator, hkey]
  refine ⟨out, lse, fun r _ => hrun r, fun t h hh d => ⟨hcomb t h hh d, fun hnone => ?_⟩⟩
  rw [hcomb t h hh d, numerator_empty hnone, zero_div]

end

/-- The kernel that computes the specified values. -/
noncomputable def exactKernel {Q Key : Type} (score : Q → Key → ℝ) (value : Key → Nat → ℝ) (a : KernelArgs Q Key) : KernelResult where
  lse := fun h t => ofWeight (denominator score (a.query t h) a.width fun j => keyAt a.cache (a.indices t j))
  out := fun t h d =>
    let lse := ofWeight (denominator score (a.query t h) a.width fun j => keyAt a.cache (a.indices t j))
    numerator score value (a.query t h) a.width (fun j => keyAt a.cache (a.indices t j)) d /
        denominator score (a.query t h) a.width (fun j => keyAt a.cache (a.indices t j)) *
      a.attnSink.elim 1 fun sink => weight lse / (weight lse + weight (sink h))

/-- Two ranks of one head each. -/
def twoRanks : DcpImpl where
  dcpWorldSize := 2
  dcpRank := 0
  numHeads := 1
  sinks := some fun _ _ => 1
  fp8DecodePaddedHeads := 64
  needToReturnLseForDecode := true
  dcp_gt := Nat.one_lt_two

/-- The one selected key is on rank 1; the sink still counts once. -/
theorem dcp_sink_once_two :
    ∃ (out : Nat → Nat → Nat → Nat → ℝ) (lse : Nat → Nat → Nat → Lse),
      combine 2 (fun r => out r 0 1 0) (fun r => lse r 0 1) =
        numerator (fun (q : Nat) (k : Nat) => (q * k : ℝ)) (fun k _ => (k : ℝ)) 3 2 (fun j => if j = 0 then some 5 else none) 0 /
          (denominator (fun (q : Nat) (k : Nat) => (q * k : ℝ)) 3 2 (fun j => if j = 0 then some 5 else none) + Real.exp 1) := by
  have hk : KernelSpec (fun (q : Nat) (k : Nat) => (q * k : ℝ)) (fun k _ => (k : ℝ))
      (exactKernel (fun (q : Nat) (k : Nat) => (q * k : ℝ)) fun k _ => (k : ℝ)) :=
    ⟨fun _ _ _ _ _ => rfl, fun _ _ _ _ _ _ => rfl⟩
  have hloc : Localized twoRanks.dcpWorldSize 2 (fun _ j => if j = 0 then some 5 else none) (fun _ _ => 1) (fun _ _ => 5)
      (fun r _ j => if r = 1 ∧ j = 0 then 0 else -1) := by
    refine ⟨fun _ _ _ => by decide, ?_⟩
    intro r _ _ j _
    by_cases hr : r = 1 <;> by_cases hj : j = 0 <;> simp [keyAt, hr, hj, eq_comm]
  obtain ⟨out, lse, -, hall⟩ := dcp_sink_once hk rfl (by decide) rfl hloc fun _ _ => 3
  exact ⟨out, lse, (hall 0 1 (by decide) 0).1⟩

end VllmHcu.HyV4
