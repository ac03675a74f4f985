import Mathlib.Algebra.Order.BigOperators.Group.List
import Mathlib.Data.Option.Basic
import Mathlib.Tactic.Common
import VllmHcu.Mtp.PrefillTail

/-!
# The tail is enough

A trimmed query has wrong cache entries at its first positions only, and each
step makes the wrong part of the outputs longer by its window less one. What is
behind it is exact, and later queries read no further back.
-/

namespace VllmHcu.Mtp

section
variable {H V Tok : Type}

theorem mem_windowPositions {window p i : Nat} : i ∈ windowPositions window p ↔ i ≤ p ∧ p < i + window := by
  unfold windowPositions
  rw [List.mem_range'_1]
  omega

namespace Drafter
variable (dr : Drafter H V Tok)

/-- By how much the outputs of the first `k` steps are wrong in front. -/
def spread : Nat → Nat
  | 0 => 0
  | k + 1 => spread k + (dr.window (k % dr.count) - 1)

theorem spread_mono {k n : Nat} (h : k ≤ n) : dr.spread k ≤ dr.spread n := by
  induction n, h using Nat.le_induction with
  | base => exact Nat.le_refl _
  | succ n _ ih => exact Nat.le_trans ih (Nat.le_add_right _ _)

/-- The caches agree wherever a query from position `c` on can look. -/
def AgreeFrom (c : Nat) (full trimmed : Nat → Nat → Option V) : Prop :=
  ∀ m i, c < i + dr.window m → full m i = trimmed m i

variable {dr}

theorem AgreeFrom.mono {c c' : Nat} {full trimmed : Nat → Nat → Option V} (h : dr.AgreeFrom c full trimmed) (hc : c ≤ c') :
    dr.AgreeFrom c' full trimmed :=
  fun m i hi => h m i (by omega)

theorem propose_outs (q : Query H Tok) (first : Nat) (cache : Nat → Nat → Option V) (k : Nat) :
    (dr.propose q first cache (k + 1)).outs =
      (dr.propose q first cache k).outs ++ [(dr.propose q first cache (k + 1)).hidden q.last] := rfl

/-! ## Queries that are kept -/

theorem propose_kept {q : Query H Tok} {full trimmed : Nat → Nat → Option V} (h : dr.AgreeFrom q.start full trimmed) (k : Nat) :
    dr.AgreeFrom q.start (dr.propose q q.start full k).cache (dr.propose q q.start trimmed k).cache ∧
      (dr.propose q q.start full k).hidden = (dr.propose q q.start trimmed k).hidden ∧
      (dr.propose q q.start full k).outs = (dr.propose q q.start trimmed k).outs := by
  induction k with
  | zero => exact ⟨h, rfl, rfl⟩
  | succ k ih =>
    obtain ⟨hcache, hhidden, houts⟩ := ih
    have hcache' : dr.AgreeFrom q.start (dr.propose q q.start full (k + 1)).cache
        (dr.propose q q.start trimmed (k + 1)).cache := by
      intro m i hi
      simp only [propose, stepAt]
      by_cases hm : m = k % dr.count
      · subst hm
        rw [Function.update_self, Function.update_self, hhidden, houts, hcache _ i hi]
      · rw [Function.update_of_ne hm, Function.update_of_ne hm]
        exact hcache m i hi
    have hhidden' : (dr.propose q q.start full (k + 1)).hidden = (dr.propose q q.start trimmed (k + 1)).hidden := by
      funext p
      simp only [propose, stepAt]
      split
      · rename_i hp
        rw [hhidden, houts]
        congr 1
        refine List.map_congr_left fun i hi => ?_
        obtain ⟨-, hi⟩ := mem_windowPositions.mp hi
        have := hcache' (k % dr.count) i (by omega)
        simp only [propose, stepAt, hhidden, houts] at this
        exact this
      · rw [hhidden]
    refine ⟨hcache', hhidden', ?_⟩
    rw [propose_outs, propose_outs, houts, hhidden']

/-! ## Queries that are trimmed -/

theorem propose_trimmed {q : Query H Tok} {first : Nat} {full trimmed : Nat → Nat → Option V}
    (h : dr.AgreeFrom q.start full trimmed) (hfirst : q.start ≤ first) (hlen : first + dr.spread dr.steps ≤ q.last)
    (hwindow : ∀ k < dr.steps, 0 < dr.window (k % dr.count)) {k : Nat} (hk : k ≤ dr.steps) :
    dr.AgreeFrom (q.last + 1) (dr.propose q q.start full k).cache (dr.propose q first trimmed k).cache ∧
      (∀ p, first + dr.spread k ≤ p → p ≤ q.last →
        (dr.propose q q.start full k).hidden p = (dr.propose q first trimmed k).hidden p) ∧
      (dr.propose q q.start full k).outs = (dr.propose q first trimmed k).outs := by
  induction k with
  | zero => exact ⟨h.mono (by omega), fun _ _ _ => rfl, rfl⟩
  | succ k ih =>
    obtain ⟨hcache, hhidden, houts⟩ := ih (by omega)
    have hwin := hwindow k hk
    have hspread : dr.spread (k + 1) = dr.spread k + (dr.window (k % dr.count) - 1) := rfl
    have hmono := dr.spread_mono hk
    -- what this step writes where its inputs are exact
    have hentry : ∀ i, first + dr.spread k ≤ i → i ≤ q.last →
        (dr.propose q q.start full (k + 1)).cache (k % dr.count) i =
          (dr.propose q first trimmed (k + 1)).cache (k % dr.count) i := by
      intro i hlo hhi
      simp only [propose, stepAt, Function.update_self]
      rw [if_pos ⟨by omega, hhi⟩, if_pos ⟨by omega, hhi⟩, hhidden i hlo hhi, houts]
    have hhidden' : ∀ p, first + dr.spread (k + 1) ≤ p → p ≤ q.last →
        (dr.propose q q.start full (k + 1)).hidden p = (dr.propose q first trimmed (k + 1)).hidden p := by
      intro p hlo hhi
      have hwindows : (windowPositions (dr.window (k % dr.count)) p).map
            ((dr.propose q q.start full (k + 1)).cache (k % dr.count)) =
          (windowPositions (dr.window (k % dr.count)) p).map
            ((dr.propose q first trimmed (k + 1)).cache (k % dr.count)) := by
        refine List.map_congr_left fun i hi => ?_
        obtain ⟨hip, hpi⟩ := mem_windowPositions.mp hi
        exact hentry i (by omega) (by omega)
      simp only [propose, stepAt] at hwindows ⊢
      rw [if_pos ⟨by omega, hhi⟩, if_pos ⟨by omega, hhi⟩, hwindows, hhidden p (by omega) hhi, houts]
    refine ⟨fun m i hi => ?_, hhidden', ?_⟩
    · by_cases hm : m = k % dr.count
      · subst hm
        by_cases hil : i ≤ q.last
        · exact hentry i (by omega) hil
        · have := hcache (k % dr.count) i hi
          simp only [propose, stepAt, Function.update_self]
          rw [if_neg (by omega), if_neg (by omega), this]
      · simp only [propose, stepAt, Function.update_of_ne hm]
        exact hcache m i hi
    · rw [propose_outs, propose_outs, houts, hhidden' q.last (by omega) (Nat.le_refl _)]

end Drafter

/-! ## Runs -/

/-- A query starts behind the chunks before it, and not before the verification query before it. -/
def Ordered : Nat → List (Query H Tok) → Prop
  | _, [] => True
  | c, q :: qs => c ≤ q.start ∧ 0 < q.len ∧ Ordered (if q.prefilling then q.last + 1 else q.start) qs

theorem firstKept_cases (tail : Nat) {q : Query H Tok} (hlen : 0 < q.len) (htail : 0 < tail) :
    firstKept tail q = q.start ∨
      (q.prefilling = true ∧ q.start ≤ firstKept tail q ∧ firstKept tail q + tail = q.last + 1) := by
  unfold firstKept keptLen Query.last
  by_cases ht : q.trimmed = true
  · rw [if_pos ht]
    by_cases hp : q.prefilling = true
    · rw [if_pos hp]
      by_cases hle : q.len ≤ tail
      · left
        omega
      · right
        exact ⟨hp, by omega, by omega⟩
    · rw [if_neg hp]
      left
      omega
  · rw [if_neg ht]
    exact .inl rfl

variable {dr : Drafter H V Tok}

theorem propose_query {tail : Nat} (htail : dr.spread dr.steps < tail) (hwindow : ∀ k < dr.steps, 0 < dr.window (k % dr.count))
    {q : Query H Tok} (hlen : 0 < q.len) {full trimmed : Nat → Nat → Option V} (h : dr.AgreeFrom q.start full trimmed) :
    dr.AgreeFrom (if q.prefilling then q.last + 1 else q.start) (dr.propose q q.start full dr.steps).cache
        (dr.propose q (firstKept tail q) trimmed dr.steps).cache ∧
      ∀ k < dr.steps,
        (dr.propose q q.start full (k + 1)).hidden q.last =
          (dr.propose q (firstKept tail q) trimmed (k + 1)).hidden q.last ∧
        (q.prefilling = false → ∀ p, (dr.propose q q.start full (k + 1)).hidden p =
          (dr.propose q (firstKept tail q) trimmed (k + 1)).hidden p) := by
  obtain hkept | ⟨hpre, hfirst, hsum⟩ := firstKept_cases tail hlen (by omega : 0 < tail)
  · rw [hkept]
    refine ⟨(Drafter.propose_kept h dr.steps).1.mono ?_, fun k _ => ?_⟩
    · split
      · unfold Query.last
        omega
      · exact Nat.le_refl _
    · have hsame := (Drafter.propose_kept h (k + 1)).2.1
      exact ⟨congrFun hsame _, fun _ p => congrFun hsame p⟩
  · have hroom : firstKept tail q + dr.spread dr.steps ≤ q.last := by omega
    have hexact := fun k hk => Drafter.propose_trimmed h hfirst hroom hwindow (k := k) hk
    rw [if_pos hpre]
    refine ⟨(hexact dr.steps (Nat.le_refl _)).1, fun k hk => ⟨?_, fun hnot => absurd hpre (by rw [hnot]; decide)⟩⟩
    refine (hexact (k + 1) hk).2.1 q.last ?_ (Nat.le_refl _)
    have := dr.spread_mono (show k + 1 ≤ dr.steps from hk)
    omega

theorem run_exact {tail : Nat} (htail : dr.spread dr.steps < tail) (hwindow : ∀ k < dr.steps, 0 < dr.window (k % dr.count)) :
    ∀ {qs : List (Query H Tok)} {c : Nat} {full trimmed : Nat → Nat → Option V}, Ordered c qs → dr.AgreeFrom c full trimmed →
      ∀ {i : Nat} {q : Query H Tok}, qs[i]? = some q →
        ∃ outs outs', (dr.run Query.start full qs)[i]? = some outs ∧ (dr.run (firstKept tail) trimmed qs)[i]? = some outs' ∧
          ∀ k < dr.steps, outs k q.last = outs' k q.last ∧ (q.prefilling = false → ∀ p, outs k p = outs' k p)
  | q :: qs, c, full, trimmed, hord, hagree, i, q', hi => by
    obtain ⟨hc, hlen, hrest⟩ := hord
    obtain ⟨hnext, houts⟩ := propose_query htail hwindow hlen (hagree.mono hc)
    cases i with
    | zero =>
      obtain rfl : q = q' := Option.some.inj hi
      exact ⟨_, _, rfl, rfl, houts⟩
    | succ i => exact run_exact htail hwindow hrest hnext hi

end

/-! ## The configuration -/

/-- The drafter that the configuration describes. -/
def TailConfig.drafter {H V Tok : Type} (c : TailConfig) (modules : Modules H V Tok) : Drafter H V Tok where
  modules
  count := (c.numMtpLayers.getD 0).toNat
  steps := (c.numSpeculativeSteps.getD 0).toNat
  window m := ((c.slidingWindow (toString (c.mtpStartLayerIdx.getD 0 + m))).getD 0).toNat

theorem needStep_spec {layerTypes : List String} {slidingWindow : String → Option Int} {start count need need' : Int} {step : Nat}
    (h : needStep layerTypes slidingWindow start count need step = some need') :
    ∃ window, slidingWindow (toString (start + (step : Int) % count)) = some window ∧ 0 < window ∧
      need' = need + (window - 1) := by
  unfold needStep at h
  simp only [Option.bind_eq_bind, Option.bind_eq_some_iff, Option.guard_eq_some', Option.pure_def, Option.some.injEq] at h
  obtain ⟨-, -, window, hw, -, hpos, rfl⟩ := h
  exact ⟨window, hw, hpos, rfl⟩

theorem needSteps_spec {H V Tok : Type} {dr : Drafter H V Tok} {layerTypes : List String} {slidingWindow : String → Option Int}
    {start count : Int}
    (hdr : ∀ step : Nat, dr.window (step % dr.count) = ((slidingWindow (toString (start + (step : Int) % count))).getD 0).toNat) :
    ∀ {n : Nat} {need : Int}, (List.range n).foldlM (needStep layerTypes slidingWindow start count) 1 = some need →
      need = 1 + dr.spread n ∧ ∀ k < n, 0 < dr.window (k % dr.count)
  | 0, need, h => by
    obtain rfl : 1 = need := Option.some.inj h
    exact ⟨rfl, nofun⟩
  | n + 1, need, h => by
    rw [List.range_succ, List.foldlM_append, Option.bind_eq_bind, Option.bind_eq_some_iff] at h
    obtain ⟨need₀, h₀, h⟩ := h
    obtain ⟨rfl, hpos⟩ := needSteps_spec hdr h₀
    rw [List.foldlM_cons, Option.bind_eq_bind, Option.bind_eq_some_iff] at h
    obtain ⟨need₁, h₁, h⟩ := h
    obtain rfl : need₁ = need := Option.some.inj h
    obtain ⟨window, hw, hwpos, rfl⟩ := needStep_spec h₁
    have hwindow := hdr n
    rw [hw, Option.getD_some] at hwindow
    refine ⟨?_, fun k hk => ?_⟩
    · rw [Drafter.spread, hwindow]
      omega
    · obtain hk | rfl := Nat.lt_succ_iff_lt_or_eq.mp hk
      · exact hpos k hk
      · rw [hwindow]
        omega

theorem tailEnabled_spec {c : TailConfig} (h : tailEnabled c = true) {H V Tok : Type} (modules : Modules H V Tok) :
    (c.drafter modules).spread (c.drafter modules).steps < c.tail.toNat ∧
      ∀ k < (c.drafter modules).steps, 0 < (c.drafter modules).window (k % (c.drafter modules).count) := by
  unfold tailEnabled at h
  simp only [Bool.and_eq_true, Option.any_eq_true, decide_eq_true_eq] at h
  obtain ⟨-, need, hneed, hle⟩ := h
  unfold mtpTailRequiredTokens at hneed
  simp only [Option.bind_eq_bind, Option.bind_eq_some_iff, Option.guard_eq_some'] at hneed
  obtain ⟨start, hstart, count, hcount, steps, hsteps, layerTypes, hlayers, -, ⟨-, hcpos, -⟩, hfold⟩ := hneed
  have hdr : ∀ step : Nat, (c.drafter modules).window (step % (c.drafter modules).count) =
      ((c.slidingWindow (toString (start + (step : Int) % count))).getD 0).toNat := by
    intro step
    have hmod : ((step % count.toNat : Nat) : Int) = (step : Int) % count := by
      rw [Int.natCast_emod, Int.toNat_of_nonneg hcpos.le]
    simp only [TailConfig.drafter, hstart, hcount, Option.getD_some, hmod]
  obtain ⟨rfl, hpos⟩ := needSteps_spec hdr hfold
  have hsteps' : (c.drafter modules).steps = steps.toNat := by simp only [TailConfig.drafter, hsteps, Option.getD_some]
  rw [hsteps']
  exact ⟨by omega, hpos⟩

/-! ## The gather index -/

/-- The last `n` of the tokens that end before `e`. -/
def lastTokens (e n : Int) : List Int := (List.range n.toNat).map fun j : Nat => e - n + (j : Int)

theorem startLocs_ne_nil (start : Int) (n : List Int) : startLocs start n ≠ [] := by
  cases n with
  | nil => exact List.cons_ne_nil _ _
  | cons _ _ => exact List.cons_ne_nil _ _

theorem startLocs_dropLast (start x : Int) (n : List Int) :
    (startLocs start (x :: n)).dropLast = start :: (startLocs (start + x) n).dropLast :=
  List.dropLast_cons_of_ne_nil (startLocs_ne_nil _ _)

theorem repeatEach_cons (v x : Int) (values counts : List Int) :
    repeatEach (v :: values) (x :: counts) = List.replicate x.toNat v ++ repeatEach values counts := rfl

theorem gatherIndex_aux : ∀ (n ends : List Int) (start : Int), ends.length = n.length → (∀ x ∈ n, 0 ≤ x) →
    List.zipWith (· + ·)
      (List.zipWith (· - ·) ((List.range n.sum.toNat).map fun j => start + Int.ofNat j) (repeatEach (startLocs start n).dropLast n))
      (repeatEach (List.zipWith (· - ·) ends n) n) = (ends.zip n).flatMap fun p => lastTokens p.1 p.2
  | [], ends, start, hlen, _ => by simp
  | x :: n, [], start, hlen, _ => by simp at hlen
  | x :: n, e :: ends, start, hlen, hn => by
    have hx := hn x List.mem_cons_self
    have hrest : 0 ≤ n.sum := List.sum_nonneg fun y hy => hn y (List.mem_cons_of_mem x hy)
    have hsum : (x :: n).sum.toNat = x.toNat + n.sum.toNat := by
      rw [List.sum_cons]
      omega
    have ih := gatherIndex_aux n ends (start + x) (by simpa using hlen) fun y hy => hn y (List.mem_cons_of_mem x hy)
    have hshift : (List.range n.sum.toNat).map (fun j => start + Int.ofNat (x.toNat + j)) =
        (List.range n.sum.toNat).map fun j => start + x + Int.ofNat j := by
      refine List.map_congr_left fun j _ => ?_
      simp only [Int.ofNat_eq_natCast]
      omega
    rw [hsum, List.range_add, List.map_append, List.map_map, startLocs_dropLast, repeatEach_cons, List.zipWith_cons_cons,
      repeatEach_cons, List.zipWith_append (by simp), List.zipWith_append (by simp), List.zip_cons_cons, List.flatMap_cons]
    simp only [Function.comp_def]
    rw [hshift, ih]
    congr 1
    apply List.ext_getElem
    · simp [lastTokens]
    · intro j h₁ h₂
      simp only [lastTokens, List.getElem_zipWith, List.getElem_map, List.getElem_range, List.getElem_replicate,
        Int.ofNat_eq_natCast]
      omega

theorem gatherIndex_eq {qsl n : List Int} (hlen : qsl.tail.length = n.length) (hn : ∀ x ∈ n, 0 ≤ x) :
    gatherIndex qsl n = (qsl.tail.zip n).flatMap fun p => lastTokens p.1 p.2 := by
  rw [← gatherIndex_aux n qsl.tail 0 hlen hn]
  unfold gatherIndex
  simp only [Int.zero_add]

theorem diff_length (l : List Int) : (diff l).length = l.tail.length := by
  unfold diff
  rw [List.length_zipWith, List.length_tail]
  omega

theorem trim_spec {tail : Int} (htail : 0 < tail) {dpSize dpRank : Nat} {batch : InputBatch} {dpSync : Option DpSync}
    {out : Trimmed} (hq : ∀ x ∈ diff batch.queryStartLocNp, 0 ≤ x) (h : trim tail dpSize dpRank batch dpSync = some out) :
    (∃ prefilling, batch.isPrefillingNp = some prefilling ∧
      out.numScheduledTokens = List.zipWith (keptLen tail) prefilling (diff batch.queryStartLocNp)) ∧
      out.numScheduledTokens.length = batch.queryStartLocNp.tail.length ∧
      out.index = (batch.queryStartLocNp.tail.zip out.numScheduledTokens).flatMap (fun p => lastTokens p.1 p.2) ∧
      out.numComputedTokensCpu = batch.seqLensCpu.map fun seqLens => List.zipWith (· - ·) seqLens out.numScheduledTokens := by
  unfold trim at h
  split at h
  · cases h
  · rename_i prefilling hpre
    dsimp only at h
    split at h
    · cases h
    · rename_i hlen
      split at h
      · cases h
      · split at h
        · cases h
        · cases h
          rw [not_not] at hlen
          have hn : (List.zipWith (keptLen tail) prefilling (diff batch.queryStartLocNp)).length =
              batch.queryStartLocNp.tail.length := by
            rw [List.length_zipWith, hlen, Nat.min_self, diff_length]
          refine ⟨⟨prefilling, hpre, rfl⟩, hn, gatherIndex_eq hn.symm fun x hx => ?_, rfl⟩
          obtain ⟨j, hj, rfl⟩ := List.getElem_of_mem hx
          rw [List.getElem_zipWith]
          have := hq _ (List.getElem_mem (by simp at hj; omega : j < (diff batch.queryStartLocNp).length))
          unfold keptLen
          split
          · omega
          · exact this

/-- With a tail that is accepted, the modules put out the same on the kept tokens as on all: at the last token of every
query, and everywhere in a decode or verification query; and a trimmed batch gathers the last tokens of each request. -/
theorem tail_exact {H V Tok : Type} (c : TailConfig) (h : tailEnabled c = true) (modules : Modules H V Tok)
    (cache : Nat → Nat → Option V) (qs : List (Query H Tok)) (hord : Ordered 0 qs) :
    (∀ (i : Nat) (q : Query H Tok), qs[i]? = some q → ∃ outs outs' : Nat → Nat → H,
      ((c.drafter modules).run Query.start cache qs)[i]? = some outs ∧
      ((c.drafter modules).run (firstKept c.tail.toNat) cache qs)[i]? = some outs' ∧
      ∀ k < (c.drafter modules).steps, outs k q.last = outs' k q.last ∧
        (q.prefilling = false → ∀ p, outs k p = outs' k p)) ∧
    ∀ dpSize dpRank batch dpSync out, (∀ x ∈ diff batch.queryStartLocNp, 0 ≤ x) →
      trim c.tail dpSize dpRank batch dpSync = some out →
      (∃ prefilling, batch.isPrefillingNp = some prefilling ∧
        out.numScheduledTokens = List.zipWith (keptLen c.tail) prefilling (diff batch.queryStartLocNp)) ∧
      out.index = (batch.queryStartLocNp.tail.zip out.numScheduledTokens).flatMap (fun p => lastTokens p.1 p.2) ∧
      ∀ seqLens, batch.seqLensCpu = some seqLens → seqLens.length = out.numScheduledTokens.length →
        ∃ numComputed, out.numComputedTokensCpu = some numComputed ∧
          List.zipWith (· + ·) numComputed out.numScheduledTokens = seqLens := by
  obtain ⟨hspread, hwindow⟩ := tailEnabled_spec h modules
  refine ⟨fun i q hi => run_exact hspread hwindow hord (fun _ _ _ => rfl) hi, fun dpSize dpRank batch dpSync out hq hout => ?_⟩
  obtain ⟨hlens, -, hindex, hcomputed⟩ := trim_spec (by omega) hq hout
  refine ⟨hlens, hindex, fun seqLens hseq hlen => ⟨_, by rw [hcomputed, hseq, Option.map_some], ?_⟩⟩
  apply List.ext_getElem
  · simp [hlen]
  · intro j h₁ h₂
    simp only [List.getElem_zipWith]
    omega

/-- Two modules with a window of two, three tokens kept. -/
def pairConfig : TailConfig where
  customOpsEnabled := true
  isStep5 := true
  enablePrefixCaching := false
  tail := 3
  numSpeculativeSteps := some 2
  mtpStartLayerIdx := some 1
  numMtpLayers := some 2
  numHiddenLayers := some 1
  numNextnPredictLayers := some 2
  layerTypesWithMtp := some ["full_attention", "sliding_attention", "sliding_attention"]
  slidingWindow name := if name = "1" ∨ name = "2" then some 2 else none

/-- Modules that add up what they read. -/
def sumModules : Modules Nat Nat Nat where
  entry _ p h t := p + h + t
  output _ _ h t entries := h + t + (entries.map (·.getD 0)).sum

/-- A prompt in two chunks of five and four tokens, of which three are kept, and a query that verifies two drafts. -/
def chunkedPrompt : List (Query Nat Nat) :=
  [(0, 5, true), (5, 4, true), (9, 3, false)].map fun (start, len, prefilling) =>
    ⟨start, len, prefilling, true, id, fun k p outs => k + p + outs.sum⟩

theorem tail_exact_chunkedPrompt : chunkedPrompt.map (firstKept 3) = [2, 6, 9] ∧ ∃ outs outs',
    ((pairConfig.drafter sumModules).run Query.start (fun _ _ => none) chunkedPrompt)[1]? = some outs ∧
    ((pairConfig.drafter sumModules).run (firstKept 3) (fun _ _ => none) chunkedPrompt)[1]? = some outs' ∧
    outs 1 8 = outs' 1 8 ∧ ∃ drafts drafts',
    ((pairConfig.drafter sumModules).run Query.start (fun _ _ => none) chunkedPrompt)[2]? = some drafts ∧
    ((pairConfig.drafter sumModules).run (firstKept 3) (fun _ _ => none) chunkedPrompt)[2]? = some drafts' ∧
    drafts 1 = drafts' 1 := by
  obtain ⟨hrun, -⟩ := tail_exact pairConfig (by decide +kernel) sumModules (fun _ _ => none) chunkedPrompt
    ⟨Nat.le_refl _, by decide, by decide, by decide, by decide, by decide, trivial⟩
  obtain ⟨outs, outs', h₁, h₂, hsame⟩ := hrun 1 _ rfl
  obtain ⟨drafts, drafts', h₃, h₄, hdrafts⟩ := hrun 2 _ rfl
  exact ⟨by decide, outs, outs', h₁, h₂, (hsame 1 (by decide)).1, drafts, drafts', h₃, h₄,
    funext ((hdrafts 1 (by decide)).2 rfl)⟩

end VllmHcu.Mtp
