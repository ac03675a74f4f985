import Mathlib.Algebra.BigOperators.Ring.List
import Mathlib.Algebra.Order.BigOperators.Group.List
import Mathlib.Algebra.Module.NatInt
import VllmHcu.Lib.Loops
import VllmHcu.Lib.RowMajor
import VllmHcu.Moe.Permute

/-!
# Permute and unpermute address the same rows

A slice starts at the sum of the rounded counts before it, and the rows that its
counter hands out end within the count. The capacities bound the sum of all
rounded counts. The gather multiplies the row by the stride in 32 bits:
`permute_unpermute_iff` says when it loads the rows that the scatter named.
-/

namespace VllmHcu.Moe

/-! ## Slices -/

section
variable (counts : Nat → Nat) (a : Nat)

/-- Where the slice of an expert starts: the rounded counts of the experts before it. -/
def sliceStart (expert : Nat) : Nat := ((List.range expert).map fun e => roundUp (counts e) a).sum

theorem sliceStart_succ (e : Nat) : sliceStart counts a (e + 1) = sliceStart counts a e + roundUp (counts e) a := by
  unfold sliceStart
  rw [List.range_succ, List.map_append, List.sum_append, List.map_singleton, List.sum_singleton]

theorem slice_end_le {e n : Nat} (h : e < n) : sliceStart counts a e + roundUp (counts e) a ≤ sliceStart counts a n := by
  induction n, h using Nat.le_induction with
  | base => exact (sliceStart_succ counts a e).ge
  | succ n _ ih =>
    rw [sliceStart_succ]
    omega

theorem dvd_sliceStart (e : Nat) : a ∣ sliceStart counts a e := by
  apply List.dvd_sum
  intro x hx
  obtain ⟨_, _, rfl⟩ := List.mem_map.mp hx
  exact dvd_roundUp _ _

variable {counts} in
theorem sliceStart_congr {counts' : Nat → Nat} {n : Nat} (h : ∀ e < n, counts e = counts' e) {e : Nat} (he : e ≤ n) :
    sliceStart counts a e = sliceStart counts' a e := by
  unfold sliceStart
  congr 1
  apply List.map_congr_left
  intro i hi
  rw [h i (Nat.lt_of_lt_of_le (List.mem_range.mp hi) he)]

/-- Each expert that has tokens costs less than one more alignment. -/
theorem sliceStart_le {a : Nat} (ha : 0 < a) (n : Nat) : sliceStart counts a n ≤
    ((List.range n).map counts).sum + (List.range n).countP (fun e => 0 < counts e) * (a - 1) := by
  induction n with
  | zero => exact Nat.zero_le _
  | succ n ih =>
    rw [sliceStart_succ, List.range_succ, List.map_append, List.sum_append, List.countP_append, List.countP_singleton,
      List.map_singleton, List.sum_singleton, Nat.add_mul]
    have hle := roundUp_le (counts n) ha
    by_cases hn : 0 < counts n
    · rw [if_pos (decide_eq_true hn), Nat.one_mul]
      omega
    · have hzero : counts n = 0 := Nat.eq_zero_of_not_pos hn
      rw [hzero, roundUp_zero ha]
      omega

theorem countP_active_le (n : Nat) : (List.range n).countP (fun e => 0 < counts e) ≤ ((List.range n).map counts).sum := by
  induction n with
  | zero => exact Nat.zero_le _
  | succ n ih =>
    rw [List.range_succ, List.map_append, List.sum_append, List.countP_append, List.countP_singleton,
      List.map_singleton, List.sum_singleton]
    split
    · rename_i h
      have := of_decide_eq_true h
      omega
    · omega

end

theorem sum_pick (f : Nat → Nat) (e n : Nat) :
    ((List.range n).map fun lane => if lane = e then f lane else 0).sum = if e < n then f e else 0 := by
  induction n with
  | zero => rfl
  | succ n ih =>
    rw [List.range_succ, List.map_append, List.sum_append, ih, List.map_singleton, List.sum_singleton]
    by_cases hn : n = e
    · subst hn
      rw [if_neg (Nat.lt_irrefl n), if_pos rfl, if_pos (Nat.lt_succ_self n), Nat.zero_add]
    · rw [if_neg hn, Nat.add_zero]
      exact if_congr (by omega) rfl rfl

theorem laneCumsum_eq {numExperts a : Nat} {counts : Nat → Nat} {e : Nat} (he : e < numExperts) :
    laneCumsum numExperts a counts e = sliceStart counts a e := by
  unfold laneCumsum sliceStart
  rw [List.range_succ, List.map_append, List.sum_append, List.map_singleton, List.sum_singleton, Nat.add_sub_cancel]
  congr 1
  apply List.map_congr_left
  intro i hi
  unfold roundedCount
  rw [if_pos (Nat.lt_trans (List.mem_range.mp hi) he)]

theorem startLoc_eq {r : Routing} {a : Nat} {counts : Nat → Nat} {e : Nat} (he : e < r.localNumExperts) :
    startLoc r a counts e = sliceStart counts a e := by
  have hblock : e < nextPowerOf2 r.localNumExperts :=
    Nat.lt_of_lt_of_le he (Nat.le_pow_clog Nat.one_lt_two _)
  unfold startLoc expertStart
  rw [sum_pick, if_pos hblock, laneCumsum_eq he]

/-! ## Choices -/

/-- All valid choices, token by token. -/
def allPairs (r : Routing) : List (Nat × Nat) :=
  (List.range r.numTokens).flatMap fun token => (r.validTopk token).map (token, ·)

/-- How many choices a local expert takes. -/
def trueCount (r : Routing) (e : Nat) : Nat := (allPairs r).countP fun p => r.expertOf p = e

theorem mem_allPairs {r : Routing} {p : Nat × Nat} : p ∈ allPairs r ↔ p.1 < r.numTokens ∧ p.2 ∈ r.validTopk p.1 := by
  unfold allPairs
  constructor
  · intro h
    obtain ⟨t, ht, h⟩ := List.mem_flatMap.mp h
    obtain ⟨k, hk, rfl⟩ := List.mem_map.mp h
    exact ⟨List.mem_range.mp ht, hk⟩
  · intro ⟨ht, hk⟩
    exact List.mem_flatMap.mpr ⟨p.1, List.mem_range.mpr ht, List.mem_map.mpr ⟨p.2, hk, rfl⟩⟩

theorem allPairs_nodup (r : Routing) : (allPairs r).Nodup := by
  apply List.nodup_flatMap.mpr
  constructor
  · intro t _
    exact (List.nodup_range.filter _).map fun _ _ h => (Prod.mk.inj h).2
  · refine List.nodup_range.imp fun hne => ?_
    intro p hp hq
    obtain ⟨_, _, rfl⟩ := List.mem_map.mp hp
    obtain ⟨_, _, he⟩ := List.mem_map.mp hq
    exact hne (Prod.mk.inj he).1.symm

theorem scatterPairs_perm (r : Routing) : (scatterPairs r).Perm (allPairs r) := by
  have hprograms : ((List.range (min r.numTokens 8192)).flatMap fun p => strided p r.numTokens (min r.numTokens 8192)).Perm
      (List.range r.numTokens) := by
    refine (List.Perm.flatMap_left _ fun p hp => strided_perm_filter _ (List.mem_range.mp hp)).trans ?_
    refine (flatMap_classes_perm (· % min r.numTokens 8192) (List.range r.numTokens) _).trans ?_
    rw [List.filter_eq_self.mpr]
    intro t ht
    have := List.mem_range.mp ht
    exact decide_eq_true (Nat.mod_lt _ (by omega))
  unfold scatterPairs allPairs programPairs
  rw [← List.flatMap_assoc]
  exact hprograms.flatMap_right _

theorem allPairs_length_le (r : Routing) : (allPairs r).length ≤ r.numTokens * r.numTopk := by
  unfold allPairs
  rw [List.length_flatMap]
  refine (List.sum_le_card_nsmul _ r.numTopk fun n hn => ?_).trans ?_
  · obtain ⟨t, _, rfl⟩ := List.mem_map.mp hn
    rw [List.length_map]
    exact (List.length_filter_le _ _).trans (List.length_range).le
  · rw [List.length_map, List.length_range, smul_eq_mul]

/-- Every choice that is not `-1` after the map is a local expert. -/
def WellRouted (r : Routing) : Prop :=
  ∀ token < r.numTokens, ∀ k < r.numTopk, r.expertId token k < r.localNumExperts

theorem expertOf_lt {r : Routing} (hr : WellRouted r) {p : Nat × Nat} (hp : p ∈ allPairs r) :
    r.expertOf p < r.localNumExperts := by
  obtain ⟨ht, hk⟩ := mem_allPairs.mp hp
  obtain ⟨hk, h0⟩ := List.mem_filter.mp hk
  have := hr p.1 ht p.2 (List.mem_range.mp hk)
  have := of_decide_eq_true h0
  unfold Routing.expertOf
  omega

theorem trueCount_sum {r : Routing} (hr : WellRouted r) :
    ((List.range r.localNumExperts).map (trueCount r)).sum = (allPairs r).length := by
  have hperm := flatMap_classes_perm r.expertOf (allPairs r) r.localNumExperts
  rw [List.filter_eq_self.mpr fun p hp => decide_eq_true (expertOf_lt hr hp)] at hperm
  rw [← hperm.length_eq, List.length_flatMap]
  congr 1
  apply List.map_congr_left
  intro e _
  exact List.countP_eq_length_filter

/-! ## Capacity -/

theorem capacity_all {r : Routing} (hr : WellRouted r) {a : Nat} (ha : 0 < a) :
    sliceStart (trueCount r) a r.localNumExperts ≤
      r.numTokens * r.numTopk + r.localNumExperts * (a - 1) := by
  have h := sliceStart_le (trueCount r) ha r.localNumExperts
  have hlen := allPairs_length_le r
  rw [trueCount_sum hr] at h
  have hactive : (List.range r.localNumExperts).countP (fun e => 0 < trueCount r e) ≤ r.localNumExperts :=
    List.countP_le_length.trans List.length_range.le
  have := Nat.mul_le_mul_right (a - 1) hactive
  omega

theorem capacity_active {r : Routing} (hr : WellRouted r) {a : Nat} (ha : 0 < a) :
    sliceStart (trueCount r) a r.localNumExperts ≤
      r.numTokens * r.numTopk + min (r.numTokens * r.numTopk) r.localNumExperts * (a - 1) := by
  have h := sliceStart_le (trueCount r) ha r.localNumExperts
  have hlen := allPairs_length_le r
  have hsum := countP_active_le (trueCount r) r.localNumExperts
  rw [trueCount_sum hr] at h hsum
  have hactive : (List.range r.localNumExperts).countP (fun e => 0 < trueCount r e) ≤ r.localNumExperts :=
    List.countP_le_length.trans List.length_range.le
  have := Nat.mul_le_mul_right (a - 1) (Nat.le_min.mpr ⟨hsum.trans hlen, hactive⟩)
  omega

theorem roundUpAndSum_counts (counts : Nat → Nat) {a : Nat} (ha : 0 < a) (n : Nat) :
    roundUpAndSum ((List.range n).map fun e => (counts e : Int)) a = sliceStart counts a n := by
  unfold roundUpAndSum sliceStart
  rw [List.map_map]
  induction n with
  | zero => rfl
  | succ n ih =>
    rw [List.range_succ, List.map_append, List.map_append, List.sum_append, List.sum_append, ih, Nat.cast_add]
    congr 1
    have hnum : (counts n : Int) + ((a : Int) - 1) = ((counts n + a - 1 : Nat) : Int) := by omega
    change ((counts n : Int) + ((a : Int) - 1)) / a * a + 0 = ((roundUp (counts n) a + 0 : Nat) : Int)
    rw [hnum, add_zero, Nat.add_zero]
    unfold roundUp cdiv
    rw [Nat.cast_mul, Int.natCast_ediv]

theorem dvd_roundUpAndSum (counts : List Int) (a : Nat) : (a : Int) ∣ roundUpAndSum counts a := by
  apply List.dvd_sum
  intro x hx
  obtain ⟨_, _, rfl⟩ := List.mem_map.mp hx
  exact Int.dvd_mul_left _ _

/-- The counts that the call relies on are those of the routing: what `count_expert_num_tokens` finds, the attached
counts where they size or fill the slices, and the rows of a tagged layout. -/
structure CountsHold (dev : Device) (r : Routing) (md : Option ExpertTokensMeta) (counted : Nat → Nat) : Prop where
  counted : dev.isRocm = true ∨ md = none → ∀ e < r.localNumExperts, counted e = trueCount r e
  device : ∀ m, dev.isRocm = false → md = some m → ∀ e < r.localNumExperts, m.expertNumTokens e = trueCount r e
  cpu : ∀ m counts, md = some m → m.expertNumTokensCpu = some counts →
    dev.isRocm = false ∨ m.step5CompactRows = true →
      counts = (List.range r.localNumExperts).map fun e => (trueCount r e : Int)
  layout : ∀ m rows, md = some m → m.deepepHtLayout = some (r.numTokens, r.numTopk, r.localNumExperts, rows) →
    rows = sliceStart (trueCount r) hcuTokenAlignment r.localNumExperts

/-- The workspace holds all slices. -/
structure Holds (r : Routing) (size : Int) (align : Nat) : Prop where
  pos : 0 < align
  fits : (sliceStart (trueCount r) align r.localNumExperts : Int) ≤ size
  dvd : (align : Int) ∣ size

section
variable {dev : Device} {r : Routing} {md : Option ExpertTokensMeta} {counted : Nat → Nat}

theorem exactLayout_some {alignment rows : Nat}
    (h : exactLayout dev r.numTokens r.numTopk r.localNumExperts alignment md = some rows) :
    alignment = hcuTokenAlignment ∧ ∃ m, md = some m ∧
      m.deepepHtLayout = some (r.numTokens, r.numTopk, r.localNumExperts, rows) := by
  unfold exactLayout at h
  cases md with
  | none => cases h
  | some m =>
    cases hl : m.deepepHtLayout with
    | none => simp [hl] at h
    | some layout =>
      obtain ⟨m', k', e', rows'⟩ := layout
      simp only [Option.bind_some, hl] at h
      by_cases hc : dev.exactLayoutEnabled = true ∧ alignment = hcuTokenAlignment ∧ m' = r.numTokens ∧
          k' = r.numTopk ∧ e' = r.localNumExperts
      · rw [if_pos hc] at h
        obtain ⟨_, ha, rfl, rfl, rfl⟩ := hc
        cases h
        exact ⟨ha, m, rfl, hl⟩
      · rw [if_neg hc] at h
        cases h

theorem rocmAlignedM_holds (hr : WellRouted r) (hm : CountsHold dev r md counted) {a : Nat} (ha : 0 < a) :
    ∃ size, rocmAlignedM r.numTokens r.numTopk r.localNumExperts a md = .ok size ∧ Holds r size a := by
  have hupper : Holds r (roundUp (r.numTokens * r.numTopk + r.localNumExperts * (a - 1)) a : Nat) a :=
    ⟨ha, Int.ofNat_le.mpr ((capacity_all hr ha).trans (le_roundUp _ ha)), Int.natCast_dvd_natCast.mpr (dvd_roundUp _ _)⟩
  unfold rocmAlignedM
  cases md with
  | none => exact ⟨_, rfl, hupper⟩
  | some m =>
    cases hcpu : m.expertNumTokensCpu with
    | none =>
      simp only [hcpu]
      exact ⟨_, rfl, hupper⟩
    | some counts =>
      simp only [hcpu]
      by_cases hcompact : m.step5CompactRows = true
      · -- the attached counts are the routing's own
        have hcounts := hm.cpu m counts rfl hcpu (.inr hcompact)
        have hsum : roundUpAndSum counts a = sliceStart (trueCount r) a r.localNumExperts := by
          rw [hcounts, roundUpAndSum_counts _ ha]
        rw [if_pos hcompact]
        refine ⟨max (a : Int) (roundUpAndSum counts a), bind_eq_ok.mpr ⟨(), ensure_eq_ok.mpr ⟨?_, fun c hc => ?_⟩, rfl⟩,
          ha, ?_, ?_⟩
        · rw [hcounts, List.length_map, List.length_range]
        · rw [hcounts] at hc
          obtain ⟨e, _, rfl⟩ := List.mem_map.mp hc
          exact Int.natCast_nonneg _
        · rw [hsum]
          exact Int.le_max_right _ _
        · obtain h | h := max_choice (a : Int) (roundUpAndSum counts a)
          · rw [h]
          · rw [h]
            exact dvd_roundUpAndSum _ _
      · rw [if_neg hcompact]
        refine ⟨_, rfl, ha, hupper.fits.trans (Int.le_max_left _ _), ?_⟩
        obtain h | h := max_choice ((roundUp (r.numTokens * r.numTopk + r.localNumExperts * (a - 1)) a : Nat) : Int)
          (roundUpAndSum counts a)
        · rw [h]
          exact hupper.dvd
        · rw [h]
          exact dvd_roundUpAndSum _ _

theorem computeAlignedM_holds (hr : WellRouted r) (hm : CountsHold dev r md counted) {blockM : Nat} (hb : 0 < blockM) :
    ∃ size align, computeAlignedM dev r.numTokens r.numTopk r.localNumExperts blockM md = .ok (size, align) ∧
      Holds r size align := by
  unfold computeAlignedM
  by_cases hrocm : dev.isRocm = true
  · rw [if_pos hrocm]
    simp only
    have ha : 0 < max blockM hcuTokenAlignment := by omega
    cases hl : exactLayout dev r.numTokens r.numTopk r.localNumExperts (max blockM hcuTokenAlignment) md with
    | some rows =>
      obtain ⟨halign, m, rfl, hlayout⟩ := exactLayout_some hl
      have hrows := hm.layout m rows rfl hlayout
      refine ⟨rows, _, rfl, ha, ?_, ?_⟩
      · rw [halign, hrows]
      · rw [halign, hrows]
        exact Int.natCast_dvd_natCast.mpr (dvd_sliceStart _ _ _)
    | none =>
      obtain ⟨size, hok, hh⟩ := rocmAlignedM_holds hr hm ha
      exact ⟨size, _, map_eq_ok.mpr ⟨size, hok, rfl⟩, hh⟩
  · rw [if_neg hrocm]
    cases hcpu : md.bind (·.expertNumTokensCpu) with
    | some counts =>
      obtain ⟨m, rfl, hcpu⟩ := Option.bind_eq_some_iff.mp hcpu
      have hcounts := hm.cpu m counts rfl hcpu (.inl (Bool.not_eq_true _ ▸ hrocm))
      refine ⟨_, _, rfl, hb, ?_, dvd_roundUpAndSum _ _⟩
      rw [hcounts, roundUpAndSum_counts _ hb]
    | none =>
      have hfit : ∀ a, 0 < a → Holds r (roundUp (r.numTokens * r.numTopk +
          min (r.numTokens * r.numTopk) r.localNumExperts * (a - 1)) a : Nat) a := fun a ha =>
        ⟨ha, Int.ofNat_le.mpr ((capacity_active hr ha).trans (le_roundUp _ ha)),
          Int.natCast_dvd_natCast.mpr (dvd_roundUp _ _)⟩
      refine ⟨_, _, rfl, hfit _ ?_⟩
      split
      · split
        · rename_i hle
          exact hle.1
        · exact hb
      · exact hb

theorem scatterCounts_eq (hm : CountsHold dev r md counted) {e : Nat} (he : e < r.localNumExperts) :
    scatterCounts dev md counted e = trueCount r e := by
  unfold scatterCounts
  by_cases hrocm : dev.isRocm = true
  · rw [if_pos hrocm]
    exact hm.counted (.inl hrocm) e he
  · rw [if_neg hrocm]
    cases md with
    | none => exact hm.counted (.inr rfl) e he
    | some m => exact hm.device m (Bool.not_eq_true _ ▸ hrocm) rfl e he

end

/-! ## Rows -/

/-- Each valid choice has a row of its own in the slice of its expert, which the
expert ids name. The scatter stores the row's elements and its number, and the gather loads the elements of that row. -/
structure RowsAgree {α : Type} (r : Routing) (size : Int) (align : Nat) (aq aqOut a : MatrixRows) (recvX : Int → α)
    (out : Scattered α) (dest : Nat × Nat → Nat) : Prop where
  distinct : ∀ p ∈ allPairs r, ∀ q ∈ allPairs r, p ≠ q → dest p ≠ dest q
  slice : ∀ p ∈ allPairs r, sliceStart (trueCount r) align (r.expertOf p) ≤ dest p ∧
    dest p < sliceStart (trueCount r) align (r.expertOf p) + roundUp (trueCount r (r.expertOf p)) align
  below : ∀ p ∈ allPairs r, (dest p : Int) < size
  ids : ∀ p ∈ allPairs r, out.mIndices (dest p) = r.expertOf p
  idSlice : ∀ row, out.mIndices row = -1 ∨ ∃ e < r.localNumExperts, out.mIndices row = (e : Int) ∧
    sliceStart (trueCount r) align e ≤ row ∧ row < sliceStart (trueCount r) align e + roundUp (trueCount r e) align
  written : ∀ p ∈ allPairs r, ∀ col < aq.cols, out.output (aqOut.at (dest p) col) = recvX (kernelMul p.1 aq.stride0 + col)
  index : ∀ p ∈ allPairs r, out.outputIndex p = dest p
  gathered : ∃ loads, epGather r a out.outputIndex = .ok loads ∧ ∀ token < r.numTokens, loads token =
    (r.validTopk token).map fun k => (k, (List.range a.cols).map fun col => (a.at (dest (token, k)) col : Int))

/-- The last row in use of each slice starts below `2 ^ 31`, unless the stride is a 64-bit integer. -/
def RowsFit (r : Routing) (align stride0 : Nat) : Prop :=
  stride0 < 2 ^ 31 → ∀ e < r.localNumExperts, 0 < trueCount r e →
    (sliceStart (trueCount r) align e + trueCount r e - 1) * stride0 < 2 ^ 31

theorem kernelMul_eq_iff {i s : Nat} : kernelMul i s = (i * s : Nat) ↔ (s < 2 ^ 31 → i * s < 2 ^ 31) := by
  unfold kernelMul
  split
  · rename_i hs
    rw [← Nat.cast_mul]
    constructor
    · intro h _
      have := Int.bmod_lt (x := ((i * s : Nat) : Int)) (m := 2 ^ 32) (by decide)
      rw [h] at this
      omega
    · intro h
      have hlt := h hs
      exact Int.bmod_eq_of_le (by omega) (by omega)
  · rename_i hs
    exact iff_of_true (Nat.cast_mul i s).symm fun h => absurd h hs

theorem gatherLoads_eq {a : MatrixRows} (hcols : 0 < a.cols) (hblock : a.cols % blockD a.cols = 0) (i : Int) :
    gatherLoads a i = (List.range a.cols).map fun col : Nat => kernelMul i a.stride0 + (col : Int) := by
  have hpos : 0 < blockD a.cols := by
    unfold blockD
    omega
  have hall : cdiv a.cols (blockD a.cols) * blockD a.cols = a.cols := by
    obtain ⟨n, hn⟩ := Nat.dvd_of_mod_eq_zero hblock
    generalize blockD a.cols = b at hpos hn
    have hdiv : cdiv a.cols b = n := by
      unfold cdiv
      rw [hn, Nat.add_sub_assoc hpos, Nat.mul_add_div hpos, Nat.div_eq_of_lt (by omega), Nat.add_zero]
    rw [hdiv, Nat.mul_comm, ← hn]
  have hflat := flatMap_range' 0 (blockD a.cols) (cdiv a.cols (blockD a.cols))
  rw [hall, ← List.range_eq_range'] at hflat
  unfold gatherLoads
  rw [← hflat, List.map_flatMap]
  apply List.flatMap_congr
  intro i _
  rw [Nat.zero_add, List.range'_eq_map_range, List.map_map]
  rfl

section
variable {α : Type} {r : Routing} {align : Nat} {counts : Nat → Nat} {order experts : List (Nat × Nat)}

theorem mem_filledRows {e : Nat} (he : e < r.localNumExperts) {w : Nat × Int} :
    w ∈ filledRows r.localNumExperts align counts blockE (nextPowerOf2 r.localNumExperts) e ↔
      w.2 = (e : Int) ∧ sliceStart counts align e ≤ w.1 ∧ w.1 < sliceStart counts align e + counts e := by
  have hstart : expertStart r.localNumExperts align counts (nextPowerOf2 r.localNumExperts) e =
      sliceStart counts align e := startLoc_eq he
  have hcover : counts e ≤ cdiv (counts e) blockE * blockE := le_cdiv_mul _ (by decide)
  unfold filledRows
  rw [hstart, ← List.filter_flatMap, flatMap_strided, List.mem_map]
  constructor
  · intro ⟨off, hoff, hw⟩
    have := of_decide_eq_true (List.mem_filter.mp hoff).2
    subst hw
    exact ⟨rfl, Nat.le_add_right _ _, Nat.add_lt_add_left this _⟩
  · intro ⟨h2, hlo, hhi⟩
    refine ⟨w.1 - sliceStart counts align e, List.mem_filter.mpr ⟨List.mem_range'_1.mpr ⟨Nat.zero_le _, ?_⟩,
      decide_eq_true (by omega)⟩, Prod.ext (Nat.add_sub_cancel' hlo) h2.symm⟩
    rw [Nat.zero_add, Nat.sub_zero]
    omega

/-- The row of a choice. -/
def destOf (r : Routing) (align : Nat) (counts : Nat → Nat) (order : List (Nat × Nat)) : Nat × Nat → Nat :=
  scatter (fun _ => 0) (reserved r align counts order)

theorem reserved_nodup (horder : order.Perm (allPairs r)) :
    ((reserved r align counts order).map Prod.fst).Nodup := by
  unfold reserved
  rw [handOut_fst]
  exact horder.nodup_iff.mpr (allPairs_nodup r)

theorem destOf_mem (horder : order.Perm (allPairs r)) {p : Nat × Nat} (hp : p ∈ allPairs r) :
    (p, destOf r align counts order p) ∈ reserved r align counts order := by
  have hmem : p ∈ (reserved r align counts order).map Prod.fst := by
    unfold reserved
    rw [handOut_fst]
    exact horder.mem_iff.mpr hp
  obtain ⟨w, hw, rfl⟩ := List.mem_map.mp hmem
  have : destOf r align counts order w.1 = w.2 := scatter_of_mem _ (reserved_nodup horder) hw
  rw [this]
  exact hw

theorem mem_reserved (horder : order.Perm (allPairs r)) {w : (Nat × Nat) × Nat}
    (hw : w ∈ reserved r align counts order) : w.1 ∈ allPairs r ∧ destOf r align counts order w.1 = w.2 := by
  have hmem : w.1 ∈ (reserved r align counts order).map Prod.fst := List.mem_map_of_mem hw
  unfold reserved at hmem
  rw [handOut_fst] at hmem
  exact ⟨horder.mem_iff.mp hmem, scatter_of_mem _ (reserved_nodup horder) hw⟩

/-- The rows of an expert are its reserved part of the slice. -/
theorem destOf_range (hr : WellRouted r) (hcounts : ∀ e < r.localNumExperts, counts e = trueCount r e)
    (horder : order.Perm (allPairs r)) {p : Nat × Nat} (hp : p ∈ allPairs r) :
    sliceStart (trueCount r) align (r.expertOf p) ≤ destOf r align counts order p ∧
      destOf r align counts order p < sliceStart (trueCount r) align (r.expertOf p) + trueCount r (r.expertOf p) := by
  have hlt := expertOf_lt hr hp
  have hmem : (p, destOf r align counts order p) ∈ reserved r align counts order := destOf_mem horder hp
  have h := handOut_range r.expertOf hmem
  rw [startLoc_eq hlt, sliceStart_congr align hcounts hlt.le, horder.countP_eq] at h
  exact h

theorem slices_apart {align : Nat} {e e' x : Nat} (ha : 0 < align) (hx : sliceStart (trueCount r) align e ≤ x)
    (hx' : x < sliceStart (trueCount r) align e + trueCount r e) (hy : sliceStart (trueCount r) align e' ≤ x)
    (hy' : x < sliceStart (trueCount r) align e' + trueCount r e') : e = e' := by
  have hle := le_roundUp (trueCount r e) ha
  have hle' := le_roundUp (trueCount r e') ha
  obtain h | h | h := Nat.lt_trichotomy e e'
  · have := slice_end_le (trueCount r) align h
    omega
  · exact h
  · have := slice_end_le (trueCount r) align h
    omega

theorem destOf_inj (ha : 0 < align) (hr : WellRouted r) (hcounts : ∀ e < r.localNumExperts, counts e = trueCount r e)
    (horder : order.Perm (allPairs r)) {p q : Nat × Nat} (hp : p ∈ allPairs r) (hq : q ∈ allPairs r)
    (h : destOf r align counts order p = destOf r align counts order q) : p = q := by
  by_contra hne
  have hrow := fun {p : Nat × Nat} (hp : p ∈ allPairs r) => @destOf_range r align counts order hr hcounts horder p hp
  obtain ⟨hp₁, hp₂⟩ := hrow hp
  obtain ⟨hq₁, hq₂⟩ := hrow hq
  rw [h] at hp₁ hp₂
  have hkey := slices_apart ha hp₁ hp₂ hq₁ hq₂
  exact handOut_distinct r.expertOf (destOf_mem horder hp) (destOf_mem horder hq) hkey hne h

end

theorem gatherLoads_eq_iff {a : MatrixRows} (hcols : 0 < a.cols) (hblock : a.cols % blockD a.cols = 0) {row : Nat} :
    (gatherLoads a row = (List.range a.cols).map fun col => (a.at row col : Int)) ↔
      (a.stride0 < 2 ^ 31 → row * a.stride0 < 2 ^ 31) := by
  rw [gatherLoads_eq hcols hblock, ← kernelMul_eq_iff, List.map_inj_left]
  constructor
  · intro h
    have := h 0 (List.mem_range.mpr hcols)
    simpa [MatrixRows.at] using this
  · intro h col _
    rw [h, ← Nat.cast_add]
    rfl

section
variable {α : Type} {r : Routing} {size : Int} {align : Nat} {counts : Nat → Nat} {experts : List Nat}
  {order : List (Nat × Nat)} {aq aqOut a : MatrixRows} {recvX : Int → α} {before : Scattered α}

theorem outputIndex_eq (horder : order.Perm (allPairs r)) {p : Nat × Nat} (hp : p ∈ allPairs r) :
    (epScatter r align counts aq aqOut recvX experts order before).outputIndex p = destOf r align counts order p := by
  refine scatter_of_mem _ ?_ (List.mem_map_of_mem (destOf_mem horder hp))
  rw [List.map_map]
  exact reserved_nodup horder

/-- The last row of an expert that has tokens is reserved for one of its choices. -/
theorem exists_last (hcounts : ∀ e < r.localNumExperts, counts e = trueCount r e) (horder : order.Perm (allPairs r)) {e : Nat}
    (he : e < r.localNumExperts) (hpos : 0 < trueCount r e) :
    ∃ p ∈ allPairs r, destOf r align counts order p = sliceStart (trueCount r) align e + trueCount r e - 1 := by
  have hstart : startLoc r align counts e = sliceStart (trueCount r) align e := by
    rw [startLoc_eq he, sliceStart_congr align hcounts he.le]
  have hcount : order.countP (fun p => r.expertOf p = e) = trueCount r e := horder.countP_eq _
  obtain ⟨w, hw, -, hslot⟩ : ∃ w ∈ reserved r align counts order, r.expertOf w.1 = e ∧
      w.2 = sliceStart (trueCount r) align e + trueCount r e - 1 := exists_handOut r.expertOf (by omega) (by omega)
  obtain ⟨hp, hdest⟩ := mem_reserved horder hw
  exact ⟨w.1, hp, hdest.trans hslot⟩

theorem at_inj {m : MatrixRows} {row row' col col' : Nat} (hcol : col < m.cols) (hcol' : col' < m.cols)
    (h : m.at row col = m.at row' col') : row = row' ∧ col = col' := by
  have hlt := hcol.trans_le m.cols_le
  have hlt' := hcol'.trans_le m.cols_le
  have hdiv := congrArg (· / m.stride0) h
  have hmod := congrArg (· % m.stride0) h
  unfold MatrixRows.at at hdiv hmod
  simp only [block_div hlt, block_div hlt'] at hdiv
  simp only [block_mod hlt, block_mod hlt'] at hmod
  exact ⟨hdiv, hmod⟩

theorem epGather_eq_ok {ix : Nat × Nat → Int} {loads : Nat → List (Nat × List Int)} :
    epGather r a ix = .ok loads ↔ a.cols % blockD a.cols = 0 ∧ gatherRows r a ix = loads := by
  unfold epGather
  rw [bind_eq_ok]
  constructor
  · rintro ⟨_, hblock, hok⟩
    exact ⟨ensure_eq_ok.mp hblock, pure_eq_ok.mp hok⟩
  · rintro ⟨hblock, hrows⟩
    exact ⟨(), ensure_eq_ok.mpr hblock, pure_eq_ok.mpr hrows⟩

/-- The fills are the rows in use of the slices, with the numbers of their experts. -/
theorem mem_fills (hcounts : ∀ e < r.localNumExperts, counts e = trueCount r e)
    (hexperts : experts.Perm (List.range r.localNumExperts)) {w : Nat × Int} :
    w ∈ experts.flatMap (filledRows r.localNumExperts align counts blockE (nextPowerOf2 r.localNumExperts)) ↔
      ∃ e < r.localNumExperts, w.2 = (e : Int) ∧ sliceStart (trueCount r) align e ≤ w.1 ∧
        w.1 < sliceStart (trueCount r) align e + trueCount r e := by
  have hfill : ∀ e < r.localNumExperts, (w ∈ filledRows r.localNumExperts align counts blockE
      (nextPowerOf2 r.localNumExperts) e ↔ w.2 = (e : Int) ∧ sliceStart (trueCount r) align e ≤ w.1 ∧
        w.1 < sliceStart (trueCount r) align e + trueCount r e) := by
    intro e he
    rw [mem_filledRows he, sliceStart_congr align hcounts he.le, hcounts e he]
  rw [List.mem_flatMap]
  constructor
  · rintro ⟨e, he, hw⟩
    have helt := List.mem_range.mp (hexperts.mem_iff.mp he)
    exact ⟨e, helt, (hfill e helt).mp hw⟩
  · rintro ⟨e, he, hw⟩
    exact ⟨e, hexperts.mem_iff.mpr (List.mem_range.mpr he), (hfill e he).mpr hw⟩

theorem mIndices_dest (ha : 0 < align) (hr : WellRouted r) (hcounts : ∀ e < r.localNumExperts, counts e = trueCount r e)
    (hexperts : experts.Perm (List.range r.localNumExperts)) (horder : order.Perm (allPairs r)) {p : Nat × Nat}
    (hp : p ∈ allPairs r) :
    (epScatter r align counts aq aqOut recvX experts order before).mIndices (destOf r align counts order p) =
      r.expertOf p := by
  obtain ⟨hlo, hhi⟩ := (destOf_range hr hcounts horder hp : _ ∧ destOf r align counts order p < _)
  refine scatter_eq_of_agree (fun w hw hrow => ?_) (.inr ?_)
  · obtain ⟨e, _, hv, hwlo, hwhi⟩ := (mem_fills hcounts hexperts).mp hw
    rw [hrow] at hwlo hwhi
    rw [hv, slices_apart ha hwlo hwhi hlo hhi]
  · exact ⟨(destOf r align counts order p, (r.expertOf p : Int)),
      (mem_fills hcounts hexperts).mpr ⟨_, expertOf_lt hr hp, rfl, hlo, hhi⟩, rfl⟩

theorem output_dest (ha : 0 < align) (hr : WellRouted r) (hcounts : ∀ e < r.localNumExperts, counts e = trueCount r e)
    (horder : order.Perm (allPairs r)) (hshape : aqOut.cols = aq.cols) {p : Nat × Nat} (hp : p ∈ allPairs r) {col : Nat}
    (hcol : col < aq.cols) :
    (epScatter r align counts aq aqOut recvX experts order before).output (aqOut.at (destOf r align counts order p) col) =
      recvX (kernelMul p.1 aq.stride0 + col) := by
  refine scatter_eq_of_agree (fun w hw hat => ?_) (.inr ?_)
  · obtain ⟨v, hv, hw⟩ := List.mem_flatMap.mp hw
    obtain ⟨col', hcol', rfl⟩ := List.mem_map.mp hw
    obtain ⟨hv₁, hv₂⟩ := mem_reserved horder hv
    obtain ⟨hrow, rfl⟩ := at_inj (hshape ▸ List.mem_range.mp hcol') (hshape ▸ hcol) hat
    have : v.1 = p := destOf_inj ha hr hcounts horder hv₁ hp (hv₂.trans hrow)
    rw [this]
  · exact ⟨_, List.mem_flatMap.mpr ⟨_, destOf_mem horder hp, List.mem_map_of_mem (List.mem_range.mpr hcol)⟩, rfl⟩

theorem rowsAgree_of_fit (hh : Holds r size align) (hr : WellRouted r)
    (hcounts : ∀ e < r.localNumExperts, counts e = trueCount r e) (hexperts : experts.Perm (List.range r.localNumExperts))
    (horder : order.Perm (allPairs r)) (hbefore : before.mIndices = fun _ => -1) (hshape : aqOut.cols = aq.cols)
    (hcols : 0 < a.cols) (hblock : a.cols % blockD a.cols = 0) (hfit : RowsFit r align a.stride0) :
    RowsAgree r size align aq aqOut a recvX (epScatter r align counts aq aqOut recvX experts order before)
      (destOf r align counts order) := by
  have hrange := fun {p} hp => @destOf_range r align counts order hr hcounts horder p hp
  constructor
  · intro p hp q hq hne he
    exact hne (destOf_inj hh.pos hr hcounts horder hp hq he)
  · intro p hp
    obtain ⟨hlo, hhi⟩ := hrange hp
    exact ⟨hlo, Nat.lt_of_lt_of_le hhi (Nat.add_le_add_left (le_roundUp _ hh.pos) _)⟩
  · intro p hp
    obtain ⟨_, hhi⟩ := hrange hp
    have hend := slice_end_le (trueCount r) align (expertOf_lt hr hp)
    have hle := le_roundUp (trueCount r (r.expertOf p)) hh.pos
    have := hh.fits
    omega
  · exact fun p hp => mIndices_dest hh.pos hr hcounts hexperts horder hp
  · intro row
    by_cases hneg : (epScatter r align counts aq aqOut recvX experts order before).mIndices row = -1
    · exact .inl hneg
    · refine .inr ?_
      obtain ⟨e, helt, hv, hlo, hhi⟩ := (mem_fills hcounts hexperts).mp (mem_of_scatter_ne
        (v := (epScatter r align counts aq aqOut recvX experts order before).mIndices row) rfl (by
          rw [hbefore]
          exact Ne.symm hneg))
      exact ⟨e, helt, hv, hlo, Nat.lt_of_lt_of_le hhi (Nat.add_le_add_left (le_roundUp _ hh.pos) _)⟩
  · exact fun p hp col hcol => output_dest hh.pos hr hcounts horder hshape hp hcol
  · exact fun p hp => outputIndex_eq horder hp
  · refine ⟨_, epGather_eq_ok.mpr ⟨hblock, rfl⟩, fun token ht => ?_⟩
    apply List.map_congr_left
    intro k hk
    have hp : (token, k) ∈ allPairs r := mem_allPairs.mpr ⟨ht, hk⟩
    obtain ⟨_, hhi⟩ := hrange hp
    have helt := expertOf_lt hr hp
    rw [outputIndex_eq horder hp, (gatherLoads_eq_iff hcols hblock).mpr]
    intro hs
    refine Nat.lt_of_le_of_lt (Nat.mul_le_mul_right _ ?_) (hfit hs _ helt ?_)
    · omega
    · omega

/-- With the right counts, sizes and orders the rows agree exactly where the gather's products fit. -/
theorem rowsAgree_iff (hh : Holds r size align) (hr : WellRouted r)
    (hcounts : ∀ e < r.localNumExperts, counts e = trueCount r e) (hexperts : experts.Perm (List.range r.localNumExperts))
    (horder : order.Perm (allPairs r)) (hbefore : before.mIndices = fun _ => -1) (hshape : aqOut.cols = aq.cols)
    (hcols : 0 < a.cols) (hblock : a.cols % blockD a.cols = 0) :
    (∃ dest, RowsAgree r size align aq aqOut a recvX (epScatter r align counts aq aqOut recvX experts order before) dest) ↔
      RowsFit r align a.stride0 := by
  constructor
  · rintro ⟨dest, h⟩ hs e he hpos
    obtain ⟨p, hp, hlast⟩ : ∃ p ∈ allPairs r, destOf r align counts order p =
        sliceStart (trueCount r) align e + trueCount r e - 1 := exists_last hcounts horder he hpos
    obtain ⟨loads, hloads, hgathered⟩ := h.gathered
    obtain ⟨-, rfl⟩ := epGather_eq_ok.mp hloads
    obtain ⟨ht, hk⟩ := mem_allPairs.mp hp
    have hdest := h.index p hp
    rw [outputIndex_eq horder hp] at hdest
    have hrow := (Prod.mk.inj (List.map_inj_left.mp (hgathered p.1 ht) p.2 hk)).2
    rw [outputIndex_eq horder hp, ← Int.ofNat_inj.mp hdest] at hrow
    rw [← hlast]
    exact (gatherLoads_eq_iff hcols hblock).mp hrow hs
  · exact fun hfit => ⟨_, rowsAgree_of_fit hh hr hcounts hexperts horder hbefore hshape hcols hblock hfit⟩

end

theorem deepgemmMoePermute_eq_ok {α : Type} {dev : Device} {r : Routing} {blockM : Nat} {md : Option ExpertTokensMeta}
    {counted : Nat → Nat} {aq aqOut : MatrixRows} {recvX : Int → α} {experts : List Nat} {order : List (Nat × Nat)}
    {before : Scattered α} {size : Int} {align : Nat} {out : Scattered α} :
    deepgemmMoePermute dev r blockM md counted aq aqOut recvX experts order before = .ok (size, align, out) ↔
      computeAlignedM dev r.numTokens r.numTopk r.localNumExperts blockM md = .ok (size, align) ∧ aqOut.cols = aq.cols ∧
      size % (align : Int) = 0 ∧
      epScatter r align (scatterCounts dev md counted) aq aqOut recvX experts order { before with mIndices := fun _ => -1 } =
        out := by
  unfold deepgemmMoePermute
  simp only [bind_eq_ok, ensure_eq_ok, pure_eq_ok]
  constructor
  · rintro ⟨_, hok, _, hshape, _, hsize, he⟩
    cases he
    exact ⟨hok, hshape, hsize, rfl⟩
  · rintro ⟨hok, hshape, hsize, rfl⟩
    exact ⟨_, hok, (), hshape, (), hsize, rfl⟩

/-- Permute names rows that are apart, and unpermute loads them exactly where the products fit. -/
theorem permute_unpermute_iff {α : Type} (dev : Device) (r : Routing) (hr : WellRouted r) (blockM : Nat)
    (hb : 0 < blockM) (md : Option ExpertTokensMeta) (counted : Nat → Nat) (hc : CountsHold dev r md counted)
    (aq aqOut a : MatrixRows) (hshape : aqOut.cols = aq.cols) (hcols : 0 < a.cols) (hblock : a.cols % blockD a.cols = 0)
    (recvX : Int → α) (experts : List Nat) (hexperts : experts.Perm (List.range r.localNumExperts))
    (order : List (Nat × Nat)) (horder : order.Perm (scatterPairs r)) (before : Scattered α) :
    ∃ size align out, deepgemmMoePermute dev r blockM md counted aq aqOut recvX experts order before = .ok (size, align, out) ∧
      (align : Int) ∣ size ∧ (∀ e < r.localNumExperts, align ∣ sliceStart (trueCount r) align e ∧
        ∀ e' < e, sliceStart (trueCount r) align e' + roundUp (trueCount r e') align ≤ sliceStart (trueCount r) align e) ∧
      ((∃ dest, RowsAgree r size align aq aqOut a recvX out dest) ↔ RowsFit r align a.stride0) := by
  obtain ⟨size, align, hok, hh⟩ := computeAlignedM_holds hr hc hb
  refine ⟨size, align, _, deepgemmMoePermute_eq_ok.mpr ⟨hok, hshape, Int.emod_eq_zero_of_dvd hh.dvd, rfl⟩, hh.dvd,
    fun e _ => ⟨dvd_sliceStart _ _ _, fun e' he' => ?_⟩, ?_⟩
  · exact slice_end_le _ _ he'
  · exact rowsAgree_iff hh hr (fun e he => scatterCounts_eq hc he) hexperts (horder.trans (scatterPairs_perm r)) rfl hshape
      hcols hblock

/-- Two tokens with two choices each; the map keeps expert 0, sends expert 5 to local expert 1 and drops the rest. -/
def smallRouting : Routing where
  numTokens := 2
  numTopk := 2
  topkIds token k := if token = 0 then (if k = 0 then 0 else 5) else (if k = 0 then -1 else 7)
  expertMap := some fun e => if e = 0 then 0 else if e = 5 then 1 else -1
  localNumExperts := 2

theorem smallRouting_wellRouted : WellRouted smallRouting := by
  unfold WellRouted
  decide

/-- Contiguous rows. -/
def contiguousRows (cols : Nat) : MatrixRows := ⟨cols, cols, Nat.le_refl cols⟩

theorem permute_unpermute_small : ∃ size align out,
    deepgemmMoePermute ⟨true, false, fun _ _ => none⟩ smallRouting 256 none (trueCount smallRouting) (contiguousRows 7168)
      (contiguousRows 7168) (fun i => i) [1, 0] [(0, 1), (0, 0)] ⟨fun _ => 0, fun _ => 0, fun _ => 0⟩ = .ok (size, align, out) ∧
      ∃ dest, RowsAgree smallRouting size align (contiguousRows 7168) (contiguousRows 7168) (contiguousRows 7168) (fun i => i)
        out dest := by
  obtain ⟨size, align, out, hok, -, -, hiff⟩ := permute_unpermute_iff ⟨true, false, fun _ _ => none⟩ smallRouting
    smallRouting_wellRouted 256 (by decide) none (trueCount smallRouting) ⟨fun _ _ _ => rfl, nofun, nofun, nofun⟩
    (contiguousRows 7168) (contiguousRows 7168) (contiguousRows 7168) rfl (by decide) (by decide) (fun i => i) [1, 0] (by decide)
    [(0, 1), (0, 0)] (by decide) ⟨fun _ => 0, fun _ => 0, fun _ => 0⟩
  have halign : align = 256 := by
    have hsize : computeAlignedM ⟨true, false, fun _ _ => none⟩ 2 2 2 256 none = .ok (768, 256) := rfl
    cases hsize.symm.trans (deepgemmMoePermute_eq_ok.mp hok).1
    rfl
  refine ⟨size, align, out, hok, hiff.mpr ?_⟩
  rw [halign]
  intro _ e he _
  have he : e < 2 := he
  obtain rfl | rfl : e = 0 ∨ e = 1 := by omega
  · decide
  · decide

/-- Eight local experts that take all of 37450 tokens each. -/
def wideRouting : Routing where
  numTokens := 37450
  numTopk := 8
  topkIds _ k := k
  expertMap := none
  localNumExperts := 8

theorem wideRouting_count {e : Nat} (he : e < 8) : trueCount wideRouting e = 37450 := by
  have htoken : ∀ token, ((wideRouting.validTopk token).map (token, ·)).countP (fun p => wideRouting.expertOf p = e) = 1 := by
    intro token
    rw [List.countP_map]
    have hone : ∀ e < 8, (List.range 8).countP (fun k => k = e) = 1 := by decide
    exact hone e he
  unfold trueCount allPairs
  rw [List.countP_flatMap]
  have hmap : (List.range wideRouting.numTokens).map ((List.countP fun p => wideRouting.expertOf p = e) ∘ fun token =>
      (wideRouting.validTopk token).map (token, ·)) = (List.range wideRouting.numTokens).map fun _ => 1 :=
    List.map_congr_left fun token _ => htoken token
  rw [hmap, List.map_const', List.length_range, List.sum_replicate, smul_eq_mul, Nat.mul_one]
  rfl

/-- The last row of the last expert is 300873, and `300873 * 7168` is past `2 ^ 31`. -/
theorem gather_product_wraps : ∃ size align out,
    deepgemmMoePermute ⟨true, false, fun _ _ => none⟩ wideRouting 256 none (trueCount wideRouting) (contiguousRows 7168)
      (contiguousRows 7168) (fun i => i) (List.range 8) (scatterPairs wideRouting) ⟨fun _ => 0, fun _ => 0, fun _ => 0⟩ =
        .ok (size, align, out) ∧
      ¬∃ dest, RowsAgree wideRouting size align (contiguousRows 7168) (contiguousRows 7168) (contiguousRows 7168) (fun i => i)
        out dest := by
  have hrouted : WellRouted wideRouting := by
    intro token _ k hk
    exact Int.ofNat_lt.mpr hk
  have hcounts : CountsHold ⟨true, false, fun _ _ => none⟩ wideRouting none (trueCount wideRouting) :=
    ⟨fun _ _ _ => rfl, nofun, nofun, nofun⟩
  have hblock : 0 < 256 := by decide
  obtain ⟨size, align, hok, hh⟩ := computeAlignedM_holds hrouted hcounts hblock
  have halign : align = 256 := by
    have hsize : computeAlignedM ⟨true, false, fun _ _ => none⟩ 37450 8 8 256 none = .ok (301824, 256) := rfl
    cases hsize.symm.trans hok
    rfl
  refine ⟨size, align, _, deepgemmMoePermute_eq_ok.mpr ⟨hok, rfl, Int.emod_eq_zero_of_dvd hh.dvd, rfl⟩, ?_⟩
  intro hagree
  have hfit := (rowsAgree_iff hh hrouted (fun e he => scatterCounts_eq hcounts he) (.refl _) (scatterPairs_perm _) rfl rfl
    (by decide) (by decide)).mp hagree
  have hlast := hfit (by decide) 7 (by decide) (by rw [wideRouting_count (by decide)]; decide)
  have hstart : sliceStart (trueCount wideRouting) align 7 = 7 * 37632 := by
    rw [halign, sliceStart_congr 256 (fun e he => wideRouting_count he) (by decide : 7 ≤ 8)]
    rfl
  rw [wideRouting_count (by decide), hstart] at hlast
  exact absurd hlast (by decide)

end VllmHcu.Moe
