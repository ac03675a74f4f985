import VllmHcu.Sparse.SelectSound
import VllmHcu.Sparse.Meta
import VllmHcu.Lib.TopK
import Mathlib.Data.Prod.Lex

/-!
# The selectors against a sort

The regions that a sort by descending score, then ascending id, puts in front. Scores
are compared by their values, in units of `2 ^ -149`, of which every finite float32 is
a multiple; both zeros have the value zero.
-/

namespace VllmHcu.Sparse

/-! ## The value of a score -/

/-- The value of the low 31 bits of a float32: subnormal, or with the leading bit of a normal number. -/
def magnitude (z : Nat) : Nat :=
  if z / 2 ^ 23 = 0 then z % 2 ^ 23 else (2 ^ 23 + z % 2 ^ 23) * 2 ^ (z / 2 ^ 23 - 1)

def Score.value (s : Score) : Int :=
  let z := (s.bits &&& 0x7FFFFFFF#32).toNat
  if s.bits.msb then -(magnitude z : Int) else magnitude z

theorem magnitude_lt_pow (z : Nat) : magnitude z < 2 ^ (23 + z / 2 ^ 23) := by
  have hm := Nat.mod_lt z (show 0 < 2 ^ 23 by decide)
  unfold magnitude
  by_cases he : z / 2 ^ 23 = 0
  · rw [if_pos he, he]
    exact hm
  · rw [if_neg he]
    have hpow : 2 ^ (23 + z / 2 ^ 23) = 2 ^ 24 * 2 ^ (z / 2 ^ 23 - 1) := by
      rw [← Nat.pow_add]
      congr 1
      omega
    rw [hpow]
    exact Nat.mul_lt_mul_of_pos_right (by omega) (Nat.pow_pos (by decide))

theorem pow_le_magnitude {z : Nat} (he : z / 2 ^ 23 ≠ 0) : 2 ^ (22 + z / 2 ^ 23) ≤ magnitude z := by
  have hpow : 2 ^ (22 + z / 2 ^ 23) = 2 ^ 23 * 2 ^ (z / 2 ^ 23 - 1) := by
    rw [← Nat.pow_add]
    congr 1
    omega
  rw [magnitude, if_neg he, hpow]
  exact Nat.mul_le_mul_right _ (Nat.le_add_right ..)

theorem magnitude_strictMono {z z' : Nat} (h : z < z') : magnitude z < magnitude z' := by
  have hdiv : z / 2 ^ 23 ≤ z' / 2 ^ 23 := Nat.div_le_div_right h.le
  rcases hdiv.lt_or_eq with hlt | heq
  · have hstep : 2 ^ (23 + z / 2 ^ 23) ≤ 2 ^ (22 + z' / 2 ^ 23) := Nat.pow_le_pow_right (by decide) (by omega)
    have hne : z' / 2 ^ 23 ≠ 0 := by omega
    exact (magnitude_lt_pow z).trans_le (hstep.trans (pow_le_magnitude hne))
  · have hmod : z % 2 ^ 23 < z' % 2 ^ 23 := by
      have h₁ := Nat.div_add_mod z (2 ^ 23)
      have h₂ := Nat.div_add_mod z' (2 ^ 23)
      rw [heq] at h₁
      omega
    unfold magnitude
    rw [heq]
    by_cases he : z' / 2 ^ 23 = 0
    · rwa [if_pos he, if_pos he]
    · rw [if_neg he, if_neg he]
      exact Nat.mul_lt_mul_of_pos_right (by omega) (Nat.pow_pos (by decide))

/-- The key and the value of a score, below zero and from zero on. -/
theorem Score.key_value (s : Score) :
    (∃ z : Nat, 0 < z ∧ residentKey s = -1 - z ∧ s.value = -magnitude z) ∨
    ∃ z : Nat, residentKey s = z ∧ s.value = magnitude z := by
  obtain ⟨b, z, h⟩ := s.exists_cons
  have hlow : s.bits &&& 0x7FFFFFFF#32 = BitVec.cons false z := by
    rw [h, maskLow_eq, BitVec.cons_and_cons, Bool.and_false, BitVec.and_allOnes]
  have hvalue : s.value = if b then -(magnitude z.toNat : Int) else magnitude z.toNat := by
    unfold Score.value
    rw [hlow, h, BitVec.msb_cons, toNat_cons]
    simp
  by_cases hn : (b && z != 0#31) = true
  · obtain ⟨rfl, hz⟩ := Bool.and_eq_true_iff.mp hn
    refine .inl ⟨z.toNat, ?_, ?_, by simpa using hvalue⟩
    · refine Nat.pos_of_ne_zero fun hzero => ?_
      simp [BitVec.toNat_eq, hzero] at hz
    · have hlt := z.isLt
      rw [residentKey, Score.negative_cons h, if_pos hn, h, maskLow_eq, BitVec.cons_xor_cons, Bool.xor_false,
        BitVec.xor_allOnes, toInt_cons, BitVec.toNat_not]
      simp only [if_true]
      omega
  · refine .inr ⟨z.toNat, ?_, ?_⟩
    · rw [residentKey, Score.negative_cons h, if_neg hn, hlow, toInt_cons]
      simp
    · rw [hvalue]
      cases b with
      | false => simp
      | true =>
        have hz : z = 0#31 := by simpa using hn
        subst hz
        rfl

/-- Keys are ordered as the values are, and equal where the values are. -/
theorem residentKey_lt_iff (s s' : Score) : residentKey s < residentKey s' ↔ s.value < s'.value := by
  have hmono : ∀ s s' : Score, residentKey s < residentKey s' → s.value < s'.value := by
    intro s s' h
    rcases s.key_value with ⟨z, hz, hk, hv⟩ | ⟨z, hk, hv⟩
    · have hpos := magnitude_strictMono hz
      rcases s'.key_value with ⟨z', _, hk', hv'⟩ | ⟨z', hk', hv'⟩
      · have := magnitude_strictMono (show z' < z by omega)
        omega
      · omega
    · rcases s'.key_value with ⟨z', _, hk', hv'⟩ | ⟨z', hk', hv'⟩
      · omega
      · have := magnitude_strictMono (show z < z' by omega)
        omega
  refine ⟨hmono s s', fun h => ?_⟩
  rcases lt_trichotomy (residentKey s) (residentKey s') with hlt | heq | hgt
  · exact hlt
  · exfalso
    rcases s.key_value with ⟨z, _, hk, hv⟩ | ⟨z, hk, hv⟩ <;> rcases s'.key_value with ⟨z', _, hk', hv'⟩ | ⟨z', hk', hv'⟩
    · obtain rfl : z = z' := by omega
      omega
    · omega
    · omega
    · obtain rfl : z = z' := by omega
      omega
  · exact absurd (hmono s' s hgt) h.not_gt

/-! ## The selection as a sort -/

/-- Higher scores first, then lower ids. -/
def ScoreRow.rank (row : ScoreRow) (r : Nat) : Lex (Int × Natᵒᵈ) := toLex ((row.scores r).value, OrderDual.toDual r)

/-- The first `min(topk, visible)` regions by descending score, then ascending id, listed ascending. -/
def sortedSelection (row : ScoreRow) (topk : Nat) : List Nat :=
  (((List.range row.visible).mergeSort fun a b => row.rank b ≤ row.rank a).take (min topk row.visible)).mergeSort

section
variable {row : ScoreRow} {topk : Nat} {sel : List Nat}

theorem rank_injective (row : ScoreRow) : Function.Injective row.rank := fun _ _ h =>
  OrderDual.toDual.injective (congrArg (fun p : Lex (Int × Natᵒᵈ) => (ofLex p).2) h)

theorem rank_le_iff {x y : Nat} :
    row.rank y ≤ row.rank x ↔ row.signedKey y < row.signedKey x ∨ row.signedKey y = row.signedKey x ∧ x ≤ y := by
  have hlt := residentKey_lt_iff (row.scores y) (row.scores x)
  have hgt := residentKey_lt_iff (row.scores x) (row.scores y)
  rw [ScoreRow.rank, ScoreRow.rank, Prod.Lex.toLex_le_toLex, OrderDual.toDual_le_toDual, ScoreRow.signedKey, ScoreRow.signedKey]
  dsimp only
  omega

theorem Picks.best (h : Picks row topk sel) : Best row.rank topk (List.range row.visible).toFinset sel.toFinset := by
  have hnodup : sel.Nodup := h.pairwise.imp fun hlt => hlt.ne
  refine ⟨fun r hr => ?_, ?_, fun x hx y hy hyS => ?_⟩
  · exact List.mem_toFinset.mpr (List.mem_range.mpr (h.lt_visible (List.mem_toFinset.mp hr)))
  · rw [List.toFinset_card_of_nodup hnodup, List.toFinset_card_of_nodup List.nodup_range, List.length_range, h.length]
  · rw [List.mem_toFinset] at hx hy hyS
    have hv : 0 < row.visible := Nat.zero_lt_of_lt (h.lt_visible hx)
    obtain ⟨t, -, rfl⟩ := h.cut hv
    rw [List.mem_filter] at hx hyS
    have hyS := fun ht => hyS ⟨hy, ht⟩
    have hxt := hx.2
    simp only [taken, Bool.or_eq_true, Bool.and_eq_true, decide_eq_true_eq] at hxt hyS
    rw [rank_le_iff]
    rcases hxt with hxt | ⟨hxt, hxr⟩
    · exact .inl (lt_of_le_of_lt (not_lt.mp fun hc => hyS (.inl hc)) hxt)
    · rcases lt_trichotomy (row.signedKey y) t with hlt | heq | hgt
      · exact .inl (hxt ▸ hlt)
      · -- both are on the cut, and fewer of the tied regions are before `x`
        refine .inr ⟨heq.trans hxt.symm, ?_⟩
        by_contra hlt
        have hmono := countP_range_mono (row.signedKey · = t) (Nat.le_of_lt (Nat.lt_of_not_le hlt))
        exact hyS (.inr ⟨heq, hmono.trans_lt hxr⟩)
      · exact absurd (.inl hgt) hyS

/-- The regions that are taken are those in front of the sort. -/
theorem Picks.eq_sorted (h : Picks row topk sel) : sel = sortedSelection row topk := by
  have hnodup : sel.Nodup := h.pairwise.imp fun hlt => hlt.ne
  let sorted := (List.range row.visible).mergeSort fun a b => row.rank b ≤ row.rank a
  have hperm : sorted.Perm (List.range row.visible) := List.mergeSort_perm ..
  have hsnodup : sorted.Nodup := hperm.nodup_iff.mpr List.nodup_range
  have hbest : Best row.rank topk (List.range row.visible).toFinset (sorted.take topk).toFinset := by
    have := best_take (k := topk) hsnodup (mergeSort_descending (f := row.rank) (List.range row.visible))
    rwa [List.toFinset_eq_of_perm _ _ hperm] at this
  have heq := h.best.unique (rank_injective row).injOn hbest
  have htake : sorted.take (min topk row.visible) = sorted.take topk := by
    rw [← List.take_take, List.take_of_length_le (by simp [sorted] : sorted.length ≤ row.visible)]
  have hle : (sortedSelection row topk).Pairwise fun a b => a ≤ b := by
    have htrans : ∀ a b c : Nat, decide (a ≤ b) = true → decide (b ≤ c) = true → decide (a ≤ c) = true := by
      intro a b c hab hbc
      rw [decide_eq_true_eq] at *
      exact hab.trans hbc
    have htotal : ∀ a b : Nat, (decide (a ≤ b) || decide (b ≤ a)) = true := by
      intro a b
      simpa using Nat.le_total a b
    have hsorted := List.pairwise_mergeSort htrans htotal (sorted.take (min topk row.visible))
    simpa [sortedSelection] using hsorted
  refine List.Perm.eq_of_pairwise (fun a b _ _ hab hba => Nat.le_antisymm hab hba) (h.pairwise.imp fun hlt => hlt.le) hle ?_
  rw [sortedSelection]
  refine List.Perm.trans ?_ (List.mergeSort_perm ..).symm
  change sel.Perm (sorted.take (min topk row.visible))
  rw [htake]
  refine (List.perm_ext_iff_of_nodup hnodup (hsnodup.sublist (List.take_sublist ..))).mpr fun r => ?_
  rw [← List.mem_toFinset, ← List.mem_toFinset, heq]

end

/-! ## Every slot once -/

theorem map_countP_range (f : Nat → Bool) (n : Nat) :
    ((List.range n).filter f).map (fun r => (List.range r).countP f) = List.range ((List.range n).countP f) := by
  induction n with
  | zero => rfl
  | succ n ih =>
    rw [List.range_succ, List.filter_append, List.map_append, ih, List.countP_append]
    by_cases hf : f n = true
    · simp [hf, List.range_succ]
    · simp [hf]

theorem countP_range_lt_of_mem {f : Nat → Bool} {r n : Nat} (hr : r < n) (hf : f r = true) :
    (List.range r).countP f < (List.range n).countP f := by
  have hstep := countP_range_succ f r
  have hmono := countP_range_mono f (Nat.succ_le_of_lt hr)
  rw [if_pos hf] at hstep
  exact Nat.lt_of_lt_of_le (hstep ▸ Nat.lt_succ_self _) hmono

section
variable {α : Type} {v topk : Nat} {tak : Nat → Bool}

theorem takenStores_slots (value : Nat → α) {n : Nat} (hn : v ≤ n) (htopk : ((List.range v).filter tak).length ≤ topk) :
    (takenStores v topk tak value (List.range n)).map Prod.fst = List.range ((List.range v).filter tak).length := by
  have hcount : (List.range n).countP (fun r => decide (r < v) && tak r) = ((List.range v).filter tak).length := by
    rw [List.countP_eq_length_filter, filter_range_lt hn]
  have hall : (List.range n).filter (fun r => (decide (r < v) && tak r) &&
        decide ((List.range r).countP (fun r => decide (r < v) && tak r) < topk)) =
      (List.range n).filter fun r => decide (r < v) && tak r := by
    refine List.filter_congr fun r hr => ?_
    by_cases hs : (decide (r < v) && tak r) = true
    · rw [hs, Bool.true_and, decide_eq_true_eq]
      have hlt := countP_range_lt_of_mem (f := fun r => decide (r < v) && tak r) (List.mem_range.mp hr) hs
      rw [hcount] at hlt
      exact hlt.trans_le htopk
    · rw [Bool.not_eq_true] at hs
      rw [hs, Bool.false_and]
  unfold takenStores
  rw [List.map_map, hall, ← hcount]
  exact map_countP_range _ n

variable {row : ScoreRow} {blockR : Nat}

/-- The padding and the slots of the selection are all slots. -/
theorem padStores_append_perm (pad : α) {stores : List (Nat × α)}
    (h : stores.map Prod.fst = List.range (min topk row.visible)) :
    ((padStores row topk pad ++ stores).map Prod.fst).Perm (List.range topk) := by
  obtain ⟨m, hm⟩ := Nat.exists_eq_add_of_le (Nat.min_le_left topk row.visible)
  have hpads : (padStores row topk pad).map Prod.fst = (List.range m).map (min topk row.visible + ·) := by
    rw [padStores, List.map_map]
    generalize min topk row.visible = k at hm
    subst hm
    rw [List.range_add, List.filter_append, List.map_append]
    have hleft : (List.range k).filter (fun slot => decide (k ≤ slot)) = [] :=
      List.filter_eq_nil_iff.mpr fun r hr => by simpa using List.mem_range.mp hr
    have hright : ((List.range m).map (k + ·)).filter (fun slot => decide (k ≤ slot)) = (List.range m).map (k + ·) :=
      List.filter_eq_self.mpr fun r hr => by
        obtain ⟨i, -, rfl⟩ := List.mem_map.mp hr
        simp
    rw [hleft, hright]
    simp
  rw [List.map_append, hpads, h]
  conv_rhs => rw [hm, List.range_add]
  exact List.perm_append_comm

theorem residentEmit_slots (value : Nat → α) (hb : blockR ≤ residentTopkMaxRegions) (hpos : 0 < blockR)
    (hv : row.visible ≤ blockR) (hv₀ : row.visible ≠ 0) (htopk : 0 < topk) (pivot : Pivot) :
    (residentEmit row topk blockR value (residentThreshold row blockR pivot (min topk row.visible))
      (min topk row.visible)).map Prod.fst = List.range (min topk row.visible) := by
  have hcut := residentThreshold_cuts row hv pivot (show 0 < min topk row.visible by omega) (Nat.min_le_right _ _)
  have hpicks : Picks row topk _ := ⟨fun _ => ⟨_, hcut, rfl⟩, fun h => absurd h hv₀⟩
  rw [residentEmit_eq row _ topk value hb hpos hv, takenStores_slots value hv]
  · rw [hpicks.length]
  · rw [hpicks.length]
    exact Nat.min_le_left _ _

end

/-- The stores of `_region_topk_ids_resident_kernel`, in order. -/
def idsResidentStores (row : ScoreRow) (topk blockR : Nat) : List (Nat × Int) :=
  let budget := min topk row.visible
  padStores row topk (-1) ++
    if row.visible = 0 then []
    else residentEmit row topk blockR (fun r => (r : Int)) (residentThreshold row blockR bisectPivot budget) budget

/-- The stores of `_region_topk_pack_resident_kernel`. -/
def packResidentStores (row : ScoreRow) (topk blockR : Nat) (pack : Nat → BitVec 32) (guess : Bracket → Int) :
    List (Nat × BitVec 32) :=
  let budget := min topk row.visible
  padStores row topk (-1#32) ++
    if row.visible = 0 then []
    else if row.visible ≤ topk then
      ((List.range blockR).filter fun r => decide (r < row.visible) && decide (r < topk)).map fun r => (r, pack r)
    else residentEmit row topk blockR pack (residentThreshold row blockR (interpolatePivot guess) budget) budget

section
variable {row : ScoreRow} {topk blockR : Nat}

theorem idsResident_eq (mem : Nat → Int) :
    regionTopkIdsResidentKernel row topk blockR mem = scatter mem (idsResidentStores row topk blockR) := by
  unfold regionTopkIdsResidentKernel idsResidentStores
  rw [scatter_append]
  by_cases hv : row.visible = 0
  · simp only [if_pos hv, scatter_nil]
  · simp only [if_neg hv]

theorem packResident_eq (pack : Nat → BitVec 32) (guess : Bracket → Int) (mem : Nat → BitVec 32) :
    regionTopkPackResidentKernel row topk blockR pack guess mem =
      scatter mem (packResidentStores row topk blockR pack guess) := by
  unfold regionTopkPackResidentKernel packResidentStores
  rw [scatter_append]
  by_cases hv : row.visible = 0
  · simp only [if_pos hv, scatter_nil]
  · by_cases hall : row.visible ≤ topk
    · simp only [if_neg hv, if_pos hall]
    · simp only [if_neg hv, if_neg hall]

theorem idsResidentStores_perm (hb : blockR ≤ residentTopkMaxRegions) (hpos : 0 < blockR) (hv : row.visible ≤ blockR)
    (htopk : 0 < topk) : ((idsResidentStores row topk blockR).map Prod.fst).Perm (List.range topk) := by
  refine padStores_append_perm (-1) ?_
  by_cases hv₀ : row.visible = 0
  · simp [hv₀]
  · rw [if_neg hv₀]
    exact residentEmit_slots _ hb hpos hv hv₀ htopk bisectPivot

theorem packResidentStores_perm (pack : Nat → BitVec 32) (guess : Bracket → Int) (hb : blockR ≤ residentTopkMaxRegions)
    (hpos : 0 < blockR) (hv : row.visible ≤ blockR) (htopk : 0 < topk) :
    ((packResidentStores row topk blockR pack guess).map Prod.fst).Perm (List.range topk) := by
  refine padStores_append_perm (-1#32) ?_
  by_cases hv₀ : row.visible = 0
  · simp [hv₀]
  · rw [if_neg hv₀]
    by_cases hall : row.visible ≤ topk
    · have hfilter : (List.range blockR).filter (fun r => decide (r < row.visible) && decide (r < topk)) =
          List.range row.visible := by
        rw [filter_range_lt hv]
        exact List.filter_eq_self.mpr fun r hr => decide_eq_true ((List.mem_range.mp hr).trans_le hall)
      rw [if_pos hall, List.map_map, hfilter, Nat.min_eq_right hall]
      exact List.map_id _
    · rw [if_neg hall]
      exact residentEmit_slots _ hb hpos hv hv₀ htopk _

end

/-- All selectors store the regions that a sort puts in front, ascending, then the padding: the
radix kernels for any tile width, the register-resident kernels for any guess of the interpolation.
The register-resident kernels store each slot once. -/
theorem selectors_sort (row : ScoreRow) (hwidth : row.seqRegions ≤ residentTopkMaxRegions) {topk blockR : Nat}
    (htopk : 0 < topk) (hb : 0 < blockR) (g : Geometry) (table : Nat → Int) (qPosition : Int) (guess : Bracket → Int)
    (ids : Nat → Int) (words : Nat → BitVec 32) :
    let sel := sortedSelection row topk
    let width := max 2 (nextPowerOf2 row.seqRegions)
    let pack := g.prefillWord table qPosition
    (sel.length = min topk row.visible ∧ sel.Pairwise (· < ·)) ∧
    (∀ slot < topk,
      regionTopkIdsKernel row topk blockR ids slot = (sel[slot]?.map fun r : Nat => (r : Int)).getD (-1) ∧
      regionTopkIdsResidentKernel row topk width ids slot = (sel[slot]?.map fun r : Nat => (r : Int)).getD (-1) ∧
      regionTopkPackKernel row topk blockR pack words slot = (sel[slot]?.map pack).getD (-1#32) ∧
      regionTopkPackResidentKernel row topk width pack guess words slot = (sel[slot]?.map pack).getD (-1#32)) ∧
    (regionTopkIdsResidentKernel row topk width ids = scatter ids (idsResidentStores row topk width) ∧
      ((idsResidentStores row topk width).map Prod.fst).Perm (List.range topk)) ∧
    regionTopkPackResidentKernel row topk width pack guess words =
      scatter words (packResidentStores row topk width pack guess) ∧
    ((packResidentStores row topk width pack guess).map Prod.fst).Perm (List.range topk) := by
  intro sel width pack
  obtain ⟨hw, hle⟩ := blockR_of_resident hwidth
  have hpos : 0 < width := by omega
  have hvis : row.visible ≤ width := (visible_le row).trans hle
  obtain ⟨sel₁, h₁, hids⟩ : Stored row topk (fun r => (r : Int)) (-1) (regionTopkIdsKernel row topk blockR ids) :=
    regionTopkTiled_stored htopk hb
  obtain ⟨sel₂, h₂, hidsResident⟩ := regionTopkIdsResidentKernel_stored htopk hw hpos hvis ids
  obtain ⟨sel₃, h₃, hpack⟩ : Stored row topk pack (-1#32) (regionTopkPackKernel row topk blockR pack words) :=
    regionTopkTiled_stored htopk hb
  obtain ⟨sel₄, h₄, hpackResident⟩ := regionTopkPackResidentKernel_stored htopk hw hpos hvis pack guess words
  have hlength := h₁.length
  have hpairwise := h₁.pairwise
  rw [h₁.eq_sorted] at hids hlength hpairwise
  rw [h₂.eq_sorted] at hidsResident
  rw [h₃.eq_sorted] at hpack
  rw [h₄.eq_sorted] at hpackResident
  exact ⟨⟨hlength, hpairwise⟩,
    fun slot hslot => ⟨hids slot hslot, hidsResident slot hslot, hpack slot hslot, hpackResident slot hslot⟩,
    ⟨idsResident_eq ids, idsResidentStores_perm hw hpos hvis htopk⟩, packResident_eq pack guess words,
    packResidentStores_perm pack guess hw hpos hvis htopk⟩

theorem zeroBits_valid : 0#32 &&& 0x7F800000#32 ≠ 0x7F800000#32 := by decide

/-- Four regions, a one between both zeros and a negative score. -/
def zeroTieRow : ScoreRow where
  scores r :=
    if r = 0 then ⟨0x80000000#32, by decide⟩
    else if r = 1 then ⟨0xBF800000#32, by decide⟩
    else if r = 2 then ⟨0x3F800000#32, by decide⟩
    else ⟨0#32, zeroBits_valid⟩
  seqRegions := 4
  length := 9

theorem selectors_sort_four :
    regionTopkIdsKernel zeroTieRow 3 2 (fun _ => 0) 1 =
        ((sortedSelection zeroTieRow 3)[1]?.map fun r : Nat => (r : Int)).getD (-1) ∧
      regionTopkIdsResidentKernel zeroTieRow 3 4 (fun _ => 0) 1 =
        ((sortedSelection zeroTieRow 3)[1]?.map fun r : Nat => (r : Int)).getD (-1) :=
  have h := (selectors_sort zeroTieRow (by decide) (by decide) (by decide) ⟨64, 2, by decide, by decide, by decide⟩
    (fun _ => 0) 9 (fun _ => 0) (fun _ => 0) (fun _ => 0)).2.1 1 (by decide : 1 < 3)
  ⟨h.1, h.2.1⟩

end VllmHcu.Sparse
