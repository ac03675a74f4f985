import VllmHcu.Sparse.ThresholdSound

/-!
# All selectors keep the same regions

There is one key at the cut. Both emit loops store the regions taken there in
ascending order, so what a selector returns does not depend on the kernel it is
launched with, on the tile width or on the pivots of the search.
-/

namespace VllmHcu.Sparse

/-- The regions that a selector takes from `row`. -/
structure Picks (row : ScoreRow) (topk : Nat) (sel : List Nat) : Prop where
  cut : 0 < row.visible → ∃ t, Cuts ((List.range row.visible).map row.signedKey) (min topk row.visible) t ∧
    sel = (List.range row.visible).filter
      (taken row.signedKey t (min topk row.visible - (List.range row.visible).countP (t < row.signedKey ·)))
  none : row.visible = 0 → sel = []

section
variable {row : ScoreRow} {topk : Nat} {sel : List Nat}

theorem Picks.unique {sel' : List Nat} (h : Picks row topk sel) (h' : Picks row topk sel') : sel = sel' := by
  by_cases hv : row.visible = 0
  · rw [h.none hv, h'.none hv]
  · obtain ⟨t, hcut, rfl⟩ := h.cut (Nat.pos_of_ne_zero hv)
    obtain ⟨t', hcut', rfl⟩ := h'.cut (Nat.pos_of_ne_zero hv)
    rw [hcut.unique hcut']

theorem Picks.pairwise (h : Picks row topk sel) : sel.Pairwise (· < ·) := by
  by_cases hv : row.visible = 0
  · rw [h.none hv]
    exact List.Pairwise.nil
  · obtain ⟨t, -, rfl⟩ := h.cut (Nat.pos_of_ne_zero hv)
    exact List.pairwise_lt_range.filter _

theorem Picks.lt_visible (h : Picks row topk sel) {r : Nat} (hr : r ∈ sel) : r < row.visible := by
  by_cases hv : row.visible = 0
  · rw [h.none hv] at hr
    cases hr
  · obtain ⟨t, -, rfl⟩ := h.cut (Nat.pos_of_ne_zero hv)
    exact List.mem_range.mp (List.mem_filter.mp hr).1

theorem Picks.length (h : Picks row topk sel) : sel.length = min topk row.visible := by
  by_cases hv : row.visible = 0
  · rw [h.none hv, hv, Nat.min_zero]
    rfl
  · obtain ⟨t, hcut, rfl⟩ := h.cut (Nat.pos_of_ne_zero hv)
    rw [← List.countP_eq_length_filter]
    exact hcut.countP_taken

end

/-! ## Stores of the taken entries -/

theorem filter_range_lt {v n : Nat} (hvn : v ≤ n) (f : Nat → Bool) :
    (List.range n).filter (fun r => decide (r < v) && f r) = (List.range v).filter f := by
  obtain ⟨m, rfl⟩ := Nat.exists_eq_add_of_le hvn
  rw [List.range_add, List.filter_append]
  have hleft : (List.range v).filter (fun r => decide (r < v) && f r) = (List.range v).filter f := by
    apply List.filter_congr
    intro r hr
    simp [List.mem_range.mp hr]
  have hright : ((List.range m).map (v + ·)).filter (fun r => decide (r < v) && f r) = [] := by
    simp [List.filter_eq_nil_iff]
  rw [hleft, hright, List.append_nil]

theorem countP_range_succ (f : Nat → Bool) (r : Nat) :
    (List.range (r + 1)).countP f = (List.range r).countP f + if f r then 1 else 0 := by
  rw [List.range_succ, List.countP_append, List.countP_singleton]

theorem countP_range_mono (f : Nat → Bool) {n m : Nat} (h : n ≤ m) : (List.range n).countP f ≤ (List.range m).countP f :=
  (List.range_sublist.mpr h).countP_le

theorem countP_range_tile (f : Nat → Bool) (base n : Nat) :
    (List.range base).countP f + (List.range' base n).countP f = (List.range (base + n)).countP f := by
  rw [List.range_eq_range', List.range_eq_range', ← List.range'_append_1, List.countP_append, Nat.zero_add]

section
variable {α : Type} {v topk : Nat} {tak : Nat → Bool} (value : Nat → α)

/-- The stores of the lanes `l`, each taken lane at the number of taken lanes before it. -/
def takenStores (v topk : Nat) (tak : Nat → Bool) (value : Nat → α) (l : List Nat) : List (Nat × α) :=
  let sel := fun r => decide (r < v) && tak r
  (l.filter fun r => sel r && decide ((List.range r).countP sel < topk)).map fun r => ((List.range r).countP sel, value r)

theorem scatter_takenStores (out : Nat → α) {n : Nat} (hn : v ≤ n) (htopk : ((List.range v).filter tak).length ≤ topk)
    (slot : Nat) :
    scatter out (takenStores v topk tak value (List.range n)) slot =
      (((List.range v).filter tak)[slot]?.map value).getD (out slot) := by
  have hall : (List.range n).filter (fun r => (decide (r < v) && tak r) &&
      decide ((List.range r).countP (fun r => decide (r < v) && tak r) < topk)) =
      (List.range n).filter fun r => decide (r < v) && tak r := by
    apply List.filter_congr
    intro r hr
    by_cases hs : (decide (r < v) && tak r) = true
    · have hstep := countP_range_succ (fun r => decide (r < v) && tak r) r
      rw [if_pos hs] at hstep
      have hmono := countP_range_mono (fun r => decide (r < v) && tak r) (Nat.succ_le_of_lt (List.mem_range.mp hr))
      rw [countP_range_lt hn, Nat.succ_eq_add_one, hstep,
        (List.countP_eq_length_filter : (List.range v).countP tak = _)] at hmono
      rw [hs, Bool.true_and, decide_eq_true_eq]
      omega
    · rw [Bool.not_eq_true] at hs
      rw [hs, Bool.false_and]
  unfold takenStores
  dsimp only
  rw [hall, scatter_compact, filter_range_lt hn]

end

/-! ## The tiled kernels -/

section
variable {α : Type} (row : ScoreRow) (topk : Nat) {blockR : Nat} (value : Nat → α) (cut : RadixState)

/-- The state of the emit loop after the first `n` lanes. -/
def emitted (n : Nat) : EmitState α where
  cursor := (List.range n).countP fun r => decide (r < row.visible) && taken row.key cut.threshold cut.remaining r
  tiesTaken := (List.range n).countP fun r => decide (r < row.visible) && decide (row.key r = cut.threshold)
  stores := takenStores row.visible topk (taken row.key cut.threshold cut.remaining) value (List.range n)

theorem takenStores_append (v : Nat) (tak : Nat → Bool) (l l' : List Nat) :
    takenStores v topk tak value (l ++ l') = takenStores v topk tak value l ++ takenStores v topk tak value l' := by
  simp [takenStores]

theorem tiedLane_count {r : Nat} (hr : r ≤ row.visible) :
    (List.range r).countP (tiedLane row cut) = (List.range r).countP (row.key · = cut.threshold) := by
  apply List.countP_congr
  intro x hx
  have : x < row.visible := (List.mem_range.mp hx).trans_le hr
  simp [tiedLane, this]

theorem countP_prefix_tile (f : Nat → Bool) {base r : Nat} (hr : base ≤ r) :
    (List.range base).countP f + (List.range' base (r - base + 1)).countP f = (List.range (r + 1)).countP f := by
  rw [countP_range_tile]
  congr 2
  omega

/-- With the ties of the earlier tiles counted, a lane is selected when it is taken. -/
theorem selectedLane_eq {base r : Nat} (hr : base ≤ r) :
    selectedLane row cut ((List.range base).countP (tiedLane row cut)) base r =
      (decide (r < row.visible) && taken row.key cut.threshold cut.remaining r) := by
  unfold selectedLane
  dsimp only
  rw [countP_prefix_tile _ hr, countP_range_succ]
  by_cases hv : r < row.visible
  · rw [tiedLane_count row cut hv.le]
    by_cases hkey : row.key r = cut.threshold
    · simp [tiedLane, taken, hv, hkey]
    · simp [tiedLane, taken, hv, hkey]
  · simp [tiedLane, hv]

theorem emitTile_emitted (base : Nat) :
    emitTile row topk blockR value cut (emitted row topk value cut base) base =
      emitted row topk value cut (base + blockR) := by
  obtain ⟨sel, hsel⟩ : ∃ sel : Nat → Bool,
      (fun r => decide (r < row.visible) && taken row.key cut.threshold cut.remaining r) = sel := ⟨_, rfl⟩
  have hlane : ∀ r, base ≤ r → selectedLane row cut (emitted row topk value cut base).tiesTaken base r = sel r :=
    fun r hr => (selectedLane_eq row cut hr).trans (congrFun hsel r)
  have hcount : ∀ n, (List.range' base n).countP (selectedLane row cut (emitted row topk value cut base).tiesTaken base) =
      (List.range' base n).countP sel := by
    intro n
    apply List.countP_congr
    intro r hr
    rw [hlane r (List.mem_range'_1.mp hr).1]
  have hcursor : (emitted row topk value cut base).cursor = (List.range base).countP sel := by
    rw [← hsel]
    rfl
  have hpos : ∀ r ∈ List.range' base blockR, sel r = true →
      (List.range base).countP sel + (List.range' base (r - base + 1)).countP sel - 1 = (List.range r).countP sel := by
    intro r hr hs
    rw [countP_prefix_tile sel (List.mem_range'_1.mp hr).1, countP_range_succ, if_pos hs, Nat.add_sub_cancel]
  have hstores : (((List.range' base blockR).filter fun r =>
        selectedLane row cut (emitted row topk value cut base).tiesTaken base r &&
          decide ((List.range base).countP sel + (List.range' base (r - base + 1)).countP sel - 1 < topk)).map fun r =>
        ((List.range base).countP sel + (List.range' base (r - base + 1)).countP sel - 1, value r)) =
      takenStores row.visible topk (taken row.key cut.threshold cut.remaining) value (List.range' base blockR) := by
    unfold takenStores
    rw [hsel]
    have hfilter : ((List.range' base blockR).filter fun r =>
        selectedLane row cut (emitted row topk value cut base).tiesTaken base r &&
          decide ((List.range base).countP sel + (List.range' base (r - base + 1)).countP sel - 1 < topk)) =
        (List.range' base blockR).filter fun r => sel r && decide ((List.range r).countP sel < topk) := by
      apply List.filter_congr
      intro r hr
      rw [hlane r (List.mem_range'_1.mp hr).1]
      by_cases hs : sel r = true
      · rw [hpos r hr hs]
      · rw [Bool.not_eq_true] at hs
        rw [hs, Bool.false_and, Bool.false_and]
    rw [hfilter]
    apply List.map_congr_left
    intro r hr
    obtain ⟨hmem, hs⟩ := List.mem_filter.mp hr
    rw [hpos r hmem (Bool.and_eq_true_iff.mp hs).1]
  have hrange : List.range (base + blockR) = List.range base ++ List.range' base blockR := by
    rw [List.range_eq_range', List.range_eq_range', ← List.range'_append_1, Nat.zero_add]
  unfold emitTile
  dsimp only
  simp only [hcount, hcursor, hstores]
  unfold emitted
  congr 1
  · rw [hsel]
    exact countP_range_tile _ _ _
  · exact countP_range_tile _ _ _
  · rw [hrange, takenStores_append]

theorem foldl_emitTile (n : Nat) :
    ((List.range n).map fun i => 0 + i * blockR).foldl (emitTile row topk blockR value cut) ⟨0, 0, []⟩ =
      emitted row topk value cut (n * blockR) := by
  induction n with
  | zero => simp [emitted, takenStores]
  | succ n ih =>
    rw [List.range_succ, List.map_append, List.foldl_append, ih, List.map_singleton, List.foldl_cons, List.foldl_nil,
      Nat.zero_add, emitTile_emitted, Nat.succ_mul]

end

/-- What a selector leaves in `out`. -/
def Stored {α : Type} (row : ScoreRow) (topk : Nat) (value : Nat → α) (pad : α) (out : Nat → α) : Prop :=
  ∃ sel, Picks row topk sel ∧ ∀ slot < topk, out slot = (sel[slot]?.map value).getD pad

section
variable {α : Type} {row : ScoreRow} {topk blockR : Nat} {value : Nat → α} {pad : α} {mem : Nat → α}

theorem picks_of_visible_zero (hv : row.visible = 0) : Picks row topk [] :=
  ⟨fun h => absurd hv h.ne', fun _ => rfl⟩

theorem scatter_pads (slot : Nat) (hslot : slot < topk) :
    scatter mem ((List.range topk).map fun slot => (slot, pad)) slot = pad := by
  apply scatter_eq_of_agree
  · intro w hw _
    obtain ⟨s, -, rfl⟩ := List.mem_map.mp hw
    rfl
  · exact .inr ⟨(slot, pad), List.mem_map.mpr ⟨slot, List.mem_range.mpr hslot, rfl⟩, rfl⟩

theorem regionTopkTiled_stored (htopk : 0 < topk) (hb : 0 < blockR) :
    Stored row topk value pad (regionTopkTiled row topk blockR value pad mem) := by
  unfold regionTopkTiled
  by_cases hv : row.visible = 0
  · rw [if_pos hv]
    exact ⟨[], picks_of_visible_zero hv, fun slot hslot => scatter_pads slot hslot⟩
  · rw [if_neg hv]
    obtain ⟨hcut, hrem⟩ := radixTopkThreshold_cuts row hb (show 0 < min topk row.visible by omega) (Nat.min_le_right _ _)
    dsimp only
    generalize radixTopkThreshold row blockR (min topk row.visible) = cut at hcut hrem
    -- the signed key at the cut
    obtain ⟨t, ht⟩ : ∃ t : Int, (cut.threshold : Int) = t + 2 ^ 31 := ⟨cut.threshold - 2 ^ 31, by omega⟩
    have hshift : StrictMono fun z : Int => z + 2 ^ 31 := fun a b h => by
      dsimp only
      omega
    have hlt : ∀ r, cut.threshold < row.key r ↔ t < row.signedKey r := by
      intro r
      have := row.key_eq r
      omega
    have hle : ∀ r, cut.threshold ≤ row.key r ↔ t ≤ row.signedKey r := by
      intro r
      have := row.key_eq r
      omega
    have hcut' : Cuts ((List.range row.visible).map row.signedKey) (min topk row.visible) t := by
      obtain ⟨h₁, h₂⟩ := hcut
      rw [List.countP_map] at h₁ h₂
      constructor
      · rw [List.countP_map]
        simpa only [Function.comp_def, hlt] using h₁
      · rw [List.countP_map]
        simpa only [Function.comp_def, hle] using h₂
    have htaken : taken row.key cut.threshold cut.remaining = taken row.signedKey t (min topk row.visible -
        (List.range row.visible).countP (t < row.signedKey ·)) := by
      have heq : ∀ r, row.key r = cut.threshold ↔ row.signedKey r = t := by
        intro r
        have := row.key_eq r
        omega
      funext r
      simp only [taken, hlt, heq, hrem]
    have hlen : ((List.range row.visible).filter (taken row.signedKey t (min topk row.visible -
        (List.range row.visible).countP (t < row.signedKey ·)))).length = min topk row.visible := by
      rw [← List.countP_eq_length_filter]
      exact hcut'.countP_taken
    refine ⟨_, ⟨fun _ => ⟨t, hcut', rfl⟩, fun h => absurd h hv⟩, fun slot hslot => ?_⟩
    unfold strided
    rw [Nat.sub_zero, foldl_emitTile]
    unfold emitted
    dsimp only
    have hn : row.visible ≤ cdiv row.seqRegions blockR * blockR := (visible_le row).trans (le_cdiv_mul _ hb)
    rw [htaken, scatter_takenStores value _ hn (by omega), scatter_pads slot hslot]

end

/-! ## The register-resident kernels -/

section
variable (row : ScoreRow) (t : Int)

def greaterLane (r : Nat) : Bool := decide (r < row.visible) && decide (t < row.signedKey r)

def sameLane (r : Nat) : Bool := decide (r < row.visible) && decide (row.signedKey r = t)

theorem packedPrefix_eq (r : Nat) :
    packedPrefix row t r = (List.range (r + 1)).countP (greaterLane row t) + (List.range (r + 1)).countP (sameLane row t) * 2 ^ 16 := by
  have hlanes : ∀ x, (decide (x < row.visible) && decide (t < if x < row.visible then row.signedKey x else -2147483648)) =
      greaterLane row t x ∧ (decide (x < row.visible) &&
        decide ((if x < row.visible then row.signedKey x else -2147483648) = t)) = sameLane row t x := by
    intro x
    by_cases hx : x < row.visible
    · simp [greaterLane, sameLane, hx]
    · simp [greaterLane, sameLane, hx]
  unfold packedPrefix
  simp only [(hlanes _).1, (hlanes _).2]
  induction r + 1 with
  | zero => simp
  | succ n ih =>
    rw [List.range_succ, List.map_append, List.sum_append, ih, List.countP_append, List.countP_append,
      List.countP_singleton, List.countP_singleton, List.map_singleton, List.sum_singleton]
    cases greaterLane row t n
    · cases sameLane row t n
      · simp
      · simp
        omega
    · cases sameLane row t n
      · simp
        omega
      · simp
        omega

variable {blockR : Nat}

theorem packedPrefix_halves (hb : blockR ≤ residentTopkMaxRegions) {r : Nat} (hr : r < blockR) :
    packedPrefix row t r &&& 0xFFFF = (List.range (r + 1)).countP (greaterLane row t) ∧
      packedPrefix row t r >>> 16 = (List.range (r + 1)).countP (sameLane row t) := by
  have hlen : (List.range (r + 1)).countP (greaterLane row t) ≤ r + 1 := by
    simpa using List.countP_le_length (l := List.range (r + 1)) (p := greaterLane row t)
  have hsmall : (List.range (r + 1)).countP (greaterLane row t) < 2 ^ 16 := by
    unfold residentTopkMaxRegions at hb
    omega
  have hmask := Nat.and_two_pow_sub_one_eq_mod (packedPrefix row t r) 16
  rw [Nat.shiftRight_eq_div_pow]
  refine ⟨hmask.trans ?_, ?_⟩
  · rw [packedPrefix_eq, Nat.add_mul_mod_self_right, Nat.mod_eq_of_lt hsmall]
  · rw [packedPrefix_eq, Nat.add_mul_div_right _ _ (by omega), Nat.div_eq_of_lt hsmall, Nat.zero_add]

variable {α : Type} (topk : Nat) (value : Nat → α) {budget : Nat}

theorem greaterLane_count {n : Nat} (hn : row.visible ≤ n) :
    (List.range n).countP (greaterLane row t) = (List.range row.visible).countP (t < row.signedKey ·) :=
  countP_range_lt hn _

/-- The number of lanes up to `r` that are taken, as the kernel counts it. -/
theorem taken_initial (remaining n : Nat) (hn : n ≤ row.visible) :
    (List.range n).countP (fun r => decide (r < row.visible) && taken row.signedKey t remaining r) =
      (List.range n).countP (greaterLane row t) + min remaining ((List.range n).countP (sameLane row t)) := by
  have hvis : ∀ r ∈ List.range n, r < row.visible := fun r hr => (List.mem_range.mp hr).trans_le hn
  have h₁ : (List.range n).countP (fun r => decide (r < row.visible) && taken row.signedKey t remaining r) =
      (List.range n).countP (taken row.signedKey t remaining) :=
    List.countP_congr fun r hr => by simp [hvis r hr]
  have h₂ : (List.range n).countP (greaterLane row t) = (List.range n).countP (t < row.signedKey ·) :=
    List.countP_congr fun r hr => by simp [greaterLane, hvis r hr]
  have h₃ : (List.range n).countP (sameLane row t) = (List.range n).countP (row.signedKey · = t) :=
    List.countP_congr fun r hr => by simp [sameLane, hvis r hr]
  rw [h₁, h₂, h₃, countP_taken]

theorem residentEmit_eq (hb : blockR ≤ residentTopkMaxRegions) (hpos : 0 < blockR) (hv : row.visible ≤ blockR) :
    residentEmit row topk blockR value t budget =
      takenStores row.visible topk (taken row.signedKey t (budget - (List.range row.visible).countP (t < row.signedKey ·)))
        value (List.range blockR) := by
  obtain ⟨remaining, hrem⟩ : ∃ n, budget - (List.range row.visible).countP (t < row.signedKey ·) = n := ⟨_, rfl⟩
  have hmax : ((List.range blockR).map fun r => packedPrefix row t r &&& 0xFFFF).foldr max 0 =
      (List.range row.visible).countP (t < row.signedKey ·) := by
    rw [← greaterLane_count row t hv]
    apply le_antisymm
    · apply foldr_max_le (Nat.zero_le _)
      intro x hx
      obtain ⟨r, hr, rfl⟩ := List.mem_map.mp hx
      rw [(packedPrefix_halves row t hb (List.mem_range.mp hr)).1]
      exact countP_range_mono _ (List.mem_range.mp hr)
    · apply le_foldr_max
      refine List.mem_map.mpr ⟨blockR - 1, List.mem_range.mpr (by omega), ?_⟩
      rw [(packedPrefix_halves row t hb (by omega)).1, Nat.sub_add_cancel hpos]
  have hlane : ∀ r < blockR, (greaterLane row t r || sameLane row t r && decide (packedPrefix row t r >>> 16 ≤ remaining)) =
      (decide (r < row.visible) && taken row.signedKey t remaining r) := by
    intro r hr
    rw [(packedPrefix_halves row t hb hr).2, countP_range_succ]
    by_cases hvr : r < row.visible
    · have hties : (List.range r).countP (sameLane row t) = (List.range r).countP (row.signedKey · = t) := by
        apply List.countP_congr
        intro x hx
        have : x < row.visible := (List.mem_range.mp hx).trans hvr
        simp [sameLane, this]
      rw [hties]
      by_cases hkey : row.signedKey r = t
      · simp [greaterLane, sameLane, taken, hvr, hkey, Nat.succ_le_iff]
      · simp [greaterLane, sameLane, taken, hvr, hkey]
    · simp [greaterLane, sameLane, hvr]
  have hposition : ∀ r < blockR, (decide (r < row.visible) && taken row.signedKey t remaining r) = true →
      (packedPrefix row t r &&& 0xFFFF) + min (packedPrefix row t r >>> 16) remaining - 1 =
        (List.range r).countP fun r => decide (r < row.visible) && taken row.signedKey t remaining r := by
    intro r hr hs
    have hvr : r < row.visible := of_decide_eq_true (Bool.and_eq_true_iff.mp hs).1
    have hstep := countP_range_succ (fun r => decide (r < row.visible) && taken row.signedKey t remaining r) r
    rw [taken_initial row t remaining (r + 1) hvr, if_pos hs] at hstep
    obtain ⟨h₁, h₂⟩ := packedPrefix_halves row t hb hr
    rw [h₁, h₂]
    omega
  have hkeys : ∀ r, (decide (r < row.visible) && decide (t < if r < row.visible then row.signedKey r else -2147483648)) =
      greaterLane row t r ∧ (decide (r < row.visible) &&
        decide ((if r < row.visible then row.signedKey r else -2147483648) = t)) = sameLane row t r := by
    intro r
    by_cases hr : r < row.visible
    · simp [greaterLane, sameLane, hr]
    · simp [greaterLane, sameLane, hr]
  unfold residentEmit takenStores
  simp only [(hkeys _).1, (hkeys _).2, hmax, hrem]
  have hfilter : ((List.range blockR).filter fun r =>
      (greaterLane row t r || sameLane row t r && decide (packedPrefix row t r >>> 16 ≤ remaining)) &&
        decide ((packedPrefix row t r &&& 0xFFFF) + min (packedPrefix row t r >>> 16) remaining - 1 < topk)) =
      (List.range blockR).filter fun r => (decide (r < row.visible) && taken row.signedKey t remaining r) &&
        decide ((List.range r).countP (fun r => decide (r < row.visible) && taken row.signedKey t remaining r) < topk) := by
    apply List.filter_congr
    intro r hr
    rw [hlane r (List.mem_range.mp hr)]
    by_cases hs : (decide (r < row.visible) && taken row.signedKey t remaining r) = true
    · rw [hposition r (List.mem_range.mp hr) hs]
    · rw [Bool.not_eq_true] at hs
      rw [hs, Bool.false_and, Bool.false_and]
  rw [hfilter]
  apply List.map_congr_left
  intro r hr
  obtain ⟨hmem, hs⟩ := List.mem_filter.mp hr
  rw [hposition r (List.mem_range.mp hmem) (Bool.and_eq_true_iff.mp hs).1]

end

section
variable {α : Type} {row : ScoreRow} {topk blockR : Nat} {value : Nat → α} {pad : α} {mem : Nat → α}

theorem scatter_padStores {slot : Nat} (hslot : slot < topk) (hend : min topk row.visible ≤ slot) :
    scatter mem (padStores row topk pad) slot = pad := by
  apply scatter_eq_of_agree
  · intro w hw _
    obtain ⟨s, -, rfl⟩ := List.mem_map.mp hw
    rfl
  · exact .inr ⟨(slot, pad), List.mem_map.mpr ⟨slot, List.mem_filter.mpr ⟨List.mem_range.mpr hslot, by simpa using hend⟩, rfl⟩,
      rfl⟩

theorem stored_of_scatter (mem : Nat → α) {out : Nat → α} {sel : List Nat} (h : Picks row topk sel)
    (hout : ∀ slot, out slot = (sel[slot]?.map value).getD (scatter mem (padStores row topk pad) slot)) :
    Stored row topk value pad out := by
  refine ⟨sel, h, fun slot hslot => ?_⟩
  rw [hout]
  by_cases hlt : slot < sel.length
  · rw [List.getElem?_eq_getElem hlt]
    rfl
  · rw [List.getElem?_eq_none (Nat.le_of_not_lt hlt)]
    rw [h.length] at hlt
    exact scatter_padStores hslot (Nat.le_of_not_lt hlt)

theorem stored_empty (hv : row.visible = 0) : Stored row topk value pad (scatter mem (padStores row topk pad)) :=
  stored_of_scatter mem (picks_of_visible_zero hv) fun _ => rfl

theorem residentEmit_stored (hb : blockR ≤ residentTopkMaxRegions) (hpos : 0 < blockR) (hv : row.visible ≤ blockR)
    (hv₀ : row.visible ≠ 0) (htopk : 0 < topk) (pivot : Pivot) :
    Stored row topk value pad (scatter (scatter mem (padStores row topk pad))
      (residentEmit row topk blockR value (residentThreshold row blockR pivot (min topk row.visible))
        (min topk row.visible))) := by
  have hcut := residentThreshold_cuts row hv pivot (show 0 < min topk row.visible by omega) (Nat.min_le_right _ _)
  have hpicks : Picks row topk _ := ⟨fun _ => ⟨_, hcut, rfl⟩, fun h => absurd h hv₀⟩
  refine stored_of_scatter mem hpicks fun slot => ?_
  rw [residentEmit_eq row _ topk value hb hpos hv]
  apply scatter_takenStores value _ hv
  rw [hpicks.length]
  exact Nat.min_le_left _ _

theorem picks_all (hv₀ : row.visible ≠ 0) (hv : row.visible ≤ topk) : Picks row topk (List.range row.visible) := by
  have hmin : min topk row.visible = row.visible := Nat.min_eq_right hv
  have hcut := residentThreshold_cuts row (le_refl row.visible) bisectPivot (show 0 < min topk row.visible by omega)
    (Nat.min_le_right _ _)
  refine ⟨fun _ => ⟨_, hcut, ?_⟩, fun h => absurd h hv₀⟩
  have hcount := hcut.countP_taken
  rw [hmin, List.countP_eq_length_filter] at hcount
  rw [hmin]
  refine (List.Sublist.eq_of_length List.filter_sublist ?_).symm
  rw [hcount, List.length_range]

/-- A row with few regions takes all of them. -/
theorem takeAll_stored (hle : row.visible ≤ blockR) (hv₀ : row.visible ≠ 0) (hv : row.visible ≤ topk) :
    Stored row topk value pad (scatter (scatter mem (padStores row topk pad))
      (((List.range blockR).filter fun r => decide (r < row.visible) && decide (r < topk)).map fun r => (r, value r))) := by
  refine stored_of_scatter mem (picks_all hv₀ hv) fun slot => ?_
  have hstores : (((List.range blockR).filter fun r => decide (r < row.visible) && decide (r < topk)).map
      fun r => (r, value r)) = (List.range row.visible).map fun r => (r, value r) := by
    rw [filter_range_lt hle, List.filter_eq_self.mpr]
    intro r hr
    simpa using (List.mem_range.mp hr).trans_le hv
  rw [hstores]
  have hcompact := scatter_compact (scatter mem (padStores row topk pad)) (fun _ => true) value row.visible slot
  simpa using hcompact

end

/-! ## The selectors -/

theorem blockR_of_resident {n : Nat} (h : n ≤ residentTopkMaxRegions) :
    max 2 (nextPowerOf2 n) ≤ residentTopkMaxRegions ∧ n ≤ max 2 (nextPowerOf2 n) := by
  have hup : nextPowerOf2 n ≤ 2 ^ 14 := Nat.pow_le_pow_right (by omega) ((Nat.clog_le_iff_le_pow (by omega)).mpr h)
  have hdown : n ≤ nextPowerOf2 n := Nat.le_pow_clog (by omega) n
  unfold residentTopkMaxRegions
  omega

section
variable {row : ScoreRow} {topk blockR : Nat}

theorem regionTopkIdsResidentKernel_stored (htopk : 0 < topk) (hb : blockR ≤ residentTopkMaxRegions) (hpos : 0 < blockR)
    (hle : row.visible ≤ blockR) (mem : Nat → Int) :
    Stored row topk (fun r => (r : Int)) (-1) (regionTopkIdsResidentKernel row topk blockR mem) := by
  unfold regionTopkIdsResidentKernel
  dsimp only
  by_cases hv : row.visible = 0
  · rw [if_pos hv]
    exact stored_empty hv
  · rw [if_neg hv]
    exact residentEmit_stored hb hpos hle hv htopk bisectPivot

theorem regionTopkPackResidentKernel_stored (htopk : 0 < topk) (hb : blockR ≤ residentTopkMaxRegions) (hpos : 0 < blockR)
    (hle : row.visible ≤ blockR) (pack : Nat → BitVec 32) (guess : Bracket → Int) (mem : Nat → BitVec 32) :
    Stored row topk pack (-1#32) (regionTopkPackResidentKernel row topk blockR pack guess mem) := by
  unfold regionTopkPackResidentKernel
  dsimp only
  by_cases hv : row.visible = 0
  · rw [if_pos hv]
    exact stored_empty hv
  · rw [if_neg hv]
    by_cases hall : row.visible ≤ topk
    · rw [if_pos hall]
      exact takeAll_stored hle hv hall
    · rw [if_neg hall]
      exact residentEmit_stored hb hpos hle hv htopk (interpolatePivot guess)

end

section
variable (cfg : SelectorConfig) (row : ScoreRow) {topk : Nat} (htopk : 0 < topk)
include htopk

theorem regionTopkIds_stored (mem : Nat → Int) :
    Stored row topk (fun r => (r : Int)) (-1) (regionTopkIds cfg row topk mem) := by
  unfold regionTopkIds
  by_cases hn : row.seqRegions ≤ residentTopkMaxRegions
  · obtain ⟨hb, hle⟩ := blockR_of_resident hn
    rw [if_pos hn]
    exact regionTopkIdsResidentKernel_stored htopk hb (by omega) ((visible_le row).trans hle) mem
  · rw [if_neg hn]
    exact regionTopkTiled_stored htopk (by omega)

theorem regionTopkPack_stored (pack : Nat → BitVec 32) (mem : Nat → BitVec 32) :
    Stored row topk pack (-1#32) (regionTopkPack cfg row topk pack mem) := by
  unfold regionTopkPack
  by_cases hn : (cfg.optionalCustomOpEnabled && decide (row.seqRegions ≤ residentTopkMaxRegions)) = true
  · obtain ⟨hb, hle⟩ := blockR_of_resident (of_decide_eq_true (Bool.and_eq_true_iff.mp hn).2)
    rw [if_pos hn]
    exact regionTopkPackResidentKernel_stored htopk hb (by omega) ((visible_le row).trans hle) pack cfg.guess mem
  · rw [if_neg hn]
    exact regionTopkTiled_stored htopk (by omega)

end

end VllmHcu.Sparse
