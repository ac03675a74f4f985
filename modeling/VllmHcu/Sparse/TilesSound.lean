import VllmHcu.Sparse.TileBoundsSound
import VllmHcu.Sparse.LogicalSound
import VllmHcu.Lib.Cut

/-!
# Tiled prefill keeps the selection of every row

A tile lists the regions that its rows selected in ascending order. A bit of the mask
says that its row selected the region of its slot, and all rows of a tile share one
block table, so the physical place that is listed is that of every row.
-/

namespace VllmHcu.Sparse

/-! ## The union of a tile -/

section
variable (m : PrefillRows) (bounds : List TileBound)

theorem mem_entries {e : Nat × Nat} : e ∈ m.entries ↔ e.1 < m.rows ∧ e.2 < m.slots ∧ m.live e.1 e.2 = true := by
  unfold PrefillRows.entries
  simp only [List.mem_map, List.mem_filter, List.mem_range]
  constructor
  · intro h
    obtain ⟨flat, ⟨hlt, hlive⟩, rfl⟩ := h
    have hpos : 0 < m.slots := Nat.pos_of_ne_zero fun h => by simp [h] at hlt
    exact ⟨(Nat.div_lt_iff_lt_mul hpos).mpr hlt, Nat.mod_lt _ hpos, hlive⟩
  · intro h
    obtain ⟨hrow, hslot, hlive⟩ := h
    refine ⟨e.1 * m.slots + e.2, ⟨block_lt hrow hslot, ?_⟩, ?_⟩
    · rw [block_div hslot, block_mod hslot]
      exact hlive
    · rw [block_div hslot, block_mod hslot]

/-- The entries come row by row, so their tiles are sorted. -/
theorem tileEntries_sorted (hrows : (bounds.flatMap fun t => List.range' t.start t.count) = List.range m.rows) :
    (tileEntries m bounds).Pairwise fun a b => a.tile ≤ b.tile := by
  unfold tileEntries PrefillRows.entries
  rw [List.pairwise_map, List.pairwise_map]
  have hsorted : (List.range (m.rows * m.slots)).Pairwise (· < ·) := List.pairwise_lt_range
  refine (hsorted.filter _).imp_of_mem ?_
  intro a b _ hb hab
  have hlt := List.mem_range.mp (List.mem_filter.mp hb).1
  have hpos : 0 < m.slots := Nat.pos_of_ne_zero fun h => by simp [h] at hlt
  exact tileOfRow_mono hrows (Nat.div_le_div_right hab.le) ((Nat.div_lt_iff_lt_mul hpos).mpr hlt)

/-- The regions that a tile lists. -/
def unionRegions (tile : Nat) : List Nat := (List.range m.numRegions).filter (present m bounds tile)

theorem mem_unionRegions {tile r : Nat} :
    r ∈ unionRegions m bounds tile ↔ ∃ e ∈ m.entries, tileOfRow bounds e.1 = tile ∧ m.region e = r := by
  have hpresent : present m bounds tile r = true ↔ ∃ e ∈ m.entries, tileOfRow bounds e.1 = tile ∧ m.region e = r := by
    simp [present]
  unfold unionRegions
  rw [List.mem_filter, List.mem_range, hpresent]
  refine ⟨fun h => h.2, fun h => ⟨?_, h⟩⟩
  obtain ⟨e, he, -, rfl⟩ := h
  have hle : m.region e + 1 ≤ m.numRegions := le_foldr_max (List.mem_map.mpr ⟨e, he, rfl⟩)
  exact hle

theorem slotOf_eq {tile r : Nat} (hr : r ∈ unionRegions m bounds tile) :
    slotOf m bounds tile r = (List.range r).countP (present m bounds tile) := by
  unfold slotOf
  rw [countP_range_succ, if_pos (List.mem_filter.mp hr).2, Nat.add_sub_cancel]

theorem unionLength_eq (tile : Nat) : unionLength m bounds tile = (unionRegions m bounds tile).length :=
  List.countP_eq_length_filter

/-- A listed region is found at its slot. -/
theorem slotOf_getElem? {tile r i : Nat} (hi : (unionRegions m bounds tile)[i]? = some r) : slotOf m bounds tile r = i := by
  have hr := List.mem_of_getElem? hi
  have hrank : ((unionRegions m bounds tile).map fun r => (List.range r).countP (present m bounds tile))[i]? =
      some ((List.range r).countP (present m bounds tile)) := by
    rw [List.getElem?_map, hi, Option.map_some]
  unfold unionRegions at hrank
  rw [map_rank] at hrank
  obtain ⟨_, hrank⟩ := List.getElem?_eq_some_iff.mp hrank
  rw [List.getElem_range] at hrank
  rw [slotOf_eq m bounds hr, ← hrank]

theorem getElem?_slotOf {tile r : Nat} (hr : r ∈ unionRegions m bounds tile) :
    (unionRegions m bounds tile)[slotOf m bounds tile r]? = some r := by
  obtain ⟨i, hi⟩ := List.getElem?_of_mem hr
  rw [slotOf_getElem? m bounds hi]
  exact hi

theorem tileLogical_eq (tile slot : Nat) :
    tileLogical m bounds tile slot = ((unionRegions m bounds tile)[slot]?).getD 0 := by
  have hstores : ((List.range m.numRegions).filter (present m bounds tile)).map (fun r => (slotOf m bounds tile r, r)) =
      ((List.range m.numRegions).filter (present m bounds tile)).map fun r =>
        ((List.range r).countP (present m bounds tile), r) := by
    apply List.map_congr_left
    intro r hr
    rw [slotOf_eq m bounds hr]
  have hcompact := scatter_compact (fun _ => 0) (present m bounds tile) (fun r => r) m.numRegions slot
  unfold tileLogical
  rw [hstores, hcompact, Option.map_id']
  rfl

theorem tilePhys_eq (tile slot : Nat) :
    tilePhys m bounds tile slot = (((unionRegions m bounds tile)[slot]?).map (physicalByLogical m bounds tile)).getD 0 := by
  have hstores : ((List.range m.numRegions).filter (present m bounds tile)).map (fun r =>
        (slotOf m bounds tile r, physicalByLogical m bounds tile r)) =
      ((List.range m.numRegions).filter (present m bounds tile)).map fun r =>
        ((List.range r).countP (present m bounds tile), physicalByLogical m bounds tile r) := by
    apply List.map_congr_left
    intro r hr
    rw [slotOf_eq m bounds hr]
  unfold tilePhys
  rw [hstores]
  exact scatter_compact (fun _ => 0) (present m bounds tile) (physicalByLogical m bounds tile) m.numRegions slot

/-! ## The rows of a tile -/

variable {m bounds} (hrows : (bounds.flatMap fun t => List.range' t.start t.count) = List.range m.rows)
include hrows

theorem rowRegions_subset {k q : Nat} {t : TileBound} (ht : bounds[k]? = some t) (hq : q < t.count) {r : Nat}
    (hr : r ∈ m.rowRegions (t.start + q)) : r ∈ unionRegions m bounds k := by
  obtain ⟨slot, hslot, hlive, rfl⟩ := mem_rowRegions.mp hr
  exact (mem_unionRegions m bounds).mpr ⟨_, (mem_entries m).mpr ⟨tile_row_lt hrows ht hq, hslot, hlive⟩,
    (tileOfRow_eq hrows ht hq).1, rfl⟩

/-- The entry of a bit names a listed region of the row of the bit. -/
theorem entry_iff {k q : Nat} {t : TileBound} (ht : bounds[k]? = some t) (hq : q < t.count) {r : Nat}
    (hr : r ∈ unionRegions m bounds k) :
    ((tileEntries m bounds).any fun e => e.tile == k && e.query == q && e.slot == slotOf m bounds k r) = true ↔
      r ∈ m.rowRegions (t.start + q) := by
  rw [tileEntries, List.any_map, List.any_eq_true]
  simp only [Function.comp_apply, Bool.and_eq_true, beq_iff_eq]
  constructor
  · intro h
    obtain ⟨e, he, ⟨htile, hquery⟩, hslot⟩ := h
    obtain ⟨hrow, hlt, hlive⟩ := (mem_entries m).mp he
    have hmem : m.region e ∈ unionRegions m bounds k := (mem_unionRegions m bounds).mpr ⟨e, he, htile, rfl⟩
    have hregion : m.region e = r := by
      have hget := getElem?_slotOf m bounds hmem
      rw [htile] at hslot
      rw [hslot, getElem?_slotOf m bounds hr] at hget
      exact (Option.some.inj hget).symm
    have heq : e.1 = t.start + q := (row_of_tile hrows hrow ht htile).2.2 hquery
    rw [← heq]
    exact mem_rowRegions.mpr ⟨e.2, hlt, hlive, hregion⟩
  · intro h
    obtain ⟨slot, hslot, hlive, hregion⟩ := mem_rowRegions.mp h
    obtain ⟨htile, hquery⟩ := tileOfRow_eq hrows ht hq
    refine ⟨(t.start + q, slot), (mem_entries m).mpr ⟨tile_row_lt hrows ht hq, hslot, hlive⟩, ⟨htile, hquery⟩, ?_⟩
    rw [htile, hregion]

/-- The masks of the tiles. -/
theorem prefillTileMasks_bit (blockQ budget : Nat) (mem : Nat → Nat → Nat → BitVec 32) :
    ∃ masks, prefillTileMasks m bounds blockQ budget mem = .ok masks ∧
      ∀ k t, bounds[k]? = some t → ∀ q < t.count, ∀ i r, (unionRegions m bounds k)[i]? = some r →
        (masks k (q / 32) i).getLsbD (q % 32) = decide (r ∈ m.rowRegions (t.start + q)) := by
  obtain ⟨masks, hmasks, hbit⟩ := @buildTileMasks_bit _ bounds.length (unionSize m bounds) blockQ budget
    (tileEntries_sorted m bounds hrows) mem
  refine ⟨masks, hmasks, fun k t ht q hq i r hi => ?_⟩
  have hr := List.mem_of_getElem? hi
  rw [hbit k (List.getElem?_eq_some_iff.mp ht).1, ← slotOf_getElem? m bounds hi, Bool.eq_iff_iff, decide_eq_true_eq]
  exact entry_iff hrows ht hq hr

/-- The place that a tile lists for a region of one of its rows is the place of the region in that row. -/
theorem physicalByLogical_eq {g : Geometry} {topk : Nat} {tableOf : Nat → Nat → Int} {positions : Nat → Nat}
    (hok : ∀ row < m.rows, ∃ sel, RowOk g (tableOf row) topk (positions row) sel m row) {k q : Nat} {t : TileBound}
    (ht : bounds[k]? = some t) (hq : q < t.count)
    (hsame : ∀ row, t.start ≤ row → row < t.start + t.count → tableOf row = tableOf (t.start + q)) {r : Nat}
    (hr : r ∈ m.rowRegions (t.start + q)) :
    physicalByLogical m bounds k r = (g.physical (tableOf (t.start + q)) r).toNat := by
  unfold physicalByLogical
  apply scatter_eq_of_agree
  · intro w hw hwr
    obtain ⟨e, he, rfl⟩ := List.mem_map.mp hw
    obtain ⟨he, htile⟩ := List.mem_filter.mp he
    obtain ⟨hrow, hslot, hlive⟩ := (mem_entries m).mp he
    obtain ⟨hlo, hhi, -⟩ := @row_of_tile _ _ hrows _ _ q _ hrow ht (beq_iff_eq.mp htile)
    obtain ⟨sel, h⟩ := hok e.1 hrow
    obtain ⟨r', -, -, hregion, hphysical⟩ := h.fields (h.slots ▸ hslot) hlive
    dsimp only at hwr ⊢
    rw [hphysical, hsame e.1 hlo hhi, ← hregion]
    exact congrArg (fun r => (g.physical (tableOf (t.start + q)) r).toNat) hwr
  · obtain ⟨slot, hslot, hlive, hregion⟩ := mem_rowRegions.mp hr
    refine .inr ⟨_, List.mem_map.mpr ⟨(t.start + q, slot), List.mem_filter.mpr ⟨(mem_entries m).mpr
      ⟨tile_row_lt hrows ht hq, hslot, hlive⟩, beq_iff_eq.mpr (tileOfRow_eq hrows ht hq).1⟩, rfl⟩, hregion⟩

end

/-! ## The tokens of a row -/

section
variable {g : Geometry}

/-- Inside the causal range a token position does not wrap around. -/
theorem tokenPos_eq (hdvd : g.regionSize ∣ 2 ^ 31) {p r offset : Nat} (hp : p < 2 ^ 31) (hr : r ≤ p / g.regionSize)
    (hoffset : offset < g.regionSize) :
    int32 (int32 (r * g.regionSize : Nat) + offset) = (r * g.regionSize + offset : Nat) := by
  obtain ⟨c, hc⟩ := hdvd
  have hle : r * g.regionSize ≤ p := (Nat.mul_le_mul_right _ hr).trans (Nat.div_mul_le_self p _)
  have hlt : r < c := by
    have hmul : r * g.regionSize < c * g.regionSize := by
      rw [Nat.mul_comm c]
      omega
    exact Nat.lt_of_mul_lt_mul_right hmul
  have hend : (r + 1) * g.regionSize ≤ c * g.regionSize := Nat.mul_le_mul_right _ hlt
  rw [Nat.succ_mul, Nat.mul_comm c] at hend
  have hinner : int32 (r * g.regionSize : Nat) = (r * g.regionSize : Nat) := by
    unfold int32
    exact Int.bmod_eq_of_le (by omega) (by omega)
  rw [hinner]
  unfold int32
  rw [Int.bmod_eq_of_le (by omega) (by omega)]
  omega

/-- The causal test keeps the tokens that the packed count exposes. -/
theorem causal_tokens (hdvd : g.regionSize ∣ 2 ^ 31) {table : Nat → Int} {p r : Nat} (hp : p < 2 ^ 31)
    (hr : r ≤ p / g.regionSize) (hm : g.mapped table r = true) :
    (((List.range g.regionSize).filter fun offset : Nat =>
        decide (int32 (int32 (r * g.regionSize : Nat) + offset) ≤ (p : Int))).map fun offset =>
      (g.physical table r).toNat * g.regionSize + offset) = regionTokens g table p r := by
  have hfilter : ((List.range g.regionSize).filter fun offset : Nat =>
        decide (int32 (int32 (r * g.regionSize : Nat) + offset) ≤ (p : Int))) =
      (List.range g.regionSize).filter fun offset : Nat => true && decide ((offset : Int) < g.validTokens p r) := by
    apply List.filter_congr
    intro offset hoffset
    have hlt := List.mem_range.mp hoffset
    rw [tokenPos_eq hdvd hp hr hlt, Bool.true_and, decide_eq_decide]
    unfold Geometry.validTokens
    omega
  unfold regionTokens slotTokens
  rw [if_pos hm, hfilter]

/-- A query keeps the tokens of the listed regions whose bit is set. -/
theorem tiledTokens_eq {blockR : Nat} (hb : 0 < blockR) {regions : List Nat} {phys logical : Nat → Nat}
    {words : Nat → Nat → BitVec 32} {position : Int} {query : Nat} {place : Nat → Nat} {selected : Nat → Bool}
    (h : ∀ i r, regions[i]? = some r →
      phys i = place r ∧ logical i = r ∧ (words (query / 32) i).getLsbD (query % 32) = selected r) :
    tiledTokens g blockR regions.length phys logical words true position query =
      (regions.filter selected).flatMap fun r => ((List.range g.regionSize).filter fun offset : Nat =>
        decide (int32 (int32 (r * g.regionSize : Nat) + offset) ≤ position)).map fun offset =>
          place r * g.regionSize + offset := by
  unfold tiledTokens
  dsimp only
  rw [flatMap_tiles, Nat.sub_zero, flatMap_range'_le (n := regions.length) (le_cdiv_mul _ hb), ← List.range_eq_range',
    ← flatMap_ite_filter, ← flatMap_range_getElem? _ regions _ le_rfl]
  · apply List.flatMap_congr
    intro slot hslot
    have hlt := List.mem_range.mp hslot
    obtain ⟨hphys, hlogical, hbit⟩ := h slot regions[slot] (List.getElem?_eq_getElem hlt)
    rw [List.getElem?_eq_getElem hlt, decide_eq_true hlt, if_pos rfl, if_pos rfl, Bool.and_self, if_pos rfl,
      selected_bit _ (Nat.mod_lt _ (by decide)), hphys, hlogical, hbit, Option.map_some, Option.getD_some]
    cases selected regions[slot] <;> simp
  · intro slot hslot
    rw [decide_eq_false (by omega)]
    simp

end

/-! ## The tiles of a batch -/

section
variable {m : PrefillRows} {bounds : List TileBound} (hrows : (bounds.flatMap fun t => List.range' t.start t.count) = List.range m.rows)
  {g : Geometry} {topk : Nat} (tableOf : Nat → Nat → Int) (positions : Nat → Nat)
include hrows

/-- A query of a tile keeps the tokens of the regions that its row selected. -/
theorem tiledTokens_perm (hdvd : g.regionSize ∣ 2 ^ 31) {blockR : Nat} (hb : 0 < blockR)
    (hok : ∀ row < m.rows, ∃ sel, RowOk g (tableOf row) topk (positions row) sel m row) {k q : Nat} {t : TileBound}
    (ht : bounds[k]? = some t) (hq : q < t.count)
    (hsame : ∀ row, t.start ≤ row → row < t.start + t.count → tableOf row = tableOf (t.start + q))
    (hfits : positions (t.start + q) < 2 ^ 31) {sel : List Nat}
    (hrow : RowOk g (tableOf (t.start + q)) topk (positions (t.start + q)) sel m (t.start + q)) {words : Nat → Nat → BitVec 32}
    (hwords : ∀ i r, (unionRegions m bounds k)[i]? = some r →
      (words (q / 32) i).getLsbD (q % 32) = decide (r ∈ m.rowRegions (t.start + q))) :
    (tiledTokens g blockR (unionLength m bounds k) (tilePhys m bounds k) (tileLogical m bounds k) words true
        (positions (t.start + q)) q).Perm
      ((sel ++ [positions (t.start + q) / g.regionSize]).flatMap
        (regionTokens g (tableOf (t.start + q)) (positions (t.start + q)))) := by
  have hlisted : ∀ i r, (unionRegions m bounds k)[i]? = some r → tilePhys m bounds k i = physicalByLogical m bounds k r ∧
      tileLogical m bounds k i = r ∧
      (words (q / 32) i).getLsbD (q % 32) = decide (r ∈ m.rowRegions (t.start + q)) := by
    intro i r hi
    refine ⟨?_, ?_, hwords i r hi⟩
    · rw [tilePhys_eq, hi, Option.map_some, Option.getD_some]
    · rw [tileLogical_eq, hi, Option.getD_some]
  have hregions := hrow.regions
  have hincreasing : (sel ++ [positions (t.start + q) / g.regionSize]).Pairwise (· < ·) := by
    rw [List.pairwise_append]
    refine ⟨hrow.selection.increasing, List.pairwise_singleton _ _, fun a ha b hb => ?_⟩
    rw [List.mem_singleton.mp hb]
    exact hrow.selection.past a ha
  have hnodup : (m.rowRegions (t.start + q)).Nodup := by
    rw [hregions]
    exact (hincreasing.imp fun h => h.ne).filter _
  have hperm : ((unionRegions m bounds k).filter fun r => decide (r ∈ m.rowRegions (t.start + q))).Perm
      (m.rowRegions (t.start + q)) := by
    refine (List.perm_ext_iff_of_nodup ((List.nodup_range.filter _).filter _) hnodup).mpr fun r => ?_
    rw [List.mem_filter, decide_eq_true_eq]
    exact ⟨fun h => h.2, fun h => ⟨rowRegions_subset hrows ht hq h, h⟩⟩
  rw [unionLength_eq, tiledTokens_eq hb hlisted]
  refine (hperm.flatMap_right _).trans (List.Perm.of_eq ?_)
  have htokens : ∀ r ∈ m.rowRegions (t.start + q),
      (((List.range g.regionSize).filter fun offset : Nat =>
          decide (int32 (int32 (r * g.regionSize : Nat) + offset) ≤ (positions (t.start + q) : Int))).map fun offset =>
        physicalByLogical m bounds k r * g.regionSize + offset) =
      regionTokens g (tableOf (t.start + q)) (positions (t.start + q)) r := by
    intro r hr
    rw [physicalByLogical_eq hrows hok ht hq hsame hr]
    rw [hregions] at hr
    obtain ⟨hmem, hm⟩ := List.mem_filter.mp hr
    apply causal_tokens hdvd hfits _ hm
    rcases List.mem_append.mp hmem with h | h
    · exact (hrow.selection.past r h).le
    · exact (List.mem_singleton.mp h).le
  rw [List.flatMap_congr htokens, hregions]
  apply flatMap_filter_of_nil
  intro r _ hr
  unfold regionTokens
  rw [if_neg (Bool.eq_false_iff.mp hr)]

end

/-- `q_ok` of a query of a tile -/
def tileQueryOk (totalQ : Nat) (t : TileBound) (query : Nat) : Bool :=
  let group := t.start / totalQ
  decide (query < t.count) && decide (t.start - group * totalQ + query < totalQ)

theorem tileQueryOk_of_ok {request : Nat → Int} {totalQ groups blockQ : Nat} {t : TileBound}
    (h : TileOk request totalQ groups blockQ t) {query : Nat} (hq : query < t.count) : tileQueryOk totalQ t query = true := by
  obtain ⟨group, -, hlo, hhi⟩ := h.group
  have hdiv : t.start / totalQ = group := Nat.div_eq_of_lt_le hlo (by rw [Nat.succ_mul]; omega)
  unfold tileQueryOk
  rw [hdiv]
  simp only [Bool.and_eq_true, decide_eq_true_eq]
  exact ⟨hq, by omega⟩

/-- Metadata of the right size is accepted. -/
theorem buildPrefillTiles_ok {m : PrefillRows} {qPositions requestIndices : List Nat} {totalQ groups blockQ budget e : Nat}
    {mem : Nat → Nat → Nat → BitVec 32} {bounds : List TileBound} (hm : m.rows = groups * totalQ) (hpos : 0 < m.rows)
    (hq : qPositions.length = m.rows) (hr : requestIndices.length = m.rows) (hpow : blockQ = 2 ^ e)
    (hbounds : buildTileBounds (fun row => (requestIndices.getD row 0 : Nat)) totalQ groups blockQ m.rows = bounds)
    (hrows : (bounds.flatMap fun t => List.range' t.start t.count) = List.range m.rows) {mask : Nat → Nat → Nat → BitVec 32}
    (hmask : prefillTileMasks m bounds blockQ budget mem = .ok mask) :
    buildPrefillTiles m qPositions requestIndices totalQ groups blockQ budget mem =
      .ok ⟨bounds, tilePhys m bounds, tileLogical m bounds, unionLength m bounds, mask⟩ := by
  have hpositions :
      (if qPositions.length = totalQ then (List.replicate groups qPositions).flatten else qPositions).length = m.rows := by
    by_cases hlen : qPositions.length = totalQ
    · rw [if_pos hlen, List.length_flatten, List.map_replicate, List.sum_replicate_nat, hlen, hm]
    · rw [if_neg hlen, hq]
  have hblock : ¬ (blockQ = 0 ∨ blockQ &&& (blockQ - 1) ≠ 0) := by
    rw [hpow, Nat.and_two_pow_sub_one_eq_mod, Nat.mod_self]
    have := Nat.two_pow_pos e
    omega
  have hne : bounds ≠ [] := by
    intro hnil
    rw [hnil, List.flatMap_nil] at hrows
    have hlen := congrArg List.length hrows
    rw [List.length_nil, List.length_range] at hlen
    omega
  have hsum : (bounds.map TileBound.count).sum = m.rows := by
    have hlen := congrArg List.length hrows
    rw [List.length_flatMap, List.length_range] at hlen
    simpa using hlen
  unfold buildPrefillTiles
  dsimp only
  rw [if_neg (not_not.mpr hm), if_neg (not_not.mpr hpositions), if_neg (not_not.mpr hr), if_neg hblock, if_neg hpos.ne', hbounds,
    if_neg hne, if_neg (not_not.mpr hsum), hmask]
  rfl

section
variable (cfg : SelectorConfig) (g : Geometry) {topk : Nat} (seqRegions : Nat) (logits : Nat → Nat → Score) (table : BlockTable)
  (qPositions requestIndices : List Nat) (memHistory mem : Nat → Nat → BitVec 32) (memHistoryIds memIds : Nat → Nat → Int)
  (budget : Nat) (memMask : Nat → Nat → Nat → BitVec 32)

theorem prefill_tiles_keep_selection {totalQ groups blockQ blockR blockP e : Nat} (htopk : 0 < topk)
    (hrowsPos : 0 < groups * totalQ) (hpositions : qPositions.length = groups * totalQ)
    (hrequests : requestIndices.length = groups * totalQ) (hpow : blockQ = 2 ^ e) (hblockQ : 32 ≤ blockQ)
    (hblockR : 0 < blockR) (hblockP : 0 < blockP) (hdvd : g.regionSize ∣ 2 ^ 31) (hfits : ∀ p ∈ qPositions, p < 2 ^ 31)
    (hsmall : ∀ i ∈ requestIndices, ∀ r, g.mapped (table.row i) r = true → g.physical (table.row i) r < 2 ^ 24) :
    let position := fun row => qPositions.getD row 0
    let request := fun row => requestIndices.getD row 0
    let prefill := prefillSparseMeta cfg g topk seqRegions logits table (fun row => position row) (some request) memHistory mem
    let m := prefillRows cfg g seqRegions logits table (fun row => position row) (some request) memHistory mem memHistoryIds
      memIds topk (groups * totalQ)
    ∃ tiles, buildPrefillTiles m qPositions requestIndices totalQ groups blockQ budget memMask = .ok tiles ∧
      tiles.bounds = hostTileBounds (fun row => request row) totalQ groups blockQ ∧
      tiles.bounds = deviceTileBounds (fun row => request row) totalQ blockQ (groups * totalQ) ∧
      (tiles.bounds.flatMap fun t => List.range' t.start t.count) = List.range (groups * totalQ) ∧
      (∀ t ∈ tiles.bounds, TileOk (fun row => request row) totalQ groups blockQ t) ∧
      ∀ k t, tiles.bounds[k]? = some t → ∀ query < t.count,
        (∀ slot < tiles.lengths k, (tiles.mask k (query / 32) slot).getLsbD (query % 32) = true ↔
          ∃ s < topk + 1, m.live (t.start + query) s = true ∧ m.logical (t.start + query) s = tiles.logical k slot) ∧
        (tiledTokens g blockR (tiles.lengths k) (tiles.phys k) (tiles.logical k) (tiles.mask k) (tileQueryOk totalQ t query)
            (position (t.start + query)) query).Perm
          (sparseAttnPrefillTokens g (topk + 1) blockP (prefill (t.start + query)).1 (prefill (t.start + query)).2) := by
  intro position request prefill m
  obtain ⟨bounds, hbounds⟩ : ∃ bounds,
      buildTileBounds (fun row => (request row : Nat)) totalQ groups blockQ (groups * totalQ) = bounds := ⟨_, rfl⟩
  have hpos : 0 < blockQ := by omega
  have hhost : bounds = hostTileBounds (fun row => request row) totalQ groups blockQ := by
    rw [← hbounds, buildTileBounds_eq]
  have hrows : (bounds.flatMap fun t => List.range' t.start t.count) = List.range (groups * totalQ) := by
    rw [hhost]
    exact hostTileBounds_rows hpos _ _ _
  have htiles : ∀ t ∈ bounds, TileOk (fun row => request row) totalQ groups blockQ t := by
    intro t ht
    rw [hhost] at ht
    exact hostTileBounds_ok hpos ht
  have hposition : ∀ row < groups * totalQ, position row < 2 ^ 31 := fun row hrow =>
    forall_getD hfits (hrow.trans_eq hpositions.symm)
  have hplace : ∀ row < groups * totalQ, ∀ r, g.mapped (table.row (request row)) r = true →
      g.physical (table.row (request row)) r < 2 ^ 24 := fun row hrow =>
    forall_getD hsmall (hrow.trans_eq hrequests.symm)
  have hok : ∀ row < groups * totalQ, ∃ sel, Picks ⟨logits row, seqRegions, (position row : Int) / g.regionSize⟩ topk sel ∧
      RowOk g (table.row (request row)) topk (position row) sel m row :=
    fun row hrow => prefillRows_ok cfg g seqRegions logits table _ _ memHistory mem memHistoryIds memIds htopk rfl rfl
      (hplace row hrow)
  obtain ⟨mask, hmask, hbit⟩ := prefillTileMasks_bit (m := m) hrows blockQ budget memMask
  refine ⟨_, buildPrefillTiles_ok rfl hrowsPos hpositions hrequests hpow hbounds hrows hmask, hhost,
    hhost.trans (tileBounds_eq _ _ _), hrows, htiles, fun k t ht query hq => ⟨fun slot hslot => ?_, ?_⟩⟩
  · dsimp only at hslot ⊢
    rw [unionLength_eq] at hslot
    have hget := List.getElem?_eq_getElem hslot
    rw [hbit k t ht query hq slot _ hget, decide_eq_true_eq, mem_rowRegions, tileLogical_eq, hget, Option.getD_some]
    refine exists_congr fun s => and_congr_right fun _ => and_congr_right fun hlive => ?_
    have hnonneg : 0 ≤ m.logical (t.start + query) s := of_decide_eq_true (Bool.and_eq_true_iff.mp hlive).1
    change (m.logical (t.start + query) s).toNat = _ ↔ m.logical (t.start + query) s = _
    omega
  · have hrow := tile_row_lt hrows ht hq
    have htile := htiles t (List.mem_of_getElem? ht)
    obtain ⟨sel, hpicks, hrowOk⟩ := hok _ hrow
    have hsame : ∀ row, t.start ≤ row → row < t.start + t.count →
        table.row (request row) = table.row (request (t.start + query)) := by
      intro row hlo hhi
      have h₁ := htile.request row hlo hhi
      have h₂ := htile.request (t.start + query) (Nat.le_add_right _ _) (by omega)
      rw [Int.ofNat.inj (h₁.trans h₂.symm)]
    obtain ⟨sel', hpicks', htokens⟩ := prefillSparseMeta_tokens cfg g seqRegions logits table (fun row => position row)
      (some request) memHistory mem htopk hblockP rfl rfl (hplace _ hrow)
    obtain rfl : sel = sel' := hpicks.unique hpicks'
    dsimp only at htokens
    rw [tileQueryOk_of_ok htile hq, htokens]
    exact tiledTokens_perm hrows (fun row => table.row (request row)) position hdvd hblockR
      (fun row hrow => (hok row hrow).imp fun _ h => h.2) ht hq hsame (hposition _ hrow) hrowOk (hbit k t ht query hq)

/-- Two groups of four rows, the last row of a group in a request of its own. -/
theorem prefill_tiles_keep_selection_eight :
    ∃ tiles, buildPrefillTiles (prefillRows defaultConfig ⟨8, 2, by decide, by decide, by decide⟩ 4 (fun _ _ => zeroScore)
        threePages (fun row => ([0, 8, 30, 9, 0, 8, 30, 9].getD row 0 : Nat)) (some fun row => [0, 0, 0, 1, 0, 0, 0, 1].getD row 0)
        (fun _ _ => 0#32) (fun _ _ => 0#32) (fun _ _ => 0) (fun _ _ => 0) 2 8) [0, 8, 30, 9, 0, 8, 30, 9] [0, 0, 0, 1, 0, 0, 0, 1]
        4 2 32 64 (fun _ _ _ => 0#32) = .ok tiles ∧
      tiles.bounds = [⟨0, 3⟩, ⟨3, 1⟩, ⟨4, 3⟩, ⟨7, 1⟩] := by
  obtain ⟨tiles, htiles, -, hbounds, -⟩ := @prefill_tiles_keep_selection defaultConfig ⟨8, 2, by decide, by decide, by decide⟩ 2 4
    (fun _ _ => zeroScore) threePages [0, 8, 30, 9, 0, 8, 30, 9] [0, 0, 0, 1, 0, 0, 0, 1] (fun _ _ => 0#32) (fun _ _ => 0#32)
    (fun _ _ => 0) (fun _ _ => 0) 64 (fun _ _ _ => 0#32) 4 2 32 16 16 5 (by decide) (by decide) rfl rfl rfl (by decide)
    (by decide) (by decide) (by decide) (by decide) (fun _ _ => threePages_ok.small)
  exact ⟨tiles, htiles, hbounds.trans (by decide)⟩

end

end VllmHcu.Sparse
