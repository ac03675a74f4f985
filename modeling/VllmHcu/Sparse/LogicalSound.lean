import VllmHcu.Sparse.Tiles
import VllmHcu.Sparse.MetaSound

/-!
# Logical ids of prefill

Beside the packed words of a row stand the logical ids of the same slots. A slot is
live when both are present, which they are exactly when the page of the region is
mapped.
-/

namespace VllmHcu.Sparse

theorem appendSlot_apply {α : Type} (topk count : Nat) (pad value : α) (history mem : Nat → α) {slot : Nat}
    (hslot : slot < topk + 1) :
    appendSlot topk count pad value history mem slot =
      if slot = count then value else if slot < topk then history slot else pad := by
  unfold appendSlot
  by_cases heq : slot = count
  · rw [if_pos heq, heq, Function.update_self]
  · rw [if_neg heq, Function.update_of_ne heq]
    have hwidth : topk + 1 ≤ nextPowerOf2 (topk + 1) := Nat.le_pow_clog (by omega) _
    apply scatter_eq_of_agree
    · intro w hw hs
      obtain ⟨s, -, rfl⟩ := List.mem_map.mp hw
      dsimp only at hs ⊢
      rw [hs]
    · refine .inr ⟨_, List.mem_map.mpr ⟨slot, List.mem_filter.mpr ⟨List.mem_range.mpr (by omega), ?_⟩, rfl⟩, rfl⟩
      simp only [Bool.and_eq_true, decide_eq_true_eq, bne_iff_ne]
      exact ⟨hslot, heq⟩

theorem appendCurrentRegion_eq (g : Geometry) (table : Nat → Int) (topk p : Nat) (history mem : Nat → BitVec 32) :
    (appendCurrentRegionKernel g table topk p history mem).1 =
      appendSlot topk (min (p / g.regionSize) topk) (-1#32) (g.prefillWord table p (p / g.regionSize)) history mem := by
  unfold appendCurrentRegionKernel appendSlot
  simp only [currentRegion_eq]

theorem regionTopkPackLogical_stored (cfg : SelectorConfig) (row : ScoreRow) {topk : Nat} (htopk : 0 < topk) (mem : Nat → Int) :
    Stored row topk (fun r => (r : Int)) (-1) (regionTopkPackLogical cfg row topk mem) := by
  unfold regionTopkPackLogical
  dsimp only
  by_cases hn : (cfg.optionalCustomOpEnabled && decide (row.seqRegions ≤ residentTopkMaxRegions)) = true
  · obtain ⟨hb, hle⟩ := blockR_of_resident (of_decide_eq_true (Bool.and_eq_true_iff.mp hn).2)
    rw [if_pos hn]
    by_cases hv : row.visible = 0
    · rw [if_pos hv]
      exact stored_empty hv
    · rw [if_neg hv]
      by_cases hall : row.visible ≤ topk
      · rw [if_pos hall]
        exact takeAll_stored ((visible_le row).trans hle) hv hall
      · rw [if_neg hall]
        exact residentEmit_stored hb (by omega) ((visible_le row).trans hle) hv htopk (interpolatePivot cfg.guess)
  · rw [if_neg hn]
    exact regionTopkTiled_stored htopk (by omega)

/-! ## A row of the metadata -/

/-- The regions that a row selected, slot by slot. -/
def PrefillRows.rowRegions (m : PrefillRows) (row : Nat) : List Nat :=
  ((List.range m.slots).filter (m.live row)).map fun slot => m.region (row, slot)

theorem mem_rowRegions {m : PrefillRows} {row r : Nat} :
    r ∈ m.rowRegions row ↔ ∃ slot < m.slots, m.live row slot = true ∧ m.region (row, slot) = r := by
  simp [PrefillRows.rowRegions, and_assoc]

/-- The region of a slot of the row of position `p`. -/
def slotRegion (regionSize topk p : Nat) (sel : List Nat) (slot : Nat) : Option Nat :=
  if slot = min (p / regionSize) topk then some (p / regionSize) else sel[slot]?

/-- Row `row` holds the regions `sel` and the region of position `p`. -/
structure RowOk (g : Geometry) (table : Nat → Int) (topk p : Nat) (sel : List Nat) (m : PrefillRows) (row : Nat) : Prop where
  slots : m.slots = topk + 1
  selection : Selection g topk p sel
  small : ∀ r, g.mapped table r = true → g.physical table r < 2 ^ 24
  packed : ∀ slot < topk + 1, m.packed row slot =
    ((slotRegion g.regionSize topk p sel slot).map (g.prefillWord table p)).getD (-1#32)
  logical : ∀ slot < topk + 1, ∀ r, slotRegion g.regionSize topk p sel slot = some r → g.mapped table r = true →
    m.logical row slot = r

section
variable {g : Geometry} {table : Nat → Int} {topk p : Nat} {sel : List Nat} {m : PrefillRows} {row : Nat}

theorem RowOk.live (h : RowOk g table topk p sel m row) {slot : Nat} (hslot : slot < topk + 1) :
    m.live row slot = ((slotRegion g.regionSize topk p sel slot).map (g.mapped table)).getD false := by
  have hpacked := h.packed slot hslot
  have hlogical := h.logical slot hslot
  unfold PrefillRows.live
  cases hr : slotRegion g.regionSize topk p sel slot with
  | none =>
    rw [hr] at hpacked
    rw [hpacked]
    simp
  | some r =>
    rw [hr, Option.map_some, Option.getD_some] at hpacked
    rw [Option.map_some, Option.getD_some, hpacked]
    by_cases hm : g.mapped table r = true
    · rw [hlogical r hr hm, hm, decide_eq_true (Int.natCast_nonneg r), decide_eq_true (prefillWord_fields h.small p hm).1]
      rfl
    · rw [prefillWord_unmapped p hm, Bool.eq_false_iff.mpr hm]
      simp

theorem RowOk.fields (h : RowOk g table topk p sel m row) {slot : Nat} (hslot : slot < topk + 1) (hlive : m.live row slot = true) :
    ∃ r, slotRegion g.regionSize topk p sel slot = some r ∧ g.mapped table r = true ∧ m.region (row, slot) = r ∧
      m.physical (row, slot) = (g.physical table r).toNat := by
  rw [h.live hslot] at hlive
  have hpacked := h.packed slot hslot
  have hlogical := h.logical slot hslot
  cases hr : slotRegion g.regionSize topk p sel slot with
  | none =>
    rw [hr] at hlive
    exact absurd hlive Bool.false_ne_true
  | some r =>
    rw [hr, Option.map_some, Option.getD_some] at hlive hpacked
    refine ⟨r, rfl, hlive, ?_, ?_⟩
    · unfold PrefillRows.region
      rw [hlogical r hr hlive, Int.toNat_natCast]
    · unfold PrefillRows.physical
      rw [hpacked]
      exact (prefillWord_fields h.small p hlive).2.2

/-- The live slots of a row hold the mapped regions of its selection. -/
theorem RowOk.regions (h : RowOk g table topk p sel m row) : m.rowRegions row = survivors g table p sel := by
  have hlen := h.selection.length_le
  obtain ⟨count, hcount⟩ : ∃ count, min (p / g.regionSize) topk = count := ⟨_, rfl⟩
  obtain ⟨rest, hrest⟩ : ∃ rest, topk + 1 = count + 1 + rest := ⟨topk - count, by omega⟩
  have hlive : (List.range m.slots).filter (m.live row) = (List.range (topk + 1)).filter fun slot =>
      ((slotRegion g.regionSize topk p sel slot).map (g.mapped table)).getD false := by
    rw [h.slots]
    apply List.filter_congr
    intro slot hslot
    exact h.live (List.mem_range.mp hslot)
  have hregion : m.rowRegions row = ((List.range (topk + 1)).filter fun slot =>
      ((slotRegion g.regionSize topk p sel slot).map (g.mapped table)).getD false).map fun slot =>
        (slotRegion g.regionSize topk p sel slot).getD 0 := by
    unfold PrefillRows.rowRegions
    rw [hlive]
    apply List.map_congr_left
    intro slot hslot
    obtain ⟨hmem, hlive'⟩ := List.mem_filter.mp hslot
    rw [← h.live (List.mem_range.mp hmem)] at hlive'
    obtain ⟨r, hr, -, hr', -⟩ := h.fields (List.mem_range.mp hmem) hlive'
    rw [hr', hr, Option.getD_some]
  have hbefore : ∀ slot < count, slotRegion g.regionSize topk p sel slot = sel[slot]? := by
    intro slot hslot
    unfold slotRegion
    rw [hcount, if_neg hslot.ne]
  have hcurrent : slotRegion g.regionSize topk p sel count = some (p / g.regionSize) := by
    unfold slotRegion
    rw [hcount, if_pos rfl]
  have hafter : ∀ i < rest, ((slotRegion g.regionSize topk p sel (count + 1 + i)).map (g.mapped table)).getD false = false := by
    intro i _
    unfold slotRegion
    rw [hcount, if_neg (by omega), List.getElem?_eq_none (by omega)]
    rfl
  have hhistory : ((List.range count).filter fun slot =>
        ((slotRegion g.regionSize topk p sel slot).map (g.mapped table)).getD false).map (fun slot =>
          (slotRegion g.regionSize topk p sel slot).getD 0) = sel.filter (g.mapped table) := by
    rw [← filter_range_getElem? (g.mapped table) sel count (by omega)]
    have hfilter : ((List.range count).filter fun slot =>
          ((slotRegion g.regionSize topk p sel slot).map (g.mapped table)).getD false) =
        (List.range count).filter fun slot => (sel[slot]?.map (g.mapped table)).getD false := by
      apply List.filter_congr
      intro slot hslot
      rw [hbefore slot (List.mem_range.mp hslot)]
    rw [hfilter]
    apply List.map_congr_left
    intro slot hslot
    rw [hbefore slot (List.mem_range.mp (List.mem_filter.mp hslot).1)]
  rw [hregion, hrest, filter_range_add hafter, List.range_succ, List.filter_append, List.map_append, hhistory, survivors_eq,
    List.filter_singleton, hcurrent]
  simp only [Option.map_some, Option.getD_some]
  cases g.mapped table (p / g.regionSize)
  · rfl
  · simp [hcurrent]

end

/-! ## The metadata of prefill -/

section
variable (cfg : SelectorConfig) (g : Geometry) {topk : Nat} (seqRegions : Nat) (logits : Nat → Nat → Score) (table : BlockTable)
  (qPositions : Nat → Int) (requestIndices : Option (Nat → Nat)) (memHistory mem : Nat → Nat → BitVec 32)
  (memHistoryIds memIds : Nat → Nat → Int)

/-- The words and the logical ids of `rows` rows. -/
def prefillRows (topk rows : Nat) : PrefillRows where
  rows := rows
  slots := topk + 1
  logical := prefillLogicalIds cfg topk g seqRegions logits table qPositions requestIndices memHistoryIds memIds
  packed row := (prefillSparseMeta cfg g topk seqRegions logits table qPositions requestIndices memHistory mem row).1

theorem prefillRows_ok (htopk : 0 < topk) {rows row p i : Nat} (hq : qPositions row = p)
    (hrequest : (requestIndices.getD fun _ => 0) row = i)
    (hsmall : ∀ r, g.mapped (table.row i) r = true → g.physical (table.row i) r < 2 ^ 24) :
    ∃ sel, Picks ⟨logits row, seqRegions, (p : Int) / g.regionSize⟩ topk sel ∧
      RowOk g (table.row i) topk p sel
        (prefillRows cfg g seqRegions logits table qPositions requestIndices memHistory mem memHistoryIds memIds topk rows) row := by
  obtain ⟨sel, hpicks, hwords⟩ := regionTopkPack_stored cfg ⟨logits row, seqRegions, (p : Int) / g.regionSize⟩ htopk
    (g.prefillWord (table.row i) p) (memHistory row)
  obtain ⟨sel', hpicks', hids⟩ := regionTopkPackLogical_stored cfg ⟨logits row, seqRegions, (p : Int) / g.regionSize⟩ htopk
    (memHistoryIds row)
  obtain rfl : sel = sel' := hpicks.unique hpicks'
  have hsel : Selection g topk p sel := selection_of_picks hpicks rfl
  have hlen := hsel.length_le
  refine ⟨sel, hpicks, rfl, hsel, hsmall, fun slot hslot => ?_, fun slot hslot r hr hm => ?_⟩
  · change (prefillSparseMeta cfg g topk seqRegions logits table qPositions requestIndices memHistory mem row).1 slot = _
    unfold prefillSparseMeta slotRegion
    dsimp only
    rw [hrequest, hq, appendCurrentRegion_eq, appendSlot_apply _ _ _ _ _ _ hslot]
    by_cases heq : slot = min (p / g.regionSize) topk
    · rw [if_pos heq, if_pos heq]
      rfl
    · rw [if_neg heq, if_neg heq]
      by_cases hlt : slot < topk
      · rw [if_pos hlt, hwords slot hlt]
      · rw [if_neg hlt, List.getElem?_eq_none (by omega)]
        rfl
  · change prefillLogicalIds cfg topk g seqRegions logits table qPositions requestIndices memHistoryIds memIds row slot = _
    unfold prefillLogicalIds
    unfold slotRegion at hr
    rw [hrequest, hq, currentRegion_eq, appendSlot_apply _ _ _ _ _ _ hslot]
    by_cases heq : slot = min (p / g.regionSize) topk
    · rw [if_pos heq] at hr ⊢
      obtain rfl : p / g.regionSize = r := Option.some.inj hr
      rw [if_pos hm]
    · rw [if_neg heq] at hr ⊢
      have hlt : slot < topk := by
        have := (List.getElem?_eq_some_iff.mp hr).1
        omega
      rw [if_pos hlt, hids slot hlt, hr]
      rfl

end

end VllmHcu.Sparse
