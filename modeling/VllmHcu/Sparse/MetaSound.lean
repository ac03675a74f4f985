import VllmHcu.Lib.RowMajor
import VllmHcu.Sparse.Meta
import VllmHcu.Sparse.SelectSound
import VllmHcu.Lib.Loops

/-!
# Prefill and decode metadata name the same keys

Both words of a region decode to the same tokens: those of the region up to the
query, at its physical place. Both rows hold the selected regions and then the
region of the query, so the kernels admit the same list of tokens, however the
slots are cut into tiles and splits.
-/

namespace VllmHcu.Sparse

/-! ## Words -/

theorem packed_toNat {w k a b : Nat} (ha : a < 2 ^ k) (hb : b * 2 ^ k + a < 2 ^ w) :
    (BitVec.ofNat w a ||| BitVec.ofNat w b <<< k).toNat = b * 2 ^ k + a := by
  have hb' : b * 2 ^ k < 2 ^ w := by omega
  have hpow : 0 < 2 ^ k := Nat.two_pow_pos k
  have hble : b ≤ b * 2 ^ k := Nat.le_mul_of_pos_right b hpow
  rw [BitVec.toNat_or, BitVec.toNat_shiftLeft, BitVec.toNat_ofNat, BitVec.toNat_ofNat, Nat.mod_eq_of_lt (show a < 2 ^ w by omega),
    Nat.mod_eq_of_lt (show b < 2 ^ w by omega), Nat.shiftLeft_eq, Nat.mod_eq_of_lt hb', Nat.or_comm, ← Nat.shiftLeft_eq,
    ← Nat.shiftLeft_add_eq_or_of_lt ha]

theorem packed_fields {w k a b : Nat} (ha : a < 2 ^ k) (hb : 2 * (b * 2 ^ k + a) < 2 ^ w) :
    (BitVec.ofNat w a ||| BitVec.ofNat w b <<< k).msb = false ∧
      ((BitVec.ofNat w a ||| BitVec.ofNat w b <<< k).sshiftRight k).toNat = b ∧
      (BitVec.ofNat w a ||| BitVec.ofNat w b <<< k).toNat % 2 ^ k = a := by
  have hnat := packed_toNat ha (show b * 2 ^ k + a < 2 ^ w by omega)
  have hmsb : (BitVec.ofNat w a ||| BitVec.ofNat w b <<< k).msb = false := by
    rw [BitVec.msb_eq_false_iff_two_mul_lt, hnat]
    exact hb
  refine ⟨hmsb, ?_, ?_⟩
  · rw [BitVec.toNat_sshiftRight_of_msb_false hmsb, hnat, Nat.shiftRight_eq_div_pow, Nat.add_comm,
      Nat.add_mul_div_right _ _ (Nat.two_pow_pos k), Nat.div_eq_of_lt ha, Nat.zero_add]
  · rw [hnat, Nat.add_comm, Nat.add_mul_mod_self_right, Nat.mod_eq_of_lt ha]

section
variable (g : Geometry) (table : Nat → Int)

/-- The physical place of a logical token. -/
def Geometry.physicalToken (token : Nat) : Nat :=
  (g.physical table (token / g.regionSize)).toNat * g.regionSize + token % g.regionSize

/-- The block table of one request: mapped pages are distinct and their regions fit in 24 bits. -/
structure TableOk : Prop where
  distinct : ∀ a b, 0 ≤ table a → table a = table b → a = b
  small : ∀ r, g.mapped table r = true → g.physical table r < 2 ^ 24

/-- The tokens of region `r` up to position `p`, when the page of the region is mapped. -/
def regionTokens (p r : Nat) : List Nat :=
  if g.mapped table r then slotTokens g true (g.validTokens p r) (g.physical table r).toNat else []

variable {g table}

theorem physical_nonneg {r : Nat} (h : g.mapped table r = true) : 0 ≤ g.physical table r := by
  have hpage : 0 ≤ table (r / g.regionsPerPage) := of_decide_eq_true h
  exact Int.add_nonneg (Int.mul_nonneg hpage (Int.natCast_nonneg _)) (Int.natCast_nonneg _)

theorem slotTokens_dead (valid : Int) (physical : Nat) : slotTokens g false valid physical = [] := by
  simp [slotTokens]

theorem slotTokens_live (valid : Int) (physical : Nat) :
    slotTokens g (decide (0 < valid)) valid physical = slotTokens g true valid physical := by
  by_cases h : 0 < valid
  · rw [decide_eq_true h]
  · unfold slotTokens
    congr 1
    apply List.filter_congr
    intro offset _
    have hoff : ¬ (offset : Int) < valid := by omega
    simp [hoff]

theorem prefillWord_unmapped (p : Nat) {r : Nat} (hm : ¬ g.mapped table r = true) : g.prefillWord table p r = -1#32 := by
  unfold Geometry.prefillWord
  rw [if_neg hm]

theorem prefillWord_fields (hsmall : ∀ r, g.mapped table r = true → g.physical table r < 2 ^ 24) (p : Nat) {r : Nat}
    (hm : g.mapped table r = true) :
    0 ≤ (g.prefillWord table p r).toInt ∧ ((g.prefillWord table p r).sshiftRight 24).toInt = g.validTokens p r ∧
      (g.prefillWord table p r &&& 0xFFFFFF#32).toNat = (g.physical table r).toNat := by
  obtain ⟨phys, hphys⟩ := Int.eq_ofNat_of_zero_le (physical_nonneg hm)
  have hvalid : 0 ≤ g.validTokens p r ∧ g.validTokens p r ≤ g.regionSize := by
    unfold Geometry.validTokens
    omega
  obtain ⟨valid, hv⟩ := Int.eq_ofNat_of_zero_le hvalid.1
  have hsmall := hsmall r hm
  have hsize := g.regionSize_lt
  have hword : g.prefillWord table p r = BitVec.ofNat 32 phys ||| BitVec.ofNat 32 valid <<< 24 := by
    unfold Geometry.prefillWord
    rw [if_pos hm, hphys, hv, BitVec.ofInt_natCast, BitVec.ofInt_natCast]
  obtain ⟨hmsb, hhigh, hlow⟩ := packed_fields (w := 32) (show phys < 2 ^ 24 by omega)
    (show 2 * (valid * 2 ^ 24 + phys) < 2 ^ 32 by omega)
  rw [← hword] at hmsb hhigh hlow
  refine ⟨?_, ?_, ?_⟩
  · rw [BitVec.toInt_eq_toNat_of_msb hmsb]
    exact Int.natCast_nonneg _
  · rw [BitVec.toInt_eq_toNat_cond, hhigh, if_pos (by omega), hv]
  · rw [BitVec.toNat_and, hphys, Int.toNat_natCast, ← hlow]
    exact Nat.and_two_pow_sub_one_eq_mod _ 24

theorem prefillWord_tokens (hsmall : ∀ r, g.mapped table r = true → g.physical table r < 2 ^ 24) (p r : Nat) :
    slotTokens g (decide (0 ≤ (g.prefillWord table p r).toInt) && decide (0 < ((g.prefillWord table p r).sshiftRight 24).toInt))
      ((g.prefillWord table p r).sshiftRight 24).toInt (g.prefillWord table p r &&& 0xFFFFFF#32).toNat =
      regionTokens g table p r := by
  unfold regionTokens
  by_cases hm : g.mapped table r = true
  · obtain ⟨hnonneg, hvalid, hmask⟩ := prefillWord_fields hsmall p hm
    rw [if_pos hm, hvalid, hmask, decide_eq_true hnonneg, Bool.true_and, slotTokens_live]
  · rw [if_neg hm, prefillWord_unmapped p hm]
    exact slotTokens_dead _ _

theorem decodeWord_tokens (ht : TableOk g table) {p r : Nat} (hr : r * g.regionSize < 2 ^ 31) (hm : g.mapped table r = true) :
    let word := g.decodeWord table r
    let valid := min (max ((p : Int) + 1 - (word &&& 0xFFFFFFFF#64).toInt) 0) g.regionSize
    let safePhysical := if decide (0 < valid) then word.sshiftRight 32 &&& 0xFFFFFFFF#64 else 0#64
    slotTokens g (decide (0 < valid)) valid safePhysical.toNat = regionTokens g table p r := by
  intro word valid safePhysical
  obtain ⟨phys, hphys⟩ := Int.eq_ofNat_of_zero_le (physical_nonneg hm)
  have hsmall := ht.small r hm
  have hword : word = BitVec.ofNat 64 (r * g.regionSize) ||| BitVec.ofNat 64 phys <<< 32 := by
    change g.decodeWord table r = _
    unfold Geometry.decodeWord
    rw [hphys, BitVec.ofInt_natCast, BitVec.ofInt_natCast]
  obtain ⟨hmsb, hhigh, hlow⟩ := packed_fields (w := 64) (show r * g.regionSize < 2 ^ 32 by omega)
    (show 2 * (phys * 2 ^ 32 + r * g.regionSize) < 2 ^ 64 by omega)
  rw [← hword] at hmsb hhigh hlow
  have hstart : (word &&& 0xFFFFFFFF#64).toInt = (r * g.regionSize : Nat) := by
    have hnat : (word &&& 0xFFFFFFFF#64).toNat = r * g.regionSize := by
      rw [BitVec.toNat_and, ← hlow]
      exact Nat.and_two_pow_sub_one_eq_mod _ 32
    rw [BitVec.toInt_eq_toNat_cond, hnat, if_pos (by omega)]
  have hphysical : (word.sshiftRight 32 &&& 0xFFFFFFFF#64).toNat = phys := by
    rw [BitVec.toNat_and, hhigh]
    refine (Nat.and_two_pow_sub_one_eq_mod phys 32).trans (Nat.mod_eq_of_lt (by omega))
  have hvalid : valid = g.validTokens p r := by
    change min (max ((p : Int) + 1 - (word &&& 0xFFFFFFFF#64).toInt) 0) (g.regionSize : Int) = _
    rw [hstart]
    rfl
  unfold regionTokens
  rw [if_pos hm, hphys, ← hvalid]
  by_cases hpos : 0 < valid
  · have hsafe : safePhysical = word.sshiftRight 32 &&& 0xFFFFFFFF#64 := by
      change (if decide (0 < valid) then _ else _) = _
      rw [decide_eq_true hpos, if_pos rfl]
    rw [hsafe, hphysical, decide_eq_true hpos]
    rfl
  · rw [← slotTokens_live valid, decide_eq_false hpos, slotTokens_dead, slotTokens_dead]

end

/-! ## Tiles and splits of the slots -/

section
variable {α : Type}

theorem flatMap_tiles (lo hi b : Nat) (f : Nat → List α) :
    ((strided lo hi b).flatMap fun base => (List.range' base b).flatMap f) =
      (List.range' lo (cdiv (hi - lo) b * b)).flatMap f := by
  rw [← flatMap_strided, List.flatMap_assoc]

theorem flatMap_range'_le {f : Nat → List α} {lo n m : Nat} (hnm : n ≤ m) (hf : ∀ s, lo + n ≤ s → f s = []) :
    (List.range' lo m).flatMap f = (List.range' lo n).flatMap f := by
  obtain ⟨k, rfl⟩ := Nat.exists_eq_add_of_le hnm
  rw [← List.range'_append_1, List.flatMap_append]
  have hnil : (List.range' (lo + n) k).flatMap f = [] := by
    rw [List.flatMap_eq_nil_iff]
    intro s hs
    exact hf s (List.mem_range'_1.mp hs).1
  rw [hnil, List.append_nil]

theorem flatMap_range_getElem? {β : Type} (F : β → List α) :
    ∀ (l : List β) (n : Nat), l.length ≤ n → ((List.range n).flatMap fun s => (l[s]?.map F).getD []) = l.flatMap F
  | [], n, _ => by simp
  | x :: l, 0, h => by simp at h
  | x :: l, n + 1, h => by
    rw [List.range_succ_eq_map, List.flatMap_cons, List.flatMap_map, List.flatMap_cons,
      ← flatMap_range_getElem? F l n (Nat.le_of_succ_le_succ h)]
    rfl

theorem filter_range_getElem? (P : Nat → Bool) :
    ∀ (l : List Nat) (n : Nat), l.length ≤ n →
      ((List.range n).filter fun s => (l[s]?.map P).getD false).map (fun s => l[s]?.getD 0) = l.filter P
  | [], n, _ => by simp
  | x :: l, 0, h => by simp at h
  | x :: l, n + 1, h => by
    have ih := filter_range_getElem? P l n (Nat.le_of_succ_le_succ h)
    rw [List.range_succ_eq_map, List.filter_cons, List.filter_map, List.filter_cons]
    by_cases hx : P x = true
    · simpa [hx, Function.comp_def] using ih
    · simpa [hx, Function.comp_def] using ih

end

/-! ## The prefill row -/

section
variable {g : Geometry} {table : Nat → Int} {topk p : Nat} {sel : List Nat}

/-- The region of the query comes after the regions that may be selected. -/
structure Selection (g : Geometry) (topk p : Nat) (sel : List Nat) : Prop where
  increasing : sel.Pairwise (· < ·)
  past : ∀ r ∈ sel, r < p / g.regionSize
  length_le : sel.length ≤ min (p / g.regionSize) topk

theorem currentRegion_eq (p n : Nat) : (max ((p : Int) / n) 0).toNat = p / n := by
  rw [← Int.natCast_ediv, max_eq_left (Int.natCast_nonneg _), Int.toNat_natCast]

theorem appendCurrentRegion_count (history mem : Nat → BitVec 32) :
    (appendCurrentRegionKernel g table topk p history mem).2 = min (p / g.regionSize) topk + 1 := by
  unfold appendCurrentRegionKernel
  simp only [currentRegion_eq]

theorem appendCurrentRegion_word (history mem : Nat → BitVec 32) {slot : Nat} (hslot : slot ≤ min (p / g.regionSize) topk) :
    (appendCurrentRegionKernel g table topk p history mem).1 slot =
      if slot = min (p / g.regionSize) topk then g.prefillWord table p (p / g.regionSize) else history slot := by
  unfold appendCurrentRegionKernel
  simp only [currentRegion_eq]
  by_cases heq : slot = min (p / g.regionSize) topk
  · rw [if_pos heq, heq, Function.update_self]
  · rw [if_neg heq, Function.update_of_ne heq]
    have hwidth : topk + 1 ≤ nextPowerOf2 (topk + 1) := Nat.le_pow_clog (by omega) _
    apply scatter_eq_of_agree
    · intro w hw hs
      obtain ⟨s, -, rfl⟩ := List.mem_map.mp hw
      dsimp only at hs ⊢
      rw [if_pos (by omega), hs]
    · refine .inr ⟨_, List.mem_map.mpr ⟨slot, List.mem_filter.mpr ⟨List.mem_range.mpr (by omega), ?_⟩, rfl⟩, rfl⟩
      simp only [Bool.and_eq_true, decide_eq_true_eq, bne_iff_ne]
      exact ⟨by omega, heq⟩

/-- The prefill kernel admits the tokens of the selected regions and of the region of the query. -/
theorem prefill_tokens (hsmall : ∀ r, g.mapped table r = true → g.physical table r < 2 ^ 24) (hsel : Selection g topk p sel) {history : Nat → BitVec 32}
    (hhist : ∀ slot < topk, history slot = (sel[slot]?.map (g.prefillWord table p)).getD (-1#32)) (mem : Nat → BitVec 32)
    {blockR : Nat} (hb : 0 < blockR) :
    sparseAttnPrefillTokens g (topk + 1) blockR (appendCurrentRegionKernel g table topk p history mem).1
      (appendCurrentRegionKernel g table topk p history mem).2 =
      (sel ++ [p / g.regionSize]).flatMap (regionTokens g table p) := by
  obtain ⟨count, hcount⟩ : ∃ count, min (p / g.regionSize) topk = count := ⟨_, rfl⟩
  have hlen := hsel.length_le
  have hword : ∀ slot ≤ count, (appendCurrentRegionKernel g table topk p history mem).1 slot =
      if slot = count then g.prefillWord table p (p / g.regionSize) else history slot := by
    intro slot hslot
    rw [appendCurrentRegion_word history mem (by omega), hcount]
  rw [appendCurrentRegion_count, hcount]
  unfold sparseAttnPrefillTokens
  dsimp only
  rw [flatMap_tiles, Nat.sub_zero, flatMap_range'_le (n := count + 1) ((by omega : count + 1 ≤ topk + 1).trans (le_cdiv_mul _ hb))
    (fun s hs => by rw [decide_eq_false (by omega)]; exact slotTokens_dead _ _), ← List.range_eq_range', List.range_succ,
    List.flatMap_append, List.flatMap_append]
  congr 1
  · rw [← flatMap_range_getElem? _ sel count (by omega)]
    apply List.flatMap_congr
    intro slot hslot
    have hlt := List.mem_range.mp hslot
    rw [decide_eq_true (by omega), Bool.true_and, if_pos rfl, hword slot hlt.le, if_neg hlt.ne, hhist slot (by omega)]
    cases sel[slot]? with
    | none => exact slotTokens_dead _ _
    | some r => exact prefillWord_tokens hsmall p r
  · rw [List.flatMap_singleton, List.flatMap_singleton, decide_eq_true (by omega), Bool.true_and, if_pos rfl,
      hword count le_rfl, if_pos rfl]
    exact prefillWord_tokens hsmall p _

end

/-! ## The decode row -/

section
variable {g : Geometry} {table : Nat → Int} {topk p : Nat} {sel : List Nat}

theorem validRegions_eq (hfits : p + g.regionSize < 2 ^ 31) : g.validRegions ((p : Int) + 1) = (p / g.regionSize : Nat) + 1 := by
  have hsum : int32 (int32 ((p : Int) + 1 + g.regionSize) - 1) = (p + g.regionSize : Nat) := by
    unfold int32
    rw [Int.bmod_sub_bmod, Int.bmod_eq_of_le (by omega) (by omega)]
    omega
  unfold Geometry.validRegions
  rw [hsum, ← Int.ofNat_tdiv, Nat.add_div_right p g.regionSize_pos]
  rfl

/-- A slot survives when it holds a selected region whose page is mapped. -/
theorem liveSlot_eq (hsel : Selection g topk p sel) (hfits : p + g.regionSize < 2 ^ 31) {ids : Nat → Int}
    (hids : ∀ slot < topk, ids slot = (sel[slot]?.map fun r : Nat => (r : Int)).getD (-1)) (slot : Nat) :
    liveSlot g table topk ((p : Int) + 1) ids slot = (sel[slot]?.map (g.mapped table)).getD false := by
  have hlen := hsel.length_le
  unfold liveSlot
  dsimp only
  by_cases hslot : slot < topk
  · rw [if_pos hslot, hids slot hslot, validRegions_eq hfits]
    cases hr : sel[slot]? with
    | none => simp
    | some r =>
      have hpast := hsel.past r (List.mem_of_getElem? hr)
      simp [hslot]
      intro _
      omega
  · rw [List.getElem?_eq_none (by omega)]
    simp [hslot]

/-- The regions that decode names, in the order of the words. -/
def survivors (g : Geometry) (table : Nat → Int) (p : Nat) (sel : List Nat) : List Nat :=
  (sel ++ [p / g.regionSize]).filter (g.mapped table)

theorem survivors_eq : survivors g table p sel =
    sel.filter (g.mapped table) ++ if g.mapped table (p / g.regionSize) then [p / g.regionSize] else [] := by
  unfold survivors
  rw [List.filter_append, List.filter_singleton]
  cases g.mapped table (p / g.regionSize) <;> rfl

theorem decodePack_words (hsel : Selection g topk p sel) (hfits : p + g.regionSize < 2 ^ 31) {ids : Nat → Int}
    (hids : ∀ slot < topk, ids slot = (sel[slot]?.map fun r : Nat => (r : Int)).getD (-1)) (mem : Nat → BitVec 64) :
    (decodePackKernel g table topk ((p : Int) + 1) ids mem).2 = (survivors g table p sel).length ∧
      ∀ slot < (survivors g table p sel).length, (decodePackKernel g table topk ((p : Int) + 1) ids mem).1 slot =
        (((survivors g table p sel)[slot]?).map (g.decodeWord table)).getD 0#64 := by
  have hlen := hsel.length_le
  have hwidth : topk + 1 ≤ nextPowerOf2 (topk + 1) := Nat.le_pow_clog (by omega) _
  have hlive : liveSlot g table topk ((p : Int) + 1) ids = fun slot => (sel[slot]?.map (g.mapped table)).getD false :=
    funext (liveSlot_eq hsel hfits hids)
  have hkept := filter_range_getElem? (g.mapped table) sel (nextPowerOf2 (topk + 1)) (by omega)
  rw [← hlive] at hkept
  have hcount : (List.range (nextPowerOf2 (topk + 1))).countP (liveSlot g table topk ((p : Int) + 1) ids) =
      (sel.filter (g.mapped table)).length := by
    rw [← hkept, List.length_map, List.countP_eq_length_filter]
  have hcurrent : (max (((p : Int) + 1 - 1).tdiv g.regionSize) 0).toNat = p / g.regionSize := by
    rw [Int.add_sub_cancel, ← Int.ofNat_tdiv, max_eq_left (Int.natCast_nonneg _), Int.toNat_natCast]
  have hcurrentLive : (decide (((p / g.regionSize : Nat) : Int) < g.validRegions ((p : Int) + 1)) &&
      g.mapped table (p / g.regionSize)) = g.mapped table (p / g.regionSize) := by
    rw [validRegions_eq hfits, decide_eq_true (by omega), Bool.true_and]
  -- the words that the scatter stores
  have hvalue : ∀ slot ∈ (List.range (nextPowerOf2 (topk + 1))).filter (liveSlot g table topk ((p : Int) + 1) ids),
      (ids slot).toNat = sel[slot]?.getD 0 := by
    intro slot hslot
    have hl := (List.mem_filter.mp hslot).2
    rw [hlive] at hl
    cases hr : sel[slot]? with
    | none => simp [hr] at hl
    | some r =>
      have hlt := (List.getElem?_eq_some_iff.mp hr).1
      rw [hids slot (by omega), hr]
      rfl
  have hpositions : ((List.range (nextPowerOf2 (topk + 1))).filter (liveSlot g table topk ((p : Int) + 1) ids)).map
        (fun s => ((List.range (s + 1)).countP (liveSlot g table topk ((p : Int) + 1) ids) - 1, g.decodeWord table (ids s).toNat)) =
      ((List.range (nextPowerOf2 (topk + 1))).filter (liveSlot g table topk ((p : Int) + 1) ids)).map
        fun s => ((List.range s).countP (liveSlot g table topk ((p : Int) + 1) ids), g.decodeWord table (sel[s]?.getD 0)) := by
    apply List.map_congr_left
    intro s hs
    rw [hvalue s hs, countP_range_succ, if_pos (List.mem_filter.mp hs).2, Nat.add_sub_cancel]
  have hscatter : ∀ slot, scatter mem (((List.range (nextPowerOf2 (topk + 1))).filter
      (liveSlot g table topk ((p : Int) + 1) ids)).map fun s =>
        ((List.range s).countP (liveSlot g table topk ((p : Int) + 1) ids), g.decodeWord table (sel[s]?.getD 0))) slot =
      (((sel.filter (g.mapped table))[slot]?).map (g.decodeWord table)).getD (mem slot) := by
    intro slot
    rw [scatter_compact mem _ (fun s => g.decodeWord table (sel[s]?.getD 0)), ← hkept, List.getElem?_map, Option.map_map]
    rfl
  unfold decodePackKernel
  simp only [hcount, hcurrent, hcurrentLive, hpositions]
  constructor
  · rw [survivors_eq, List.length_append]
    cases g.mapped table (p / g.regionSize) <;> rfl
  · intro slot hslot
    rw [survivors_eq] at hslot ⊢
    by_cases heq : slot = (sel.filter (g.mapped table)).length
    · subst heq
      rw [Function.update_self, List.getElem?_append_right le_rfl, Nat.sub_self]
      cases hm : g.mapped table (p / g.regionSize)
      · simp [hm] at hslot
      · rfl
    · have hlt : slot < (sel.filter (g.mapped table)).length := by
        rw [List.length_append] at hslot
        have hone : (if g.mapped table (p / g.regionSize) then [p / g.regionSize] else []).length ≤ 1 := by
          split
          · exact le_rfl
          · exact Nat.zero_le _
        omega
      rw [Function.update_of_ne heq, scatter_of_not_mem, hscatter, List.getElem?_append_left hlt,
        List.getElem?_eq_getElem hlt]
      · rfl
      · intro hmem
        simp only [List.map_map, List.mem_map, List.mem_filter, Function.comp_apply, Bool.and_eq_true,
          decide_eq_true_eq] at hmem
        obtain ⟨s, ⟨-, hs, -⟩, rfl⟩ := hmem
        exact absurd hs (Nat.not_lt.mpr hlt.le)

theorem survivors_length_le (table : Nat → Int) (hsel : Selection g topk p sel) : (survivors g table p sel).length ≤ topk + 1 := by
  have hlen := hsel.length_le
  have hfilter := List.length_filter_le (g.mapped table) (sel ++ [p / g.regionSize])
  rw [List.length_append, List.length_singleton] at hfilter
  unfold survivors
  omega

/-- The splits of the decode kernel together admit what the surviving words name. -/
theorem decode_tokens (ht : TableOk g table) (hsel : Selection g topk p sel) (hfits : p + g.regionSize < 2 ^ 31)
    {packed : Nat → BitVec 64} (hpacked : ∀ slot < (survivors g table p sel).length,
      packed slot = (((survivors g table p sel)[slot]?).map (g.decodeWord table)).getD 0#64)
    {blockR numSplits : Nat} (hb : 0 < blockR) (hsplits : 0 < numSplits) :
    sparseAttentionDecodeTokens g (topk + 1) blockR numSplits ((p : Int) + 1) packed (survivors g table p sel).length =
      (sel ++ [p / g.regionSize]).flatMap (regionTokens g table p) := by
  obtain ⟨l, hl⟩ : ∃ l, survivors g table p sel = l := ⟨_, rfl⟩
  obtain ⟨w, hw⟩ : ∃ w, cdiv (topk + 1) numSplits = w := ⟨_, rfl⟩
  have hlen := survivors_length_le table hsel
  have hcover : topk + 1 ≤ numSplits * w := by
    rw [Nat.mul_comm, ← hw]
    exact le_cdiv_mul _ hsplits
  rw [hl] at hpacked hlen ⊢
  let F : Nat → List Nat := fun slot => (l[slot]?.map (regionTokens g table p)).getD []
  have hsplit : ∀ split, sparseAttnDecodeTokens g (topk + 1) blockR w ((p : Int) + 1) packed l.length split =
      (List.range' (split * w) w).flatMap F := by
    intro split
    unfold sparseAttnDecodeTokens
    dsimp only
    rw [flatMap_tiles, Nat.add_sub_cancel_left, flatMap_range'_le (le_cdiv_mul w hb)]
    · apply List.flatMap_congr
      intro slot hslot
      have hend := (List.mem_range'_1.mp hslot).2
      by_cases hlt : slot < l.length
      · rw [decide_eq_true hlt, decide_eq_true (show slot < topk + 1 by omega), decide_eq_true hend, hpacked slot hlt]
        simp only [F, List.getElem?_eq_getElem hlt, Bool.and_self, Bool.true_and, if_true, Option.map_some, Option.getD_some]
        have hmem : l[slot] ∈ survivors g table p sel := hl ▸ List.getElem_mem hlt
        obtain ⟨hmem, hm⟩ := List.mem_filter.mp hmem
        apply decodeWord_tokens ht _ hm
        have hle : l[slot] ≤ p / g.regionSize := by
          rcases List.mem_append.mp hmem with h | h
          · exact (hsel.past _ h).le
          · exact (List.mem_singleton.mp h).le
        have := (Nat.mul_le_mul_right g.regionSize hle).trans (Nat.div_mul_le_self p _)
        omega
      · rw [decide_eq_false hlt]
        simp only [F, List.getElem?_eq_none (Nat.le_of_not_lt hlt), Bool.false_and]
        exact slotTokens_dead _ _
    · intro slot hslot
      rw [decide_eq_false (show ¬ slot < split * w + w by omega), Bool.and_false, Bool.false_and]
      exact slotTokens_dead _ _
  unfold sparseAttentionDecodeTokens
  rw [hw]
  have hcat : (List.range numSplits).flatMap (sparseAttnDecodeTokens g (topk + 1) blockR w ((p : Int) + 1) packed l.length) =
      (List.range (numSplits * w)).flatMap F := by
    rw [List.range_eq_range' (n := numSplits * w), ← flatMap_range' 0 w numSplits, List.flatMap_assoc]
    apply List.flatMap_congr
    intro split _
    rw [hsplit, Nat.zero_add]
  rw [hcat, flatMap_range_getElem? _ l _ (by omega), ← hl]
  apply flatMap_filter_of_nil
  intro r _ hr
  unfold regionTokens
  rw [hr]
  rfl

end


/-! ## What the tokens are -/

section
variable {g : Geometry} {table : Nat → Int} {p : Nat}

theorem physical_inj (ht : TableOk g table) {r r' : Nat} (hr : g.mapped table r = true) (hr' : g.mapped table r' = true)
    (h : g.physical table r = g.physical table r') : r = r' := by
  have hpage : 0 ≤ table (r / g.regionsPerPage) := of_decide_eq_true hr
  have hpage' : 0 ≤ table (r' / g.regionsPerPage) := of_decide_eq_true hr'
  obtain ⟨a, ha⟩ := Int.eq_ofNat_of_zero_le hpage
  obtain ⟨b, hb⟩ := Int.eq_ofNat_of_zero_le hpage'
  have hlt := Nat.mod_lt r g.regionsPerPage_pos
  have hlt' := Nat.mod_lt r' g.regionsPerPage_pos
  have hnat : a * g.regionsPerPage + r % g.regionsPerPage = b * g.regionsPerPage + r' % g.regionsPerPage := by
    unfold Geometry.physical at h
    rw [ha, hb] at h
    exact_mod_cast h
  have hab : a = b := (block_div hlt).symm.trans ((congrArg (· / g.regionsPerPage) hnat).trans (block_div hlt'))
  have hmod : r % g.regionsPerPage = r' % g.regionsPerPage :=
    (block_mod hlt).symm.trans ((congrArg (· % g.regionsPerPage) hnat).trans (block_mod hlt'))
  have hdiv : r / g.regionsPerPage = r' / g.regionsPerPage := ht.distinct _ _ hpage (by rw [ha, hb, hab])
  rw [← Nat.div_add_mod r g.regionsPerPage, hdiv, hmod, Nat.div_add_mod]

theorem physicalToken_inj (ht : TableOk g table) {t t' : Nat} (h : g.mapped table (t / g.regionSize) = true)
    (h' : g.mapped table (t' / g.regionSize) = true) (heq : g.physicalToken table t = g.physicalToken table t') : t = t' := by
  have hlt := Nat.mod_lt t g.regionSize_pos
  have hlt' := Nat.mod_lt t' g.regionSize_pos
  unfold Geometry.physicalToken at heq
  have hdiv := congrArg (· / g.regionSize) heq
  have hmod := congrArg (· % g.regionSize) heq
  simp only [block_div hlt, block_div hlt', block_mod hlt, block_mod hlt'] at hdiv hmod
  have hregion : t / g.regionSize = t' / g.regionSize := by
    apply physical_inj ht h h'
    have := physical_nonneg h
    have := physical_nonneg h'
    omega
  rw [← Nat.div_add_mod t g.regionSize, hregion, hmod, Nat.div_add_mod]

theorem mem_regionTokens {r x : Nat} : x ∈ regionTokens g table p r ↔
    g.mapped table r = true ∧ ∃ t ≤ p, t / g.regionSize = r ∧ x = g.physicalToken table t := by
  have hpos := g.regionSize_pos
  unfold regionTokens slotTokens Geometry.validTokens
  by_cases hm : g.mapped table r = true
  · simp only [hm, if_true, List.mem_map, List.mem_filter, List.mem_range, Bool.true_and, decide_eq_true_eq, true_and]
    constructor
    · rintro ⟨offset, ⟨hlt, hvalid⟩, rfl⟩
      refine ⟨r * g.regionSize + offset, by omega, block_div hlt, ?_⟩
      unfold Geometry.physicalToken
      rw [block_div hlt, block_mod hlt]
    · rintro ⟨t, ht, rfl, rfl⟩
      have hdm := Nat.div_add_mod' t g.regionSize
      have hlt := Nat.mod_lt t hpos
      exact ⟨t % g.regionSize, ⟨hlt, by omega⟩, rfl⟩
  · simp [hm]

theorem regionTokens_nodup (r : Nat) : (regionTokens g table p r).Nodup := by
  unfold regionTokens slotTokens
  split
  · apply List.Nodup.map _ (List.nodup_range.filter _)
    intro a b hab
    dsimp only at hab
    omega
  · exact List.nodup_nil

/-- The two lists name the same keys, and these are the keys that the query may see. -/
structure NamesSameKeys (g : Geometry) (table : Nat → Int) (p : Nat) (prefill decode : List Nat) : Prop where
  same : prefill.Perm decode
  once : prefill.Nodup
  visible : ∀ x ∈ prefill, ∃ t ≤ p, g.mapped table (t / g.regionSize) = true ∧ x = g.physicalToken table t
  notAfter : ∀ t, g.mapped table (t / g.regionSize) = true → g.physicalToken table t ∈ prefill → t ≤ p
  own : g.mapped table (p / g.regionSize) = true → ∀ t ≤ p, t / g.regionSize = p / g.regionSize →
    prefill.count (g.physicalToken table t) = 1

theorem namesSameKeys_of_regions (ht : TableOk g table) {topk : Nat} {sel : List Nat} (hsel : Selection g topk p sel) :
    NamesSameKeys g table p ((sel ++ [p / g.regionSize]).flatMap (regionTokens g table p))
      ((sel ++ [p / g.regionSize]).flatMap (regionTokens g table p)) := by
  have hregions : (sel ++ [p / g.regionSize]).Pairwise (· < ·) := by
    refine List.pairwise_append.mpr ⟨hsel.increasing, List.pairwise_singleton _ _, fun r hr c hc => ?_⟩
    rw [List.mem_singleton.mp hc]
    exact hsel.past r hr
  have hnodup : ((sel ++ [p / g.regionSize]).flatMap (regionTokens g table p)).Nodup := by
    refine List.nodup_flatMap.mpr ⟨fun r _ => regionTokens_nodup r, hregions.imp fun hlt => ?_⟩
    intro x hx hx'
    obtain ⟨hm, t, -, rfl, rfl⟩ := mem_regionTokens.mp hx
    obtain ⟨hm', t', -, rfl, he⟩ := mem_regionTokens.mp hx'
    exact absurd (physicalToken_inj ht hm hm' he ▸ hlt) (Nat.lt_irrefl _)
  refine ⟨List.Perm.refl _, hnodup, fun x hx => ?_, fun t hm hx => ?_, fun hm t hle hr => ?_⟩
  · obtain ⟨r, -, hr⟩ := List.mem_flatMap.mp hx
    obtain ⟨hm, t, hle, rfl, he⟩ := mem_regionTokens.mp hr
    exact ⟨t, hle, hm, he⟩
  · obtain ⟨r, -, hr⟩ := List.mem_flatMap.mp hx
    obtain ⟨hm', t', hle, rfl, he⟩ := mem_regionTokens.mp hr
    exact physicalToken_inj ht hm hm' he ▸ hle
  · apply List.count_eq_one_of_mem hnodup
    refine List.mem_flatMap.mpr ⟨p / g.regionSize, by simp, mem_regionTokens.mpr ⟨hm, t, hle, hr, rfl⟩⟩

end

/-! ## A query in a prefill and in a decode batch -/

theorem flatten_replicate_range (k n : Nat) :
    (List.replicate k (List.range n)).flatten = (List.range (k * n)).map (· % n) := by
  induction k with
  | zero => simp
  | succ k ih =>
    rw [List.replicate_succ, List.flatten_cons, ih, Nat.succ_mul, Nat.add_comm (k * n), List.range_add, List.map_append,
      List.map_map]
    congr 1
    · conv_lhs => rw [← List.map_id (List.range n)]
      apply List.map_congr_left
      intro i hi
      exact (Nat.mod_eq_of_lt (List.mem_range.mp hi)).symm
    · apply List.map_congr_left
      intro i _
      rw [Function.comp_apply, Nat.add_mod_left]

section
variable {g : Geometry} {kvSeqlens : List Int} {groups group i : Nat}

/-- The default metadata of row `group * num_reqs + i` is that of request `i`. -/
theorem decodeRowsMeta_row {kv : Int} (hgroup : group < groups) (hkv : kvSeqlens[i]? = some kv) :
    ∃ m, decodeRowsMeta g kvSeqlens (groups * kvSeqlens.length) none = .ok m ∧
      m.1.getD (group * kvSeqlens.length + i) 0 = i ∧
      m.2.getD (group * kvSeqlens.length + i) 0 = max (kv - 1) 0 / g.regionSize := by
  have hi : i < kvSeqlens.length := (List.getElem?_eq_some_iff.mp hkv).1
  have hrow : group * kvSeqlens.length + i < groups * kvSeqlens.length := block_lt hgroup hi
  obtain ⟨requests, hrequests⟩ : ∃ requests,
      (List.replicate (groups * kvSeqlens.length / kvSeqlens.length) (List.range kvSeqlens.length)).flatten = requests :=
    ⟨_, rfl⟩
  have hrequest : requests[group * kvSeqlens.length + i]? = some i := by
    rw [← hrequests, Nat.mul_div_cancel _ (by omega), flatten_replicate_range, List.getElem?_map, List.getElem?_range hrow]
    exact congrArg some (block_mod hi)
  have hok : decodeRowsMeta g kvSeqlens (groups * kvSeqlens.length) none =
      .ok (requests, requests.map fun i => max (kvSeqlens.getD i 0 - 1) 0 / g.regionSize) := by
    unfold decodeRowsMeta
    dsimp only
    rw [if_neg (by omega), if_neg (by simp), Option.getD_none, hrequests]
  refine ⟨_, hok, ?_, ?_⟩
  · rw [List.getD_eq_getElem?_getD, hrequest, Option.getD_some]
  · rw [List.getD_eq_getElem?_getD, List.getElem?_map, hrequest]
    simp [List.getD_eq_getElem?_getD, hkv]

end

theorem selection_of_picks {g : Geometry} {topk p : Nat} {row : ScoreRow} {sel : List Nat} (h : Picks row topk sel)
    (hlen : row.length = ((p : Int) / g.regionSize)) : Selection g topk p sel := by
  have hvisible : row.visible ≤ p / g.regionSize := by
    unfold ScoreRow.visible
    rw [hlen, ← Int.natCast_ediv, max_eq_left (Int.natCast_nonneg _)]
    exact Int.toNat_le.mpr (min_le_left _ _)
  refine ⟨h.pairwise, fun r hr => (h.lt_visible hr).trans_le hvisible, ?_⟩
  rw [h.length]
  omega

section
variable (cfg cfg' : SelectorConfig) (g : Geometry) {topk blockP blockD numSplits : Nat} (seqRegions : Nat)
  (logits logits' : Nat → Nat → Score) (table : BlockTable) (qPositions : Nat → Int) (requestIndices : Option (Nat → Nat))
  (memHistory mem : Nat → Nat → BitVec 32) (memIds : Nat → Nat → Int) (mem' : Nat → Nat → BitVec 64)
  {kvSeqlens : List Int} {rowsMeta : Option (List Nat × List Int)} {groups group i p row : Nat}

/-- What the prefill kernel admits from a row of `prefill_sparse_meta`. -/
theorem prefillSparseMeta_tokens (htopk : 0 < topk) (hp : 0 < blockP) (hq : qPositions row = p)
    (hrequest : (requestIndices.getD fun _ => 0) row = i)
    (hsmall : ∀ r, g.mapped (table.row i) r = true → g.physical (table.row i) r < 2 ^ 24) :
    ∃ sel, Picks ⟨logits row, seqRegions, (p : Int) / g.regionSize⟩ topk sel ∧
      let prefill := prefillSparseMeta cfg g topk seqRegions logits table qPositions requestIndices memHistory mem row
      sparseAttnPrefillTokens g (topk + 1) blockP prefill.1 prefill.2 =
        (sel ++ [p / g.regionSize]).flatMap (regionTokens g (table.row i) p) := by
  obtain ⟨sel, hpicks, hwords⟩ := regionTopkPack_stored cfg ⟨logits row, seqRegions, (p : Int) / g.regionSize⟩ htopk
    (g.prefillWord (table.row i) p) (memHistory row)
  refine ⟨sel, hpicks, ?_⟩
  unfold prefillSparseMeta
  dsimp only
  rw [hrequest, hq]
  exact prefill_tokens hsmall (selection_of_picks hpicks rfl) hwords (mem row) hp

theorem decodeSparseMeta_row (hgroup : group < groups) (hkv : kvSeqlens[i]? = some ((p : Int) + 1))
    (hmeta : ∀ m ∈ rowsMeta, decodeRowsMeta g kvSeqlens (groups * kvSeqlens.length) none = .ok m) :
    ∃ rows, decodeSparseMeta cfg' g topk seqRegions logits' table (groups * kvSeqlens.length) kvSeqlens none rowsMeta memIds
        mem' = .ok rows ∧
      rows[group * kvSeqlens.length + i]? = some (decodePackKernel g (table.row i) topk ((p : Int) + 1)
        (regionTopkIds cfg' ⟨logits' (group * kvSeqlens.length + i), seqRegions, (p : Int) / g.regionSize⟩ topk
          (memIds (group * kvSeqlens.length + i))) (mem' (group * kvSeqlens.length + i))) := by
  have hi : i < kvSeqlens.length := (List.getElem?_eq_some_iff.mp hkv).1
  have hrow : group * kvSeqlens.length + i < groups * kvSeqlens.length := block_lt hgroup hi
  obtain ⟨m, hm, hreq, hhist⟩ := decodeRowsMeta_row (g := g) hgroup hkv
  have hlength : m.2.getD (group * kvSeqlens.length + i) 0 = (p : Int) / g.regionSize := by
    rw [hhist, Int.add_sub_cancel, max_eq_left (Int.natCast_nonneg p)]
  refine ⟨(List.range (groups * kvSeqlens.length)).map fun row => decodeSparseRow cfg' g topk seqRegions logits' table
    kvSeqlens (m.1.getD row 0) (m.2.getD row 0) (memIds row) (mem' row) row, ?_, ?_⟩
  · unfold decodeSparseMeta
    cases rowsMeta with
    | none =>
      rw [hm]
      rfl
    | some m' =>
      have hmm : m' = m := Except.ok.inj ((hmeta m' rfl).symm.trans hm)
      rw [hmm]
      rfl
  · rw [List.getElem?_map, List.getElem?_range hrow, Option.map_some, hreq, hlength]
    unfold decodeSparseRow
    rw [List.getD_eq_getElem?_getD, hkv]
    rfl

theorem sparse_meta_same_keys (htopk : 0 < topk) (hsplits : 0 < numSplits) (hp : 0 < blockP) (hd : 0 < blockD)
    (hgroup : group < groups) (hkv : kvSeqlens[i]? = some ((p : Int) + 1)) (hq : qPositions row = p)
    (hscores : logits row = logits' (group * kvSeqlens.length + i)) (hrequest : (requestIndices.getD fun _ => 0) row = i)
    (hmeta : ∀ m ∈ rowsMeta, decodeRowsMeta g kvSeqlens (groups * kvSeqlens.length) none = .ok m)
    (htable : TableOk g (table.row i)) (hfits : p + g.regionSize < 2 ^ 31) :
    ∃ rows packed count,
      decodeSparseMeta cfg' g topk seqRegions logits' table (groups * kvSeqlens.length) kvSeqlens none rowsMeta memIds mem' =
        .ok rows ∧
      rows[group * kvSeqlens.length + i]? = some (packed, count) ∧
      let prefill := prefillSparseMeta cfg g topk seqRegions logits table qPositions requestIndices memHistory mem row
      NamesSameKeys g (table.row i) p (sparseAttnPrefillTokens g (topk + 1) blockP prefill.1 prefill.2)
        (sparseAttentionDecodeTokens g (topk + 1) blockD numSplits ((p : Int) + 1) packed count) := by
  obtain ⟨sel, hpicks, htokens⟩ := prefillSparseMeta_tokens cfg g seqRegions logits table qPositions requestIndices memHistory mem
    htopk hp hq hrequest htable.small
  obtain ⟨rows, hrows, hrow⟩ := @decodeSparseMeta_row cfg' g topk seqRegions logits' table memIds mem' kvSeqlens rowsMeta
    groups group i p hgroup hkv hmeta
  -- both selectors run on the same scores
  rw [← hscores] at hrow
  obtain ⟨sel', hpicks', hids⟩ := regionTopkIds_stored cfg' ⟨logits row, seqRegions, (p : Int) / g.regionSize⟩ htopk
    (memIds (group * kvSeqlens.length + i))
  obtain rfl : sel = sel' := hpicks.unique hpicks'
  have hsel : Selection g topk p sel := selection_of_picks hpicks rfl
  obtain ⟨hcount, hpacked⟩ := @decodePack_words g (table.row i) topk p sel hsel hfits _ hids
    (mem' (group * kvSeqlens.length + i))
  generalize decodePackKernel g (table.row i) topk ((p : Int) + 1) _ _ = out at hrow hcount hpacked
  have hdecode := decode_tokens htable hsel hfits hpacked hd hsplits
  rw [← hcount] at hdecode
  refine ⟨rows, out.1, out.2, hrows, hrow, ?_⟩
  dsimp only at htokens ⊢
  rw [htokens, hdecode]
  exact namesSameKeys_of_regions htable hsel

end

/-- Three pages of two regions each, in reverse order. -/
def threePages : BlockTable := ⟨1, fun _ page => if page < 3 then 2 - page else -1⟩

theorem threePages_ok : TableOk ⟨8, 2, by decide, by decide, by decide⟩ (threePages.row 0) := by
  have hpage : ∀ page, threePages.row 0 page = if page < 3 then 2 - (page : Int) else -1 := fun _ => rfl
  constructor
  · intro a b ha hab
    rw [hpage] at ha
    rw [hpage, hpage] at hab
    split at ha
    · split at hab
      · omega
      · omega
    · omega
  · intro r _
    unfold Geometry.physical
    rw [hpage]
    dsimp only
    split
    · omega
    · omega

def zeroScore : Score := ⟨0#32, by decide⟩

def defaultConfig : SelectorConfig := ⟨true, 2048, by decide, fun _ => 0⟩

theorem sparse_meta_same_keys_token20 :
    ∃ rows packed count,
      decodeSparseMeta defaultConfig ⟨8, 2, by decide, by decide, by decide⟩ 1 4 (fun _ _ => zeroScore) threePages 1 [21] none
        none (fun _ _ => 0) (fun _ _ => 0#64) = .ok rows ∧
      rows[0]? = some (packed, count) ∧
      let prefill := prefillSparseMeta defaultConfig ⟨8, 2, by decide, by decide, by decide⟩ 1 4 (fun _ _ => zeroScore)
        threePages (fun _ => 20) none (fun _ _ => 0#32) (fun _ _ => 0#32) 0
      NamesSameKeys ⟨8, 2, by decide, by decide, by decide⟩ (threePages.row 0) 20
        (sparseAttnPrefillTokens ⟨8, 2, by decide, by decide, by decide⟩ 2 16 prefill.1 prefill.2)
        (sparseAttentionDecodeTokens ⟨8, 2, by decide, by decide, by decide⟩ 2 16 3 21 packed count) :=
  @sparse_meta_same_keys defaultConfig defaultConfig ⟨8, 2, by decide, by decide, by decide⟩ 1 16 16 3 4
    (fun _ _ => zeroScore) (fun _ _ => zeroScore) threePages (fun _ => 20) none (fun _ _ => 0#32) (fun _ _ => 0#32)
    (fun _ _ => 0) (fun _ _ => 0#64) [21] none 1 0 0 20 0 (by decide) (by decide) (by decide) (by decide) (by decide) rfl
    rfl rfl rfl (by simp) threePages_ok (by decide)

/-! ## The last positions of the int32 range -/

theorem decodePack_wrapped {g : Geometry} {table : Nat → Int} {topk : Nat} {kvSeqlen : Int} (hwrap : g.validRegions kvSeqlen ≤ 0)
    (ids : Nat → Int) (mem : Nat → BitVec 64) : (decodePackKernel g table topk kvSeqlen ids mem).2 = 0 := by
  have hlive : ∀ slot, liveSlot g table topk kvSeqlen ids slot = false := by
    intro slot
    unfold liveSlot
    dsimp only
    by_cases hneg : 0 ≤ if slot < topk then ids slot else -1
    · rw [decide_eq_false (show ¬ (if slot < topk then ids slot else -1) < g.validRegions kvSeqlen by omega), Bool.and_false,
        Bool.false_and]
    · rw [decide_eq_false hneg, Bool.and_false, Bool.false_and, Bool.false_and]
  have hcurrent : ∀ r : Nat, decide ((r : Int) < g.validRegions kvSeqlen) = false := by
    intro r
    apply decide_eq_false
    omega
  unfold decodePackKernel
  simp only [funext hlive, hcurrent, Bool.false_and]
  simp

theorem decodeTokens_zero (g : Geometry) (width blockR numSplits : Nat) (kvSeqlen : Int) (packed : Nat → BitVec 64) :
    sparseAttentionDecodeTokens g width blockR numSplits kvSeqlen packed 0 = [] := by
  simp [sparseAttentionDecodeTokens, sparseAttnDecodeTokens, slotTokens_dead]

/-- Only the page of the last region is mapped. -/
def lastPage : BlockTable := ⟨1, fun _ page => if page = 268435455 then 0 else -1⟩

theorem lastPage_ok : TableOk ⟨8, 1, by decide, by decide, by decide⟩ (lastPage.row 0) := by
  have hpage : ∀ page, lastPage.row 0 page = if page = 268435455 then 0 else -1 := fun _ => rfl
  constructor
  · intro a b ha hab
    rw [hpage] at ha
    rw [hpage, hpage] at hab
    split at ha
    · split at hab
      · omega
      · omega
    · omega
  · intro r _
    unfold Geometry.physical
    rw [hpage]
    dsimp only
    split
    · omega
    · omega

theorem sparse_meta_wraps :
    ∃ rows packed count,
      decodeSparseMeta defaultConfig ⟨8, 1, by decide, by decide, by decide⟩ 1 1 (fun _ _ => zeroScore) lastPage 1
        [2147483647] none none (fun _ _ => 0) (fun _ _ => 0#64) = .ok rows ∧
      rows[0]? = some (packed, count) ∧
      let prefill := prefillSparseMeta defaultConfig ⟨8, 1, by decide, by decide, by decide⟩ 1 1 (fun _ _ => zeroScore)
        lastPage (fun _ => 2147483646) none (fun _ _ => 0#32) (fun _ _ => 0#32) 0
      ¬ NamesSameKeys ⟨8, 1, by decide, by decide, by decide⟩ (lastPage.row 0) 2147483646
        (sparseAttnPrefillTokens ⟨8, 1, by decide, by decide, by decide⟩ 2 16 prefill.1 prefill.2)
        (sparseAttentionDecodeTokens ⟨8, 1, by decide, by decide, by decide⟩ 2 16 1 2147483647 packed count) := by
  obtain ⟨rows, hrows, hrow⟩ := @decodeSparseMeta_row defaultConfig ⟨8, 1, by decide, by decide, by decide⟩ 1 1
    (fun _ _ => zeroScore) lastPage (fun _ _ => 0) (fun _ _ => 0#64) [2147483647] none 1 0 0 2147483646 (by decide) rfl
    (by simp)
  generalize hout : decodePackKernel _ (lastPage.row 0) 1 _ _ _ = out at hrow
  have hcount : out.2 = 0 := hout ▸ decodePack_wrapped (by decide) _ _
  refine ⟨rows, out.1, out.2, hrows, hrow, ?_⟩
  obtain ⟨sel, -, htokens⟩ := @prefillSparseMeta_tokens defaultConfig ⟨8, 1, by decide, by decide, by decide⟩ 1 16 1
    (fun _ _ => zeroScore) lastPage (fun _ => 2147483646) none (fun _ _ => 0#32) (fun _ _ => 0#32) 0 2147483646 0 (by decide)
    (by decide) rfl rfl lastPage_ok.small
  intro prefill h
  have hempty := h.same
  rw [hcount, decodeTokens_zero, List.perm_nil] at hempty
  have hmem : 0 ∈ (sel ++ [268435455]).flatMap
      (regionTokens ⟨8, 1, by decide, by decide, by decide⟩ (lastPage.row 0) 2147483646) := by
    refine List.mem_flatMap.mpr ⟨268435455, by simp, mem_regionTokens.mpr ⟨by decide, 2147483640, by decide, by decide, ?_⟩⟩
    decide
  exact absurd (htokens ▸ hmem) (hempty ▸ List.not_mem_nil)

end VllmHcu.Sparse
