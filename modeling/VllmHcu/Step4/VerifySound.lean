import VllmHcu.Lib.Prefix
import VllmHcu.Step4.UpdateSound

/-!
# The update of a verify step

A verify batch gives every row a fixed span of `nrm` regions in its buffer. The
packed vectors are read back at the rows and regions of the alive rows, and both
the unfused update and the kernel's programs, run in order, have the effect
`Updated` describes.
-/

namespace VllmHcu.Step4

open Step4PendingTable

theorem span_inj {a b i j n : Nat} (hi : i < n) (hj : j < n) (h : a * n + i = b * n + j) : a = b ∧ i = j := by
  have hn : 0 < n := by omega
  have hdiv := congrArg (· / n) h
  have hmod := congrArg (· % n) h
  simp only [Nat.mul_comm _ n, Nat.mul_add_div hn, Nat.div_eq_of_lt hi, Nat.div_eq_of_lt hj, Nat.add_zero] at hdiv
  simp only [Nat.mul_comm _ n, Nat.mul_add_mod, Nat.mod_eq_of_lt hi, Nat.mod_eq_of_lt hj] at hmod
  exact ⟨hdiv, hmod⟩

theorem span_div {a i n : Nat} (hi : i < n) : (a * n + i) / n = a := by
  have hn : 0 < n := by omega
  rw [Nat.mul_comm, Nat.mul_add_div hn, Nat.div_eq_of_lt hi, Nat.add_zero]

theorem span_mod {a i n : Nat} (hi : i < n) : (a * n + i) % n = i := by
  rw [Nat.mul_comm, Nat.mul_add_mod, Nat.mod_eq_of_lt hi]

theorem span_lt {a i n b : Nat} (hi : i < n) (ha : a < b) : a * n + i < b * n := by
  calc a * n + i < a * n + n := by omega
    _ = (a + 1) * n := (Nat.succ_mul a n).symm
    _ ≤ b * n := Nat.mul_le_mul_right n ha

section
variable {α : Type} {rows : List BatchRow} {v : BatchRow} {n : Nat}

theorem scatter_row {d : Nat → α} {f : BatchRow → α} (hinj : ∀ v ∈ rows, ∀ w ∈ rows, v.row = w.row → v = w)
    (hv : v ∈ rows) : scatter d (rows.map fun v => (v.row, f v)) v.row = f v := by
  apply scatter_eq_of_agree
  · intro p hp he
    obtain ⟨w, hw, rfl⟩ := List.mem_map.mp hp
    obtain rfl := hinj w hw v hv he
    rfl
  · exact .inr ⟨(v.row, f v), List.mem_map.mpr ⟨v, hv, rfl⟩, rfl⟩

variable {d : α} {J : BatchRow → List Nat} {f : BatchRow → Nat → α}

theorem scatter_region (hinj : ∀ v ∈ rows, ∀ w ∈ rows, v.row = w.row → v = w)
    (hJ : ∀ v ∈ rows, ∀ j ∈ J v, j < n) (hv : v ∈ rows) {j : Nat} (hj : j ∈ J v) :
    scatter (fun _ => d) (rows.flatMap fun v => (J v).map fun j => (v.row * n + j, f v j)) (v.row * n + j) =
      f v j := by
  apply scatter_eq_of_agree
  · intro p hp he
    obtain ⟨w, hw, hp⟩ := List.mem_flatMap.mp hp
    obtain ⟨j', hj', rfl⟩ := List.mem_map.mp hp
    obtain ⟨hrow, rfl⟩ := span_inj (hJ w hw j' hj') (hJ v hv j hj) he
    obtain rfl := hinj w hw v hv hrow
    rfl
  · right
    exact ⟨(v.row * n + j, f v j), List.mem_flatMap.mpr ⟨v, hv, List.mem_map.mpr ⟨j, hj, rfl⟩⟩, rfl⟩

theorem scatter_region_ne {x : α} {p : Nat} (hne : d ≠ x)
    (h : scatter (fun _ => d) (rows.flatMap fun v => (J v).map fun j => (v.row * n + j, f v j)) p = x) :
    ∃ v ∈ rows, ∃ j ∈ J v, p = v.row * n + j ∧ x = f v j := by
  obtain ⟨v, hv, hp⟩ := List.mem_flatMap.mp (mem_of_scatter_ne h hne)
  obtain ⟨j, hj, he⟩ := List.mem_map.mp hp
  obtain ⟨rfl, rfl⟩ := Prod.mk.inj he
  exact ⟨v, hv, j, hj, rfl, rfl⟩

end

/-- What `_spec_decode_schedule` relies on: the rows follow each other in the batch, no row is longer than
`spec_query_len`, and the token vectors hold all tokens of the rows. -/
structure Step4DSAMetadata.VerifyBatch (g : Step4DSAGeometry) (md : Step4DSAMetadata) : Prop where
  starts : ∀ i < md.numDecodes, md.queryStartLoc i ≤ md.queryStartLoc (i + 1)
  qlen_le : ∀ i < md.numDecodes, md.queryStartLoc (i + 1) - md.queryStartLoc i ≤ max g.specQueryLen 1
  tokens : md.queryStartLoc md.numDecodes ≤ md.numDecodeTokens

section
variable {g : Step4DSAGeometry} {md : Step4DSAMetadata} {v w : BatchRow} {t : Step4PendingTable}

theorem mem_verifyRows : v ∈ md.verifyRows ↔ ∃ i < md.numDecodes, v = md.generalRow i := by
  unfold Step4DSAMetadata.verifyRows
  simp only [List.mem_map, List.mem_range, eq_comm]

theorem mem_aliveRows : v ∈ md.aliveRows g ↔
    v.row < md.numDecodes ∧ v = md.generalRow v.row ∧ v.Alive g md.numPages := by
  unfold Step4DSAMetadata.aliveRows
  rw [List.mem_filter, mem_verifyRows, decide_eq_true_iff]
  constructor
  · rintro ⟨⟨i, hi, rfl⟩, ha⟩
    exact ⟨hi, rfl, ha⟩
  · intro ⟨hi, he, ha⟩
    exact ⟨⟨v.row, hi, he⟩, ha⟩

theorem aliveRow_inj (v : BatchRow) (hv : v ∈ md.aliveRows g) (w : BatchRow) (hw : w ∈ md.aliveRows g)
    (he : v.row = w.row) : v = w := by
  rw [(mem_aliveRows.mp hv).2.1, he, ← (mem_aliveRows.mp hw).2.1]

namespace Step4DSAMetadata.VerifyBatch

variable (h : md.VerifyBatch g)
include h

theorem starts_le {a b : Nat} (hab : a ≤ b) (hb : b ≤ md.numDecodes) :
    md.queryStartLoc a ≤ md.queryStartLoc b := le_of_steps h.starts hab hb

theorem token_inj {r r' i i' : Nat} (hr : r < md.numDecodes) (hr' : r' < md.numDecodes)
    (hi : i < (md.generalRow r).qlen) (hi' : i' < (md.generalRow r').qlen)
    (he : md.queryStartLoc r + i = md.queryStartLoc r' + i') : r = r' ∧ i = i' := by
  unfold Step4DSAMetadata.generalRow at hi hi'
  simp only at hi hi'
  rcases Nat.lt_trichotomy r r' with hlt | rfl | hlt
  · have := h.starts_le (a := r + 1) (b := r') hlt (by omega)
    omega
  · exact ⟨rfl, by omega⟩
  · have := h.starts_le (a := r' + 1) (b := r) hlt (by omega)
    omega

theorem token_lt {r i : Nat} (hr : r < md.numDecodes) (hi : i < (md.generalRow r).qlen) :
    md.queryStartLoc r + i < md.numDecodeTokens := by
  unfold Step4DSAMetadata.generalRow at hi
  simp only at hi
  have := h.starts_le (a := r + 1) (b := md.numDecodes) hr (Nat.le_refl _)
  have := h.tokens
  omega

theorem head_qlen_le (hr : v.row < md.numDecodes) (hv : v = md.generalRow v.row) :
    g.regionSize - 1 + v.qlen ≤ g.nrm * g.regionSize := by
  have hR := g.regionSize_pos
  have hq : v.qlen ≤ max g.specQueryLen 1 := by
    rw [hv]
    exact h.qlen_le v.row hr
  have hle := Nat.lt_div_mul_add hR (a := g.regionSize - 1 + max g.specQueryLen 1 + g.regionSize - 1)
  unfold Step4DSAGeometry.nrm
  omega

theorem nbuf_le (hv : v ∈ md.aliveRows g) : v.nbuf g ≤ g.nrm * g.regionSize := by
  obtain ⟨hr, he, -⟩ := mem_aliveRows.mp hv
  have := h.head_qlen_le hr he
  have := BatchRow.head_lt (g := g) (v := v)
  unfold BatchRow.nbuf
  omega

theorem nregions_le (hv : v ∈ md.aliveRows g) : v.nregions g ≤ g.nrm := by
  have hR := g.regionSize_pos
  have := h.nbuf_le hv
  unfold BatchRow.nregions
  rw [Nat.div_le_iff_le_mul_add_pred hR, Nat.mul_comm]
  omega

end Step4DSAMetadata.VerifyBatch

/-! ## The vectors at an alive row -/

/-- The vectors of the verify schedule that ends with the table `t`. -/
def verifyVectors (g : Step4DSAGeometry) (md : Step4DSAMetadata) (t : Step4PendingTable) : SpecSchedule :=
  specVectors g md t.capacity ((md.aliveRows g).map (specPlanOf g t)) ((md.aliveRows g).flatMap (·.completed g))

/-- The regions a row keeps. -/
def BatchRow.keptRegions (g : Step4DSAGeometry) (v : BatchRow) : List Nat :=
  if v.Keeps g then List.range (v.nbuf g / g.regionSize) else []

theorem verifyVectors_keepRows : (verifyVectors g md t).keepRows = scatter (fun _ => t.capacity)
    ((md.aliveRows g).flatMap fun v => (v.keptRegions g).map fun j => (v.row * g.nrm + j, t.rowOf (v.slot g j))) := by
  simp only [verifyVectors, specVectors, List.flatMap_map]
  congr 1
  apply List.flatMap_congr
  intro v _
  simp only [specPlanOf, BatchRow.keepList, BatchRow.keptRegions, BatchRow.closedRegions_eq]
  split <;> simp

section
variable (h : md.VerifyBatch g) (hv : v ∈ md.aliveRows g)
include hv

theorem verify_head : (verifyVectors g md t).head v.row = v.head g := by
  simp only [verifyVectors, specVectors, List.map_map]
  exact scatter_row (f := fun v => v.head g) aliveRow_inj hv

theorem verify_tail : (verifyVectors g md t).tail v.row = v.tail g := by
  simp only [verifyVectors, specVectors, List.map_map]
  exact scatter_row (f := fun v => v.tail g) aliveRow_inj hv

theorem verify_tailReg : (verifyVectors g md t).tailReg v.row = v.row * g.nrm + v.nregions g - 1 := by
  simp only [verifyVectors, specVectors, List.map_map]
  exact scatter_row (f := fun v => v.row * g.nrm + v.nregions g - 1) aliveRow_inj hv

theorem verify_pendingIn (hh : v.head g ≠ 0)
    (hmap : ∀ s ∈ claims g (md.aliveRows g), ∃ row, t.rowOfSlot s = some row) :
    (verifyVectors g md t).pendingIn v.row = t.rowOf (v.slot g 0) := by
  simp only [verifyVectors, specVectors, List.filterMap_map]
  refine (scatter_rows (f := fun v => v.headRow g t) aliveRow_inj hv).trans ?_
  rw [headRow_getD hmap hv (aliveRows_qlen md hv) hh, Option.getD_some]

theorem verify_pendingOut : (verifyVectors g md t).pendingOut v.row = (v.outRow g t).getD t.capacity := by
  simp only [verifyVectors, specVectors, List.filterMap_map]
  exact scatter_rows (f := fun v => v.outRow g t) aliveRow_inj hv

include h

theorem verify_slots {j : Nat} (hj : j < v.nregions g) :
    (verifyVectors g md t).slots (v.row * g.nrm + j) = v.slot g j := by
  simp only [verifyVectors, specVectors, List.flatMap_map]
  exact scatter_region (J := fun v => List.range (v.nregions g)) (f := fun v => v.slot g) aliveRow_inj
    (fun w hw j hj => (List.mem_range.mp hj).trans_le (h.nregions_le hw)) hv (List.mem_range.mpr hj)

theorem full_lt_nrm {j : Nat} (hj : j ∈ v.fullRegions g) : j < g.nrm := by
  rw [BatchRow.fullRegions_eq, List.mem_range] at hj
  exact (BatchRow.lt_nregions hj).trans_le (h.nregions_le hv)

theorem verify_counts {j : Nat} (hj : j < v.nbuf g / g.regionSize) :
    (verifyVectors g md t).counts (v.row * g.nrm + j) = g.regionSize := by
  simp only [verifyVectors, specVectors, List.flatMap_map]
  refine scatter_region (J := fun v => v.fullRegions g) (f := fun _ _ => g.regionSize) aliveRow_inj
    (fun w hw j hj => full_lt_nrm h hw hj) hv ?_
  rw [BatchRow.fullRegions_eq]
  exact List.mem_range.mpr hj

theorem verify_live {j : Nat} (hj : j < v.nbuf g / g.regionSize) :
    (verifyVectors g md t).live (v.row * g.nrm + j) = true := by
  simp only [verifyVectors, specVectors, List.flatMap_map]
  refine scatter_region (J := fun v => v.fullRegions g) (f := fun _ _ => true) aliveRow_inj
    (fun w hw j hj => full_lt_nrm h hw hj) hv ?_
  rw [BatchRow.fullRegions_eq]
  exact List.mem_range.mpr hj

theorem verify_keepRows (hk : v.Keeps g) {j : Nat} (hj : j < v.nbuf g / g.regionSize) :
    (verifyVectors g md t).keepRows (v.row * g.nrm + j) = t.rowOf (v.slot g j) := by
  rw [verifyVectors_keepRows]
  refine scatter_region (J := fun v => v.keptRegions g) (f := fun v j => t.rowOf (v.slot g j)) aliveRow_inj
    (fun w hw j hj => ?_) hv ?_
  · unfold BatchRow.keptRegions at hj
    split at hj
    · exact (BatchRow.lt_nregions (List.mem_range.mp hj)).trans_le (h.nregions_le hw)
    · cases hj
  · rw [BatchRow.keptRegions, if_pos hk]
    exact List.mem_range.mpr hj

end

/-! ## The rows and regions behind an entry -/

theorem live_inv {p : Nat} (hp : (verifyVectors g md t).live p = true) :
    ∃ v ∈ md.aliveRows g, ∃ j < v.nbuf g / g.regionSize, p = v.row * g.nrm + j := by
  simp only [verifyVectors, specVectors, List.flatMap_map] at hp
  obtain ⟨v, hv, j, hj, he, -⟩ := scatter_region_ne (J := fun v => v.fullRegions g) (f := fun _ _ => true)
    Bool.false_ne_true hp
  simp only [BatchRow.fullRegions_eq, List.mem_range] at hj
  exact ⟨v, hv, j, hj, he⟩

theorem keepRows_inv {p : Nat} (hp : (verifyVectors g md t).keepRows p ≠ t.capacity) :
    ∃ v ∈ md.aliveRows g, v.Keeps g ∧ ∃ j < v.nbuf g / g.regionSize, p = v.row * g.nrm + j ∧
      (verifyVectors g md t).keepRows p = t.rowOf (v.slot g j) := by
  rw [verifyVectors_keepRows] at hp ⊢
  obtain ⟨v, hv, j, hj, he, hx⟩ := scatter_region_ne (J := fun v => v.keptRegions g)
    (f := fun v j => t.rowOf (v.slot g j)) hp.symm rfl
  unfold BatchRow.keptRegions at hj
  split at hj
  · rename_i hk
    exact ⟨v, hv, hk, j, List.mem_range.mp hj, he, hx⟩
  · cases hj

theorem pendingOut_inv {r : Nat} (hr : (verifyVectors g md t).pendingOut r ≠ t.capacity) :
    ∃ v ∈ md.aliveRows g, v.row = r := by
  by_contra hc
  apply hr
  simp only [verifyVectors, specVectors, List.filterMap_map]
  apply scatter_rows_other (f := fun v => v.outRow g t)
  intro v hv he
  exact hc ⟨v, hv, he⟩

/-! ## Tokens -/

theorem mem_batchTokens {k : Nat × BatchRow × Nat} : k ∈ batchTokens md.verifyRows ↔
    ∃ r < md.numDecodes, ∃ i < (md.generalRow r).qlen, k = (md.queryStartLoc r + i, md.generalRow r, i) := by
  unfold batchTokens
  simp only [List.mem_flatMap, mem_verifyRows, List.mem_map, List.mem_range]
  constructor
  · rintro ⟨v, ⟨r, hr, rfl⟩, i, hi, rfl⟩
    exact ⟨r, hr, i, hi, rfl⟩
  · rintro ⟨r, hr, i, hi, rfl⟩
    exact ⟨md.generalRow r, ⟨r, hr, rfl⟩, i, hi, rfl⟩

theorem scatter_token {d : Nat → Nat} {f : BatchRow → Nat → Nat} (h : md.VerifyBatch g) {r i : Nat}
    (hr : r < md.numDecodes) (hi : i < (md.generalRow r).qlen) :
    scatter d ((batchTokens md.verifyRows).map fun k => (k.1, f k.2.1 k.2.2)) (md.queryStartLoc r + i) =
      f (md.generalRow r) i := by
  apply scatter_eq_of_agree
  · intro p hp he
    obtain ⟨k, hk, rfl⟩ := List.mem_map.mp hp
    obtain ⟨r', hr', i', hi', rfl⟩ := mem_batchTokens.mp hk
    obtain ⟨rfl, rfl⟩ := h.token_inj hr' hr hi' hi he
    rfl
  · right
    exact ⟨_, List.mem_map.mpr ⟨_, mem_batchTokens.mpr ⟨r, hr, i, hi, rfl⟩, rfl⟩, rfl⟩

theorem scatter_token_other {d : Nat → Nat} {f : BatchRow → Nat → Nat} {x : Nat}
    (hx : ∀ r < md.numDecodes, ∀ i < (md.generalRow r).qlen, x ≠ md.queryStartLoc r + i) :
    scatter d ((batchTokens md.verifyRows).map fun k => (k.1, f k.2.1 k.2.2)) x = d x := by
  apply scatter_of_not_mem
  intro hmem
  obtain ⟨p, hp, rfl⟩ := List.mem_map.mp hmem
  obtain ⟨k, hk, rfl⟩ := List.mem_map.mp hp
  obtain ⟨r, hr, i, hi, rfl⟩ := mem_batchTokens.mp hk
  exact hx r hr i hi rfl

theorem verify_tokNscore (h : md.VerifyBatch g) (hv : v ∈ md.aliveRows g) {i : Nat} (hi : i < v.qlen) :
    (verifyVectors g md t).tokNscore (md.queryStartLoc v.row + i) = (v.past + i) / g.regionSize := by
  obtain ⟨hr, he, ha⟩ := mem_aliveRows.mp hv
  rw [he] at hi
  have hs := scatter_token (d := fun _ => 0)
    (f := fun v i => if v.Alive g md.numPages then (v.past + i) / g.regionSize else 0) h hr hi
  rw [← he, if_pos ha] at hs
  exact hs

section
variable {κ σ : Type} {zero : κ} {index : Nat → κ} {pending : Nat × Nat → κ}

theorem specBuffer_at (h : md.VerifyBatch g) (hv : v ∈ md.aliveRows g)
    (hmap : ∀ s ∈ claims g (md.aliveRows g), ∃ row, t.rowOfSlot s = some row) {m : Nat} (hm : m < v.nbuf g) :
    specBuffer g zero (verifyVectors g md t) pending index (v.row * (g.nrm * g.regionSize) + m) =
      v.token g t pending index m := by
  obtain ⟨hr, he, ha⟩ := mem_aliveRows.mp hv
  have hspan : m < g.nrm * g.regionSize := hm.trans_le (h.nbuf_le hv)
  have htok : v.tokStart = md.queryStartLoc v.row := by
    rw [he]
    rfl
  unfold specBuffer
  apply scatter_eq_of_agree
  · intro p hp hkey
    obtain ⟨x, hx, rfl⟩ := List.mem_map.mp hp
    by_cases hx : ∃ r < md.numDecodes, ∃ i < (md.generalRow r).qlen, x = md.queryStartLoc r + i
    · obtain ⟨r, hr', i, hi, rfl⟩ := hx
      have hb : (verifyVectors g md t).tokBuf (md.queryStartLoc r + i) = r * (g.nrm * g.regionSize) +
          ((if (md.generalRow r).Alive g md.numPages then (md.generalRow r).head g else 0) + i) := by
        have hs := scatter_token (d := fun t => md.numDecodes * g.nrm * g.regionSize + t)
          (f := fun v i => v.row * (g.nrm * g.regionSize) + (if v.Alive g md.numPages then v.head g else 0) + i) h hr' hi
        rw [Nat.add_assoc] at hs
        exact hs
      simp only [hb] at hkey
      have hle := h.head_qlen_le (v := md.generalRow r) hr' rfl
      have hhead := BatchRow.head_lt (g := g) (v := md.generalRow r)
      have hlt : (if (md.generalRow r).Alive g md.numPages then (md.generalRow r).head g else 0) + i <
          g.nrm * g.regionSize := by
        have := g.regionSize_pos
        split <;> omega
      obtain ⟨rfl, hpos⟩ := span_inj hlt hspan hkey
      rw [← he] at hpos hi
      rw [if_pos ha] at hpos
      have hi' : i = m - v.head g := by omega
      rw [BatchRow.token, if_neg (by omega), htok, ← hi']
    · have hb : (verifyVectors g md t).tokBuf x = md.numDecodes * g.nrm * g.regionSize + x := by
        refine scatter_token_other (d := fun t => md.numDecodes * g.nrm * g.regionSize + t)
          (f := fun v i => v.row * (g.nrm * g.regionSize) + (if v.Alive g md.numPages then v.head g else 0) + i) ?_
        intro r hr' i hi hc
        exact hx ⟨r, hr', i, hi, hc⟩
      simp only [hb] at hkey
      have := span_lt hspan hr
      rw [Nat.mul_assoc] at hkey
      omega
  · by_cases hlt : m < v.head g
    · left
      have hh := BatchRow.head_lt (g := g) (v := v)
      have hbig : v.row * (g.nrm * g.regionSize) + m < md.numDecodes * (g.nrm * g.regionSize) := span_lt hspan hr
      have hnrm : (verifyVectors g md t).nrm = g.nrm := rfl
      have hnd : (verifyVectors g md t).numDecodes = md.numDecodes := rfl
      simp only [hnrm, hnd, span_div hspan, span_mod hspan, verify_head hv,
        verify_pendingIn hv (by omega : v.head g ≠ 0) hmap]
      rw [if_pos ⟨hbig, by omega, hlt⟩, BatchRow.token, if_pos hlt]
    · right
      have hi : m - v.head g < v.qlen := by
        unfold BatchRow.nbuf at hm
        omega
      rw [he] at hi
      refine ⟨_, List.mem_map.mpr ⟨md.queryStartLoc v.row + (m - v.head g), ?_, rfl⟩, ?_⟩
      · exact List.mem_range.mpr (by
          have := h.token_lt hr hi
          rw [← he] at this
          exact this)
      · have hs := scatter_token (d := fun t => md.numDecodes * g.nrm * g.regionSize + t)
          (f := fun v i => v.row * (g.nrm * g.regionSize) + (if v.Alive g md.numPages then v.head g else 0) + i) h hr hi
        rw [← he, if_pos ha] at hs
        refine Eq.trans hs ?_
        omega

variable (compress : List κ → σ)

theorem updated_specUnfused {T : LayerTensors κ σ} (h : md.VerifyBatch g) (hex : ExclusiveRows g (md.aliveRows g))
    (hwf : t.Wf) (hmap : ∀ s ∈ claims g (md.aliveRows g), ∃ row, t.rowOfSlot s = some row) :
    Updated compress g (md.aliveRows g) t index T
      (updateSummariesSpecUnfused g zero compress (verifyVectors g md t) index T) := by
  have hq : ∀ v ∈ md.aliveRows g, v.qlen ≠ 0 := fun v hv => aliveRows_qlen md hv
  have hnrm : (verifyVectors g md t).nrm = g.nrm := rfl
  have hnd : (verifyVectors g md t).numDecodes = md.numDecodes := rfl
  have hbuf : ∀ v ∈ md.aliveRows g, ∀ j i, j * g.regionSize + i < v.nbuf g →
      specBuffer g zero (verifyVectors g md t) T.pending index ((v.row * g.nrm + j) * g.regionSize + i) =
        v.token g t T.pending index (j * g.regionSize + i) := by
    intro v hv j i hm
    rw [← specBuffer_at h hv hmap hm, Nat.add_mul, Nat.mul_assoc, Nat.add_assoc]
  have hregion : ∀ v ∈ md.aliveRows g, ∀ j < v.nbuf g / g.regionSize,
      compressAt compress (specBuffer g zero (verifyVectors g md t) T.pending index)
        ((v.row * g.nrm + j) * g.regionSize) g.regionSize =
        compress (regionTokens g (v.token g t T.pending index) j) := by
    intro v hv j hj
    apply compressAt_eq
    intro i hi
    exact hbuf v hv j i (full_lt_nbuf hj hi)
  have hplace : ∀ v ∈ md.aliveRows g, ∀ j < v.nregions g, v.row * g.nrm + j < md.numDecodes * g.nrm :=
    fun v hv j hj => span_lt (hj.trans_le (h.nregions_le hv)) (mem_aliveRows.mp hv).1
  refine Updated.of_writes compress hq hex hwf hmap ?_ ?_ ?_ rfl (scatter_append ..).symm
  · intro p
    simp only [List.mem_map, List.mem_filter, List.mem_range]
    constructor
    · rintro ⟨x, ⟨-, hl⟩, rfl⟩
      obtain ⟨v, hv, j, hj, rfl⟩ := live_inv hl
      rw [verify_slots h hv (BatchRow.lt_nregions hj), verify_counts h hv hj, hregion v hv j hj]
      exact .closed hv hj
    · intro hp
      cases hp with
      | @closed v j hv hj =>
        refine ⟨v.row * g.nrm + j, ⟨hplace v hv j (BatchRow.lt_nregions hj), verify_live h hv hj⟩, ?_⟩
        rw [verify_slots h hv (BatchRow.lt_nregions hj), verify_counts h hv hj, hregion v hv j hj]
  · intro p hp
    rcases List.mem_append.mp hp with hp | hp
    · obtain ⟨r, -, hp⟩ := List.mem_flatMap.mp hp
      obtain ⟨i, hi, rfl⟩ := mem_rowWrites.mp hp
      by_cases hout : (verifyVectors g md t).pendingOut r = t.capacity
      · exact .inl hout
      · obtain ⟨v, hv, rfl⟩ := pendingOut_inv hout
        rw [verify_pendingOut hv] at hout ⊢
        have ht : v.tail g ≠ 0 := by
          intro hc
          rw [BatchRow.outRow, if_neg (by simp [hc])] at hout
          exact hout rfl
        have hn := BatchRow.nregions_eq (g := g) (v := v)
        rw [if_neg ht] at hn
        rw [outRow_getD hmap (hq v hv) hv ht, Option.getD_some, verify_tail hv, verify_tailReg hv, hn]
        right
        by_cases hlt : i < v.tail g
        · left
          rw [if_pos hlt, show v.row * g.nrm + (v.nbuf g / g.regionSize + 1) - 1 =
            v.row * g.nrm + v.nbuf g / g.regionSize from rfl, hbuf v hv _ i (tail_lt_nbuf hlt)]
          exact .tail hv hlt
        · right
          rw [if_neg hlt]
          exact ⟨rfl, v, hv, ht, rfl, Nat.not_lt.mp hlt⟩
    · obtain ⟨x, -, hp⟩ := List.mem_flatMap.mp hp
      obtain ⟨i, hi, rfl⟩ := mem_rowWrites.mp hp
      by_cases hkeep : (verifyVectors g md t).keepRows x = t.capacity
      · exact .inl hkeep
      · obtain ⟨v, hv, hk, j, hj, rfl, hrow⟩ := keepRows_inv hkeep
        right
        left
        rw [hrow, hbuf v hv j i (full_lt_nbuf hj hi)]
        exact .keep hv hk hj hi
  · intro p hp
    cases hp with
    | @keep v j i hv hk hj hi =>
      refine List.mem_append_right _ (List.mem_flatMap.mpr ⟨v.row * g.nrm + j, ?_, ?_⟩)
      · exact List.mem_range.mpr (hplace v hv j (BatchRow.lt_nregions hj))
      · refine mem_rowWrites.mpr ⟨i, hi, ?_⟩
        rw [verify_keepRows h hv hk hj, hbuf v hv j i (full_lt_nbuf hj hi)]
    | @tail v i hv hi =>
      have ht : v.tail g ≠ 0 := by omega
      have hn := BatchRow.nregions_eq (g := g) (v := v)
      rw [if_neg ht] at hn
      refine List.mem_append_left _ (List.mem_flatMap.mpr ⟨v.row, ?_, ?_⟩)
      · exact List.mem_range.mpr (mem_aliveRows.mp hv).1
      · refine mem_rowWrites.mpr ⟨i, hi.trans BatchRow.tail_lt, ?_⟩
        rw [verify_pendingOut hv, outRow_getD hmap (hq v hv) hv ht, Option.getD_some, verify_tail hv, if_pos hi,
          verify_tailReg hv, hn, show v.row * g.nrm + (v.nbuf g / g.regionSize + 1) - 1 =
            v.row * g.nrm + v.nbuf g / g.regionSize from rfl, hbuf v hv _ i (tail_lt_nbuf hi)]

/-! ## The fused kernel -/

/-- The summary a program stores, gathered from `pending`. -/
def kernelSummary (g : Step4DSAGeometry) (zero : κ) (S : SpecSchedule) (index : Nat → κ) (pending : Nat × Nat → κ)
    (p : Nat) : List (Nat × σ) :=
  if S.live p then [(S.slots p, compressAt compress (kernelKey g zero S pending index p) 0 (S.counts p))] else []

/-- The pending tokens a program writes, gathered from `pending`. -/
def kernelPending (g : Step4DSAGeometry) (zero : κ) (S : SpecSchedule) (index : Nat → κ) (trash : Nat)
    (pending : Nat × Nat → κ) (p : Nat) : List ((Nat × Nat) × κ) :=
  (if p = S.tailReg (p / S.nrm) ∧ S.pendingOut (p / S.nrm) ≠ trash then
    rowWrites (S.pendingOut (p / S.nrm))
      ((List.range (S.tail (p / S.nrm))).map (kernelKey g zero S pending index p)) else []) ++
  if S.keepRows p ≠ trash then
    rowWrites (S.keepRows p) ((List.range g.regionSize).map (kernelKey g zero S pending index p)) else []

theorem specSummariesProgram_eq (S : SpecSchedule) (trash : Nat) (T : LayerTensors κ σ) (p : Nat) :
    specSummariesProgram g zero compress S index trash T p =
      ⟨scatter T.pending (kernelPending g zero S index trash T.pending p),
        scatter T.summary (kernelSummary compress g zero S index T.pending p)⟩ := by
  unfold specSummariesProgram kernelSummary kernelPending
  cases S.live p with
  | true => simp
  | false => simp

theorem kernelKey_eq (h : md.VerifyBatch g) (hv : v ∈ md.aliveRows g)
    (hmap : ∀ s ∈ claims g (md.aliveRows g), ∃ row, t.rowOfSlot s = some row) {j i : Nat} (hj : j < v.nregions g)
    (hm : j * g.regionSize + i < v.nbuf g) :
    kernelKey g zero (verifyVectors g md t) pending index (v.row * g.nrm + j) i =
      v.token g t pending index (j * g.regionSize + i) := by
  obtain ⟨hr, he, -⟩ := mem_aliveRows.mp hv
  have hjn := hj.trans_le (h.nregions_le hv)
  have hnrm : (verifyVectors g md t).nrm = g.nrm := rfl
  have hstart : (verifyVectors g md t).queryStartLoc v.row = v.tokStart := by
    rw [he]
    rfl
  have hlen : (verifyVectors g md t).queryStartLoc (v.row + 1) - v.tokStart = v.qlen := by
    rw [he]
    rfl
  unfold kernelKey
  simp only [hnrm, span_div hjn, span_mod hjn, verify_head hv, hstart, hlen]
  generalize j * g.regionSize + i = m at hm ⊢
  by_cases hlt : m < v.head g
  · rw [if_neg (by omega), if_pos hlt, verify_pendingIn hv (by omega) hmap, BatchRow.token, if_pos hlt]
  · have hi : m - v.head g < v.qlen := by
      unfold BatchRow.nbuf at hm
      omega
    have htok : v.tokStart + (m - v.head g) < (verifyVectors g md t).numTokens := by
      have hi' := hi
      rw [he] at hi'
      have := h.token_lt hr hi'
      rw [← he] at this
      rw [← hstart]
      exact this
    rw [if_pos ⟨by omega, hi, htok⟩, BatchRow.token, if_neg hlt]

/-- A token depends on `pending` only through the row's head, which only the first region holds. -/
theorem token_congr {P P' : Nat × Nat → κ} {j i : Nat}
    (hP : j = 0 → ∀ m < v.head g, P' (t.rowOf (v.slot g 0), m) = P (t.rowOf (v.slot g 0), m)) :
    v.token g t P' index (j * g.regionSize + i) = v.token g t P index (j * g.regionSize + i) := by
  unfold BatchRow.token
  by_cases hlt : j * g.regionSize + i < v.head g
  · have hj : j = 0 := by
      by_contra hne
      have := BatchRow.head_lt (g := g) (v := v)
      have := Nat.le_mul_of_pos_left g.regionSize (Nat.pos_of_ne_zero hne)
      omega
    rw [if_pos hlt, if_pos hlt, hP hj _ hlt]
  · rw [if_neg hlt, if_neg hlt]

section
variable (h : md.VerifyBatch g)
  (hmap : ∀ s ∈ claims g (md.aliveRows g), ∃ row, t.rowOfSlot s = some row)
include h hmap

omit h in
theorem tailReg_inv {p : Nat} (hp : p = (verifyVectors g md t).tailReg (p / g.nrm))
    (hout : (verifyVectors g md t).pendingOut (p / g.nrm) ≠ t.capacity) :
    ∃ v ∈ md.aliveRows g, v.row = p / g.nrm ∧ v.tail g ≠ 0 ∧ p = v.row * g.nrm + v.nbuf g / g.regionSize ∧
      (verifyVectors g md t).pendingOut v.row = t.rowOf (v.lastSlot g) := by
  obtain ⟨v, hv, hrow⟩ := pendingOut_inv hout
  rw [← hrow, verify_pendingOut hv] at hout
  have ht : v.tail g ≠ 0 := by
    intro hc
    rw [BatchRow.outRow, if_neg (by simp [hc])] at hout
    exact hout rfl
  have hn := BatchRow.nregions_eq (g := g) (v := v)
  rw [if_neg ht] at hn
  refine ⟨v, hv, hrow, ht, ?_, ?_⟩
  · rw [← hrow, verify_tailReg hv, hn] at hp
    exact hp
  · rw [verify_pendingOut hv, outRow_getD hmap (aliveRows_qlen md hv) hv ht, Option.getD_some]

/-- What program `p` writes to pending rows: the tail or a kept region of an alive row. -/
theorem kernelPending_mem {P : Nat × Nat → κ} {p : Nat} {x : (Nat × Nat) × κ}
    (hx : x ∈ kernelPending g zero (verifyVectors g md t) index t.capacity P p) :
    ∃ v ∈ md.aliveRows g, ∃ j < v.nregions g, p = v.row * g.nrm + j ∧ v.slot g j ∈ claims g (md.aliveRows g) ∧
      x.1.1 = t.rowOf (v.slot g j) ∧ PendingWrite g (md.aliveRows g) t (fun v => v.token g t P index) x := by
  have hq : ∀ v ∈ md.aliveRows g, v.qlen ≠ 0 := fun v hv => aliveRows_qlen md hv
  rcases List.mem_append.mp hx with hx | hx
  · split at hx
    · rename_i hc
      obtain ⟨v, hv, hrow, ht, hp, hout⟩ := tailReg_inv hmap hc.1 hc.2
      have hn := BatchRow.nregions_eq (g := g) (v := v)
      rw [if_neg ht] at hn
      obtain ⟨i, hi, rfl⟩ := mem_rowWrites.mp hx
      have hnrm : (verifyVectors g md t).nrm = g.nrm := rfl
      rw [hnrm, ← hrow, verify_tail hv] at hi
      have hj : v.nbuf g / g.regionSize < v.nregions g := by
        rw [hn]
        exact Nat.lt_succ_self _
      refine ⟨v, hv, _, hj, hp, ?_, ?_, ?_⟩
      · rw [← BatchRow.lastSlot_eq ht]
        exact last_mem_claims hq hv ht
      · rw [hnrm, ← hrow, hout, BatchRow.lastSlot_eq ht]
      · rw [hnrm, ← hrow, hout, hp, kernelKey_eq h hv hmap hj (tail_lt_nbuf hi)]
        exact .tail hv hi
    · cases hx
  · split at hx
    · rename_i hc
      obtain ⟨v, hv, hk, j, hj, rfl, hrow⟩ := keepRows_inv hc
      obtain ⟨i, hi, rfl⟩ := mem_rowWrites.mp hx
      refine ⟨v, hv, j, BatchRow.lt_nregions hj, rfl, kept_mem_claims hq hv hk hj, hrow, ?_⟩
      rw [hrow, kernelKey_eq h hv hmap (BatchRow.lt_nregions hj) (full_lt_nbuf hj hi)]
      exact .keep hv hk hj hi
    · cases hx

/-- A program gathers the same tokens as long as the head it reads is as it was. -/
theorem kernel_congr {P P' : Nat × Nat → κ} {p : Nat}
    (hP : ∀ v ∈ md.aliveRows g, p = v.row * g.nrm → ∀ m < v.head g,
      P' (t.rowOf (v.slot g 0), m) = P (t.rowOf (v.slot g 0), m)) :
    kernelPending g zero (verifyVectors g md t) index t.capacity P' p =
        kernelPending g zero (verifyVectors g md t) index t.capacity P p ∧
      kernelSummary compress g zero (verifyVectors g md t) index P' p =
        kernelSummary compress g zero (verifyVectors g md t) index P p := by
  have hkey : ∀ v ∈ md.aliveRows g, ∀ j < v.nregions g, p = v.row * g.nrm + j → ∀ i,
      j * g.regionSize + i < v.nbuf g →
      kernelKey g zero (verifyVectors g md t) P' index p i = kernelKey g zero (verifyVectors g md t) P index p i := by
    intro v hv j hj hp i hm
    rw [hp, kernelKey_eq h hv hmap hj hm, kernelKey_eq h hv hmap hj hm]
    apply token_congr
    intro hj0
    exact hP v hv (by rw [hp, hj0, Nat.add_zero])
  have hnrm : (verifyVectors g md t).nrm = g.nrm := rfl
  constructor
  · unfold kernelPending
    congr 1
    · by_cases hc : p = (verifyVectors g md t).tailReg (p / (verifyVectors g md t).nrm) ∧
          (verifyVectors g md t).pendingOut (p / (verifyVectors g md t).nrm) ≠ t.capacity
      · rw [if_pos hc, if_pos hc]
        obtain ⟨v, hv, hrow, ht, hp, -⟩ := tailReg_inv hmap hc.1 hc.2
        have hj : v.nbuf g / g.regionSize < v.nregions g := by
          rw [BatchRow.nregions_eq, if_neg ht]
          exact Nat.lt_succ_self _
        congr 1
        apply List.map_congr_left
        intro i hi
        rw [List.mem_range, hnrm, ← hrow, verify_tail hv] at hi
        exact hkey v hv _ hj hp i (tail_lt_nbuf hi)
      · rw [if_neg hc, if_neg hc]
    · by_cases hc : (verifyVectors g md t).keepRows p ≠ t.capacity
      · rw [if_pos hc, if_pos hc]
        obtain ⟨v, hv, hk, j, hj, hp, -⟩ := keepRows_inv hc
        congr 1
        apply List.map_congr_left
        intro i hi
        exact hkey v hv j (BatchRow.lt_nregions hj) hp i (full_lt_nbuf hj (List.mem_range.mp hi))
      · rw [if_neg hc, if_neg hc]
  · unfold kernelSummary
    by_cases hc : (verifyVectors g md t).live p = true
    · rw [if_pos hc, if_pos hc]
      obtain ⟨v, hv, j, hj, hp⟩ := live_inv hc
      have hcount : (verifyVectors g md t).counts p = g.regionSize := by
        rw [hp]
        exact verify_counts h hv hj
      congr 2
      rw [hcount]
      unfold compressAt
      congr 1
      apply List.map_congr_left
      intro i hi
      rw [Nat.zero_add]
      exact hkey v hv j (BatchRow.lt_nregions hj) hp i (full_lt_nbuf hj (List.mem_range.mp hi))
    · rw [if_neg hc, if_neg hc]

variable (hex : ExclusiveRows g (md.aliveRows g)) (hwf : t.Wf)
include hex hwf

/-- The programs before `n` leave every head alone that a program from `n` on reads. -/
theorem programs_eq (zero : κ) (index : Nat → κ) (T : LayerTensors κ σ) : ∀ n,
    (List.range n).foldl (specSummariesProgram g zero compress (verifyVectors g md t) index t.capacity) T =
      ⟨scatter T.pending ((List.range n).flatMap
          (kernelPending g zero (verifyVectors g md t) index t.capacity T.pending)),
        scatter T.summary ((List.range n).flatMap
          (kernelSummary compress g zero (verifyVectors g md t) index T.pending))⟩ := by
  intro n
  induction n with
  | zero => rfl
  | succ n ih =>
    have hP : ∀ v ∈ md.aliveRows g, n = v.row * g.nrm → ∀ m < v.head g,
        scatter T.pending ((List.range n).flatMap
          (kernelPending g zero (verifyVectors g md t) index t.capacity T.pending)) (t.rowOf (v.slot g 0), m) =
        T.pending (t.rowOf (v.slot g 0), m) := by
      intro v hv hn m hm
      apply scatter_of_not_mem
      intro hmem
      obtain ⟨x, hx, hkey⟩ := List.mem_map.mp hmem
      obtain ⟨p, hp, hx⟩ := List.mem_flatMap.mp hx
      obtain ⟨w, hw, j, hj, hpw, hclaim, hrow, -⟩ := kernelPending_mem h hmap hx
      have hq := aliveRows_qlen md hv
      have hhead : v.slot g 0 ∈ claims g (md.aliveRows g) :=
        mem_claims.mpr ⟨v, hv, hq, .inl (BatchRow.mem_headSlots.mpr ⟨⟨hq, by omega⟩, rfl⟩)⟩
      rw [hkey] at hrow
      have hs := rowOf_inj hwf hmap hhead hclaim hrow
      obtain ⟨rfl, rfl⟩ := hex.slot_inj hv hw (BatchRow.nregions_pos hq) hj hs
      have := List.mem_range.mp hp
      omega
    rw [List.range_succ, List.foldl_append, ih, List.foldl_cons, List.foldl_nil, specSummariesProgram_eq]
    rw [(kernel_congr compress h hmap hP).1, (kernel_congr compress h hmap hP).2]
    simp only [List.flatMap_append, List.flatMap_cons, List.flatMap_nil, List.append_nil, scatter_append]

theorem updated_specFused (T : LayerTensors κ σ) :
    Updated compress g (md.aliveRows g) t index T
      (updateSummariesSpecFused g zero compress (verifyVectors g md t) index t.capacity T) := by
  have hq : ∀ v ∈ md.aliveRows g, v.qlen ≠ 0 := fun v hv => aliveRows_qlen md hv
  have hnrm : (verifyVectors g md t).nrm = g.nrm := rfl
  have hplace : ∀ v ∈ md.aliveRows g, ∀ j < v.nregions g, v.row * g.nrm + j < md.numDecodes * g.nrm :=
    fun v hv j hj => span_lt (hj.trans_le (h.nregions_le hv)) (mem_aliveRows.mp hv).1
  have hregion : ∀ v ∈ md.aliveRows g, ∀ j < v.nbuf g / g.regionSize,
      compressAt compress (kernelKey g zero (verifyVectors g md t) T.pending index (v.row * g.nrm + j)) 0
        g.regionSize = compress (regionTokens g (v.token g t T.pending index) j) := by
    intro v hv j hj
    apply compressAt_eq
    intro i hi
    rw [Nat.zero_add]
    exact kernelKey_eq h hv hmap (BatchRow.lt_nregions hj) (full_lt_nbuf hj hi)
  have heq := programs_eq compress h hmap hex hwf zero index T (md.numDecodes * g.nrm)
  refine Updated.of_writes compress hq hex hwf hmap ?_ ?_ ?_ (congrArg LayerTensors.summary heq)
    (congrArg LayerTensors.pending heq)
  · intro p
    simp only [List.mem_flatMap, List.mem_range]
    constructor
    · rintro ⟨x, -, hp⟩
      unfold kernelSummary at hp
      split at hp
      · rename_i hl
        obtain ⟨v, hv, j, hj, rfl⟩ := live_inv hl
        rw [List.mem_singleton.mp hp, verify_slots h hv (BatchRow.lt_nregions hj), verify_counts h hv hj,
          hregion v hv j hj]
        exact .closed hv hj
      · cases hp
    · intro hp
      cases hp with
      | @closed v j hv hj =>
        refine ⟨v.row * g.nrm + j, hplace v hv j (BatchRow.lt_nregions hj), ?_⟩
        unfold kernelSummary
        rw [if_pos (verify_live h hv hj), verify_slots h hv (BatchRow.lt_nregions hj), verify_counts h hv hj,
          hregion v hv j hj]
        exact List.mem_singleton.mpr rfl
  · intro p hp
    obtain ⟨x, -, hp⟩ := List.mem_flatMap.mp hp
    obtain ⟨v, hv, j, hj, -, -, -, hw⟩ := kernelPending_mem h hmap hp
    exact .inr (.inl hw)
  · intro p hp
    cases hp with
    | @keep v j i hv hk hj hi =>
      refine List.mem_flatMap.mpr ⟨v.row * g.nrm + j, ?_, List.mem_append_right _ ?_⟩
      · exact List.mem_range.mpr (hplace v hv j (BatchRow.lt_nregions hj))
      · have hrow := verify_keepRows (t := t) h hv hk hj
        rw [hrow, if_pos (rowOf_ne_trash hwf hmap (kept_mem_claims hq hv hk hj))]
        refine mem_rowWrites.mpr ⟨i, hi, ?_⟩
        rw [kernelKey_eq h hv hmap (BatchRow.lt_nregions hj) (full_lt_nbuf hj hi)]
    | @tail v i hv hi =>
      have ht : v.tail g ≠ 0 := by omega
      have hn := BatchRow.nregions_eq (g := g) (v := v)
      rw [if_neg ht] at hn
      have hj : v.nbuf g / g.regionSize < v.nregions g := by
        rw [hn]
        exact Nat.lt_succ_self _
      have hdiv : (v.row * g.nrm + v.nbuf g / g.regionSize) / (verifyVectors g md t).nrm = v.row :=
        span_div (hj.trans_le (h.nregions_le hv))
      have hout : (verifyVectors g md t).pendingOut v.row = t.rowOf (v.lastSlot g) := by
        rw [verify_pendingOut hv, outRow_getD hmap (hq v hv) hv ht, Option.getD_some]
      refine List.mem_flatMap.mpr ⟨v.row * g.nrm + v.nbuf g / g.regionSize, ?_, List.mem_append_left _ ?_⟩
      · exact List.mem_range.mpr (hplace v hv _ hj)
      · rw [hdiv, if_pos ⟨by rw [verify_tailReg hv, hn]; rfl, by
          rw [hout]
          exact rowOf_ne_trash hwf hmap (last_mem_claims hq hv ht)⟩]
        refine mem_rowWrites.mpr ⟨i, by rw [verify_tail hv]; exact hi, ?_⟩
        rw [hout, kernelKey_eq h hv hmap hj (tail_lt_nbuf hi)]

end

end

end

end VllmHcu.Step4
