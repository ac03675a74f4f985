import VllmHcu.Dbo.MicrobatchSound
import VllmHcu.Step4.UpdateSound

/-!
# One layer's updates of the two microbatches

Run one after the other, the updates of the halves write what the update of the
whole batch writes. A region at the cut goes through the pending row that the
first half gives it.
-/

namespace VllmHcu.Dbo

open Step4 Step4PendingTable

/-- The region fills up in this step. -/
def ClosedBy (g : Step4DSAGeometry) (rows : List BatchRow) (slot : Nat) : Prop := ∃ v ∈ rows, Closes g v slot

/-- How many tokens of a region a pending row holds: the tail of the row of the batch that ends in it, or all. -/
def tokensHeld (g : Step4DSAGeometry) (rows : List BatchRow) (slot : Nat) : Nat :=
  match rows.find? fun v => v.tail g ≠ 0 ∧ v.lastSlot g = slot with
  | some v => v.tail g
  | none => g.regionSize

def pendingTokens {κ : Type} (g : Step4DSAGeometry) (rows : List BatchRow) (t : Step4PendingTable)
    (pending : Nat × Nat → κ) (slot : Nat) : List κ :=
  (List.range (tokensHeld g rows slot)).map fun i => pending (t.rowOf slot, i)

/-- Two batches of the halves of `rows`: those with tokens. -/
structure CutRows (g : Step4DSAGeometry) (rows rows₀ rows₁ : List BatchRow) (f₀ f₁ : BatchRow → BatchRow)
    (k : BatchRow → Nat) (cut : Nat) : Prop where
  halves : ∀ v ∈ rows, Halves v (f₀ v) (f₁ v) (k v)
  active : ∀ v ∈ rows, v.qlen ≠ 0
  mem₀ : ∀ w, w ∈ rows₀ ↔ ∃ v ∈ rows, w = f₀ v ∧ w.qlen ≠ 0
  mem₁ : ∀ w, w ∈ rows₁ ↔ ∃ v ∈ rows, w = f₁ v ∧ w.qlen ≠ 0
  exclusive : ExclusiveRows g rows
  start₀ : ∀ v ∈ rows, (f₀ v).tokStart = v.tokStart
  start₁ : ∀ v ∈ rows, k v < v.qlen → cut + (f₁ v).tokStart = v.tokStart + k v
  nodup₀ : rows₀.Nodup
  nodup₁ : rows₁.Nodup

namespace CutRows

variable {g : Step4DSAGeometry} {rows rows₀ rows₁ : List BatchRow} {f₀ f₁ : BatchRow → BatchRow} {k : BatchRow → Nat}
  {cut : Nat} {v w : BatchRow} {slot : Nat}

/-! ## Rows and regions -/

theorem active₀ (h : CutRows g rows rows₀ rows₁ f₀ f₁ k cut) : ∀ w ∈ rows₀, w.qlen ≠ 0 := fun w hw =>
  ((h.mem₀ w).mp hw).elim fun _ hv => hv.2.2

theorem active₁ (h : CutRows g rows rows₀ rows₁ f₀ f₁ k cut) : ∀ w ∈ rows₁, w.qlen ≠ 0 := fun w hw =>
  ((h.mem₁ w).mp hw).elim fun _ hv => hv.2.2

theorem first_mem (h : CutRows g rows rows₀ rows₁ f₀ f₁ k cut) (hv : v ∈ rows) (hk : k v ≠ 0) : f₀ v ∈ rows₀ :=
  (h.mem₀ _).mpr ⟨v, hv, rfl, by rwa [(h.halves v hv).qlen₀]⟩

theorem second_mem (h : CutRows g rows rows₀ rows₁ f₀ f₁ k cut) (hv : v ∈ rows) (hk : k v < v.qlen) : f₁ v ∈ rows₁ :=
  (h.mem₁ _).mpr ⟨v, hv, rfl, by rw [(h.halves v hv).qlen₁]; omega⟩

theorem parent₀ (h : CutRows g rows rows₀ rows₁ f₀ f₁ k cut) (hw : w ∈ rows₀) : ∃ v ∈ rows, w = f₀ v ∧ k v ≠ 0 := by
  obtain ⟨v, hv, rfl, hq⟩ := (h.mem₀ w).mp hw
  rw [(h.halves v hv).qlen₀] at hq
  exact ⟨v, hv, rfl, hq⟩

theorem parent₁ (h : CutRows g rows rows₀ rows₁ f₀ f₁ k cut) (hw : w ∈ rows₁) : ∃ v ∈ rows, w = f₁ v ∧ k v < v.qlen := by
  obtain ⟨v, hv, rfl, hq⟩ := (h.mem₁ w).mp hw
  rw [(h.halves v hv).qlen₁] at hq
  exact ⟨v, hv, rfl, by omega⟩

theorem exclusive₀ (h : CutRows g rows rows₀ rows₁ f₀ f₁ k cut) : ExclusiveRows g rows₀ := by
  refine exclusive_of_parents h.exclusive h.nodup₀ f₀ fun w hw => ?_
  obtain ⟨v, hv, rfl, -⟩ := h.parent₀ hw
  refine ⟨v, hv, rfl, 0, ?_, fun j => ?_⟩
  · rw [Nat.zero_add]
    exact (h.halves v hv).nregions₀_le
  · rw [(h.halves v hv).slot₀, Nat.zero_add]

theorem exclusive₁ (h : CutRows g rows rows₀ rows₁ f₀ f₁ k cut) : ExclusiveRows g rows₁ := by
  refine exclusive_of_parents h.exclusive h.nodup₁ f₁ fun w hw => ?_
  obtain ⟨v, hv, rfl, -⟩ := h.parent₁ hw
  exact ⟨v, hv, rfl, _, (h.halves v hv).nregions.ge, (h.halves v hv).slot₁⟩

theorem region₀ (h : CutRows g rows rows₀ rows₁ f₀ f₁ k cut) (hw : w ∈ rows₀) {j : Nat} (hj : j < w.nregions g) :
    ∃ v ∈ rows, w = f₀ v ∧ k v ≠ 0 ∧ j < v.nregions g ∧ w.slot g j = v.slot g j := by
  obtain ⟨v, hv, rfl, hk⟩ := h.parent₀ hw
  exact ⟨v, hv, rfl, hk, hj.trans_le (h.halves v hv).nregions₀_le, (h.halves v hv).slot₀ j⟩

theorem region₁ (h : CutRows g rows rows₀ rows₁ f₀ f₁ k cut) (hw : w ∈ rows₁) {j : Nat} (hj : j < w.nregions g) :
    ∃ v ∈ rows, w = f₁ v ∧ k v < v.qlen ∧ (f₀ v).nbuf g / g.regionSize + j < v.nregions g ∧
      w.slot g j = v.slot g ((f₀ v).nbuf g / g.regionSize + j) := by
  obtain ⟨v, hv, rfl, hk⟩ := h.parent₁ hw
  refine ⟨v, hv, rfl, hk, ?_, (h.halves v hv).slot₁ j⟩
  rw [(h.halves v hv).nregions]
  exact Nat.add_lt_add_left hj _

theorem closedBy (h : CutRows g rows rows₀ rows₁ f₀ f₁ k cut) :
    ClosedBy g rows slot ↔ ClosedBy g rows₀ slot ∨ ClosedBy g rows₁ slot := by
  constructor
  · intro ⟨v, hv, hc⟩
    rcases (h.halves v hv).closes.mp hc with hc | hc
    · exact .inl ⟨f₀ v, (h.mem₀ _).mpr ⟨v, hv, rfl, Halves.qlen_of_closes hc⟩, hc⟩
    · exact .inr ⟨f₁ v, (h.mem₁ _).mpr ⟨v, hv, rfl, Halves.qlen_of_closes hc⟩, hc⟩
  · intro hc
    rcases hc with ⟨w, hw, hc⟩ | ⟨w, hw, hc⟩
    · obtain ⟨v, hv, rfl, -⟩ := h.parent₀ hw
      exact ⟨v, hv, (h.halves v hv).closes.mpr (.inl hc)⟩
    · obtain ⟨v, hv, rfl, -⟩ := h.parent₁ hw
      exact ⟨v, hv, (h.halves v hv).closes.mpr (.inr hc)⟩

theorem mem_claims_iff {rows : List BatchRow} : slot ∈ claims g rows ↔ ∃ v ∈ rows, Claims g v slot := mem_claims

theorem claims_subset (h : CutRows g rows rows₀ rows₁ f₀ f₁ k cut) : claims g rows ⊆ claims g rows₀ ∪ claims g rows₁ := by
  intro slot hs
  obtain ⟨v, hv, hc⟩ := mem_claims_iff.mp hs
  rw [Finset.mem_union]
  rcases (h.halves v hv).claims hc with hc | hc
  · exact .inl (mem_claims_iff.mpr ⟨f₀ v, (h.mem₀ _).mpr ⟨v, hv, rfl, hc.1⟩, hc⟩)
  · exact .inr (mem_claims_iff.mpr ⟨f₁ v, (h.mem₁ _).mpr ⟨v, hv, rfl, hc.1⟩, hc⟩)

theorem claimed_or_closed (h : CutRows g rows rows₀ rows₁ f₀ f₁ k cut)
    (hs : slot ∈ claims g rows₀ ∪ claims g rows₁) : slot ∈ claims g rows ∨ ClosedBy g rows slot := by
  rcases Finset.mem_union.mp hs with hs | hs
  · obtain ⟨w, hw, hc⟩ := mem_claims_iff.mp hs
    obtain ⟨v, hv, rfl, -⟩ := h.parent₀ hw
    exact ((h.halves v hv).of_claims₀ hc).imp (fun hc => mem_claims_iff.mpr ⟨v, hv, hc⟩) fun hc => ⟨v, hv, hc⟩
  · obtain ⟨w, hw, hc⟩ := mem_claims_iff.mp hs
    obtain ⟨v, hv, rfl, -⟩ := h.parent₁ hw
    exact ((h.halves v hv).of_claims₁ hc).imp (fun hc => mem_claims_iff.mpr ⟨v, hv, hc⟩) fun hc => ⟨v, hv, hc⟩

end CutRows

/-! ## Tables -/

/-- The tables of the two steps from `b`: `t` after the whole batch, `t₀` and `t₁` after each microbatch. -/
structure CutTables (g : Step4DSAGeometry) (rows rows₀ rows₁ : List BatchRow) (b t t₀ t₁ : Step4PendingTable) : Prop where
  whole : TouchedFrom b (claims g rows) t
  first : TouchedFrom b (claims g rows₀) t₀
  second : TouchedFrom b (claims g rows₀ ∪ claims g rows₁) t₁
  heads : ∀ v ∈ rows, ∀ x ∈ v.headSlots g, ∃ row, b.rowOfSlot x = some row ∧ t.rowOfSlot x = some row
  heads₀ : ∀ v ∈ rows₀, ∀ x ∈ v.headSlots g, ∃ row, b.rowOfSlot x = some row ∧ t₀.rowOfSlot x = some row
  heads₁ : ∀ v ∈ rows₁, ∀ x ∈ v.headSlots g, ∃ row, t₀.rowOfSlot x = some row ∧ t₁.rowOfSlot x = some row
  keeps : ∀ x ∈ claims g rows₀, ∀ row, t₀.rowOfSlot x = some row → t₁.rowOfSlot x = some row

section
variable {κ σ : Type} {g : Step4DSAGeometry} {compress : List κ → σ} {t : Step4PendingTable} {index : Nat → κ}
  {T T' : LayerTensors κ σ} {rows : List BatchRow} {v : BatchRow} {x row : Nat}

/-- The pending row of a region that the batch does not claim is left alone. -/
theorem updated_unclaimed (h : Updated compress g rows t index T T') (hwf : t.Wf) (hq : ∀ v ∈ rows, v.qlen ≠ 0)
    (hmap : ∀ s ∈ claims g rows, ∃ row, t.rowOfSlot s = some row) (hx : t.rowOfSlot x = some row)
    (hnot : x ∉ claims g rows) (i : Nat) : T'.pending (row, i) = T.pending (row, i) := by
  have hne : ∀ s ∈ claims g rows, row ≠ t.rowOf s := by
    intro s hs he
    obtain ⟨r, hr⟩ := hmap s hs
    rw [rowOf_eq hr] at he
    subst he
    exact hnot (hwf.slot_inj hx hr ▸ hs)
  apply h.pending_other
  · exact Nat.ne_of_lt (hwf.row_lt hx)
  · intro v hv hk j hj
    exact hne _ (kept_mem_claims hq hv hk hj)
  · intro v hv hi
    exact hne _ (last_mem_claims hq hv (by omega))

theorem token_congr_table {b : Step4PendingTable} {P : Nat × Nat → κ}
    (hq : v.qlen ≠ 0) (hrow : ∀ x ∈ v.headSlots g, ∃ row, b.rowOfSlot x = some row ∧ t.rowOfSlot x = some row) (m : Nat) :
    v.token g t P index m = v.token g b P index m := by
  unfold BatchRow.token
  by_cases hm : m < v.head g
  · obtain ⟨row, hb, ht⟩ := hrow (v.slot g 0) (BatchRow.mem_headSlots.mpr ⟨⟨hq, by omega⟩, rfl⟩)
    rw [if_pos hm, if_pos hm, rowOf_eq hb, rowOf_eq ht]
  · rw [if_neg hm, if_neg hm]

end

namespace CutRows

variable {κ σ : Type} {g : Step4DSAGeometry} {compress : List κ → σ} {rows rows₀ rows₁ : List BatchRow}
  {f₀ f₁ : BatchRow → BatchRow} {k : BatchRow → Nat} {cut : Nat} {b t t₀ t₁ : Step4PendingTable} {index : Nat → κ}
  {T T' T₀ T₁ : LayerTensors κ σ} {v w : BatchRow} {slot : Nat}

/-! ## Tokens -/

theorem token₀ (h : CutRows g rows rows₀ rows₁ f₀ f₁ k cut) (ht : CutTables g rows rows₀ rows₁ b t t₀ t₁) (hv : v ∈ rows)
    (hk : k v ≠ 0) (m : Nat) : (f₀ v).token g t₀ T.pending index m = v.token g b T.pending index m := by
  have hh := h.halves v hv
  have hf := h.first_mem hv hk
  rw [token_congr_table (h.active₀ _ hf) (ht.heads₀ _ hf)]
  unfold BatchRow.token
  rw [hh.head₀, hh.slot₀, h.start₀ v hv]

/-- A region of a row whose tokens all come after the cut is not claimed by the first microbatch. -/
theorem not_claimed₀ (h : CutRows g rows rows₀ rows₁ f₀ f₁ k cut) (hv : v ∈ rows) {j : Nat} (hj : j < v.nregions g)
    (hlate : k v = 0 ∨ (f₀ v).nregions g ≤ j) : v.slot g j ∉ claims g rows₀ := by
  intro hc
  obtain ⟨w, hw, hs⟩ := Step4.claims_subset hc
  obtain ⟨j', hj', he⟩ := List.mem_map.mp hs
  rw [List.mem_range] at hj'
  obtain ⟨v', hv', rfl, hk', hlt, hslot⟩ := h.region₀ hw hj'
  obtain ⟨rfl, rfl⟩ := h.exclusive.slot_inj hv' hv hlt hj (hslot.symm.trans he)
  rcases hlate with hz | hle
  · exact hk' hz
  · omega

/-- A region that the second half has no token of is not claimed by the second microbatch. -/
theorem not_claimed₁ (h : CutRows g rows rows₀ rows₁ f₀ f₁ k cut) (hv : v ∈ rows) {j : Nat} (hj : j < v.nregions g)
    (hearly : v.qlen ≤ k v ∨ j < (f₀ v).nbuf g / g.regionSize) : v.slot g j ∉ claims g rows₁ := by
  intro hc
  obtain ⟨w, hw, hs⟩ := Step4.claims_subset hc
  obtain ⟨j', hj', he⟩ := List.mem_map.mp hs
  rw [List.mem_range] at hj'
  obtain ⟨v', hv', rfl, hk', hlt, hslot⟩ := h.region₁ hw hj'
  obtain ⟨rfl, hjj⟩ := h.exclusive.slot_inj hv' hv hlt hj (hslot.symm.trans he)
  rcases hearly with hz | hle
  · omega
  · rw [← hjj] at hle
    exact absurd hle (Nat.not_lt.mpr (Nat.le_add_right _ _))

theorem mapped_first (ht : CutTables g rows rows₀ rows₁ b t t₀ t₁) : ∀ s ∈ claims g rows₀, ∃ row, t₀.rowOfSlot s = some row :=
  fun s hs => (ht.first.claimed s hs).imp fun _ hr => hr.1

theorem mapped_second (ht : CutTables g rows rows₀ rows₁ b t t₀ t₁) :
    ∀ s ∈ claims g rows₁, ∃ row, t₁.rowOfSlot s = some row :=
  fun s hs => (ht.second.claimed s (Finset.mem_union_right _ hs)).imp fun _ hr => hr.1

/-- The second half finds the head of its first region where the first half left it. -/
theorem token₁ (h : CutRows g rows rows₀ rows₁ f₀ f₁ k cut) (ht : CutTables g rows rows₀ rows₁ b t t₀ t₁)
    (h₀ : Updated compress g rows₀ t₀ index T T₀) (hv : v ∈ rows) (hk : k v < v.qlen) {m : Nat} :
    (f₁ v).token g t₁ T₀.pending (fun i => index (cut + i)) m =
      v.token g b T.pending index ((f₀ v).nbuf g / g.regionSize * g.regionSize + m) := by
  have hh := h.halves v hv
  have hsecond := h.second_mem hv hk
  have hsum := BatchRow.nbuf_eq (g := g) (v := f₀ v)
  have hnbuf := hh.nbuf₀ (g := g)
  have hhead := hh.head₁ (g := g)
  by_cases hm : m < (f₁ v).head g
  · have hslot : (f₁ v).slot g 0 = v.slot g ((f₀ v).nbuf g / g.regionSize) := by rw [hh.slot₁, Nat.add_zero]
    obtain ⟨row, hr₀, hr₁⟩ := ht.heads₁ _ hsecond _
      (BatchRow.mem_headSlots.mpr ⟨⟨h.active₁ _ hsecond, by omega⟩, rfl⟩)
    conv_lhs => unfold BatchRow.token
    rw [if_pos hm, rowOf_eq hr₁]
    by_cases hk0 : k v = 0
    · -- the whole row comes after the cut
      have hz : (f₀ v).nbuf g / g.regionSize = 0 ∧ (f₁ v).head g = v.head g := by
        rw [hk0] at hh
        exact hh.zero
      rw [hslot, hz.1] at hr₀
      have hnot : v.slot g 0 ∉ claims g rows₀ := h.not_claimed₀ hv (BatchRow.nregions_pos (h.active v hv)) (.inl hk0)
      rw [updated_unclaimed h₀ ht.first.wf h.active₀ (mapped_first ht) hr₀ hnot, hz.1, Nat.zero_mul, Nat.zero_add]
      unfold BatchRow.token
      rw [if_pos (hz.2 ▸ hm), rowOf_eq (ht.first.others _ hnot row hr₀).1]
    · have hfirst := h.first_mem hv hk0
      have htail : m < (f₀ v).tail g := hhead ▸ hm
      have hlast : (f₀ v).lastSlot g = v.slot g ((f₀ v).nbuf g / g.regionSize) := by
        rw [BatchRow.lastSlot_eq (by omega), hh.slot₀]
      rw [hslot, ← hlast] at hr₀
      have hwritten := h₀.written _ (PendingWrite.tail hfirst htail)
      rw [rowOf_eq hr₀] at hwritten
      rw [hwritten]
      exact h.token₀ ht hv hk0 _
  · have hge : ¬(f₀ v).nbuf g / g.regionSize * g.regionSize + m < v.head g := by omega
    have hstart := h.start₁ v hv hk
    unfold BatchRow.token
    rw [if_neg hm, if_neg hge]
    generalize (f₀ v).nbuf g / g.regionSize * g.regionSize = off at *
    change index (cut + _) = _
    congr 1
    omega

/-! ## Summaries -/

theorem summaries_eq (h : CutRows g rows rows₀ rows₁ f₀ f₁ k cut) (ht : CutTables g rows rows₀ rows₁ b t t₀ t₁)
    (hU : Updated compress g rows t index T T') (h₀ : Updated compress g rows₀ t₀ index T T₀)
    (h₁ : Updated compress g rows₁ t₁ (fun i => index (cut + i)) T₀ T₁) (slot : Nat) :
    T₁.summary slot = T'.summary slot := by
  by_cases hc : ClosedBy g rows slot
  · obtain ⟨v, hv, j, hj, rfl⟩ := hc
    have hh := h.halves v hv
    have hwhole := hU.stored _ (SummaryWrite.closed hv hj)
    dsimp only at hwhole
    rw [hwhole]
    by_cases hj₀ : j < (f₀ v).nbuf g / g.regionSize
    · have hk : k v ≠ 0 := by
        intro hk
        rw [hk] at hh
        rw [hh.zero.1] at hj₀
        exact Nat.not_lt_zero _ hj₀
      have hother : T₁.summary (v.slot g j) = T₀.summary (v.slot g j) := by
        apply h₁.summary_other
        intro w hw j' hj' he
        obtain ⟨v', hv', -, -, hlt, hslot⟩ := h.region₁ hw (BatchRow.lt_nregions hj')
        obtain ⟨rfl, hjj⟩ := h.exclusive.slot_inj hv hv' (BatchRow.lt_nregions hj) hlt (he.trans hslot)
        omega
      have hfirst := h₀.stored _ (SummaryWrite.closed (h.first_mem hv hk) hj₀)
      dsimp only at hfirst
      rw [hh.slot₀] at hfirst
      rw [hother, hfirst]
      unfold regionTokens
      congr 1
      apply List.map_congr_left
      intro i _
      rw [h.token₀ ht hv hk, token_congr_table (h.active v hv) (ht.heads v hv)]
    · have hj₁ : j - (f₀ v).nbuf g / g.regionSize < (f₁ v).nbuf g / g.regionSize := by
        rw [hh.full] at hj
        omega
      have hback : (f₀ v).nbuf g / g.regionSize + (j - (f₀ v).nbuf g / g.regionSize) = j :=
        Nat.add_sub_cancel' (Nat.not_lt.mp hj₀)
      have hk : k v < v.qlen := by
        apply Nat.lt_of_le_of_ne hh.le
        intro hk
        rw [hk] at hh
        rw [hh.whole] at hj₀
        exact hj₀ hj
      have hsecond := h₁.stored _ (SummaryWrite.closed (h.second_mem hv hk) hj₁)
      dsimp only at hsecond
      rw [hh.slot₁, hback] at hsecond
      rw [hsecond]
      unfold regionTokens
      congr 1
      apply List.map_congr_left
      intro i _
      rw [h.token₁ ht h₀ hv hk, token_congr_table (h.active v hv) (ht.heads v hv), ← Nat.add_assoc, ← Nat.add_mul, hback]
  · have hnot : ∀ {rows' : List BatchRow}, ¬ClosedBy g rows' slot →
        ∀ v ∈ rows', ∀ j < v.nbuf g / g.regionSize, slot ≠ v.slot g j :=
      fun hn v hv j hj he => hn ⟨v, hv, j, hj, he⟩
    rw [hU.summary_other _ (hnot hc)]
    rw [h.closedBy, not_or] at hc
    rw [h₁.summary_other _ (hnot hc.2), h₀.summary_other _ (hnot hc.1)]

/-! ## Pending rows -/

/-- A region that no row ends in and none closes has no token of the batch. -/
theorem not_region (hopen : ¬ClosedBy g rows slot) (hlast : ∀ v ∈ rows, ¬(v.tail g ≠ 0 ∧ v.lastSlot g = slot)) :
    ∀ v ∈ rows, ∀ j < v.nregions g, v.slot g j ≠ slot := by
  intro v hv j hj he
  by_cases hc : j < v.nbuf g / g.regionSize
  · exact hopen ⟨v, hv, j, hc, he.symm⟩
  · have htail : v.tail g ≠ 0 := by
      intro hz
      rw [BatchRow.nregions_eq, if_pos hz] at hj
      exact hc hj
    apply hlast v hv
    refine ⟨htail, ?_⟩
    rw [BatchRow.nregions_eq, if_neg htail] at hj
    have hj' : v.nbuf g / g.regionSize = j := by omega
    rw [BatchRow.lastSlot_eq htail, hj', he]

theorem tail_eq (h : CutRows g rows rows₀ rows₁ f₀ f₁ k cut) (ht : CutTables g rows rows₀ rows₁ b t t₀ t₁)
    (hU : Updated compress g rows t index T T') (h₀ : Updated compress g rows₀ t₀ index T T₀)
    (h₁ : Updated compress g rows₁ t₁ (fun i => index (cut + i)) T₀ T₁) (hv : v ∈ rows) {i : Nat} (hi : i < v.tail g) :
    T₁.pending (t₁.rowOf (v.lastSlot g), i) = T'.pending (t.rowOf (v.lastSlot g), i) := by
  have hh := h.halves v hv
  have htail : v.tail g ≠ 0 := by omega
  have hwhole := hU.written _ (PendingWrite.tail hv hi)
  dsimp only at hwhole
  rw [hwhole, token_congr_table (h.active v hv) (ht.heads v hv)]
  by_cases hk : k v < v.qlen
  · have hi₁ : i < (f₁ v).tail g := hh.tail ▸ hi
    have hsecond := h₁.written _ (PendingWrite.tail (h.second_mem hv hk) hi₁)
    dsimp only at hsecond
    rw [hh.lastSlot₁ htail, h.token₁ ht h₀ hv hk, ← Nat.add_assoc, ← Nat.add_mul, ← hh.full] at hsecond
    exact hsecond
  · have hkq : k v = v.qlen := Nat.le_antisymm hh.le (Nat.not_lt.mp hk)
    have hk0 : k v ≠ 0 := hkq ▸ h.active v hv
    have hnbuf : (f₀ v).nbuf g = v.nbuf g := by
      rw [hkq] at hh
      exact hh.whole
    have hi₀ : i < (f₀ v).tail g := by
      unfold BatchRow.tail at hi ⊢
      rwa [hnbuf]
    have hlast : (f₀ v).lastSlot g = v.lastSlot g := by
      rw [BatchRow.lastSlot_eq (by omega), BatchRow.lastSlot_eq htail, hh.slot₀, hnbuf]
    have hfirst := h₀.written _ (PendingWrite.tail (h.first_mem hv hk0) hi₀)
    dsimp only at hfirst
    rw [hlast, h.token₀ ht hv hk0, hnbuf] at hfirst
    -- the second microbatch does not come near the row
    have hclaim : v.lastSlot g ∈ claims g rows₀ := hlast ▸ last_mem_claims h.active₀ (h.first_mem hv hk0) (by omega)
    obtain ⟨row, hr⟩ := mapped_first ht _ hclaim
    have hr₁ := ht.keeps _ hclaim row hr
    have hnot : v.lastSlot g ∉ claims g rows₁ := by
      have hpos := BatchRow.nregions_pos (g := g) (h.active v hv)
      exact h.not_claimed₁ hv (Nat.sub_lt hpos Nat.one_pos) (.inl hkq.ge)
    rw [rowOf_eq hr₁, updated_unclaimed h₁ ht.second.wf h.active₁ (mapped_second ht) hr₁ hnot, ← rowOf_eq hr, hfirst]

theorem unclaimed_eq (h : CutRows g rows rows₀ rows₁ f₀ f₁ k cut) (ht : CutTables g rows rows₀ rows₁ b t t₀ t₁)
    (hwf : b.Wf) (hU : Updated compress g rows t index T T') (h₀ : Updated compress g rows₀ t₀ index T T₀)
    (h₁ : Updated compress g rows₁ t₁ (fun i => index (cut + i)) T₀ T₁) {row : Nat} (hr₁ : t₁.rowOfSlot slot = some row)
    (hfree : slot ∉ claims g rows₀ ∪ claims g rows₁) (i : Nat) :
    T₁.pending (t₁.rowOf slot, i) = T'.pending (t.rowOf slot, i) := by
  have hnot : slot ∉ claims g rows := fun hc => hfree (h.claims_subset hc)
  have hr := ht.whole.mapped_of_subset hwf ht.second h.claims_subset hfree hr₁
  have hr₀ := ht.first.mapped_of_subset hwf ht.second Finset.subset_union_left hfree hr₁
  rw [Finset.mem_union, not_or] at hfree
  rw [rowOf_eq hr₁, rowOf_eq hr, updated_unclaimed h₁ ht.second.wf h.active₁ (mapped_second ht) hr₁ hfree.2,
    updated_unclaimed h₀ ht.first.wf h.active₀ (mapped_first ht) hr₀ hfree.1,
    updated_unclaimed hU ht.whole.wf h.active (fun s hs => (ht.whole.claimed s hs).imp fun _ hr => hr.1) hr hnot]

theorem pendingTokens_eq (h : CutRows g rows rows₀ rows₁ f₀ f₁ k cut) (ht : CutTables g rows rows₀ rows₁ b t t₀ t₁)
    (hwf : b.Wf) (hU : Updated compress g rows t index T T') (h₀ : Updated compress g rows₀ t₀ index T T₀)
    (h₁ : Updated compress g rows₁ t₁ (fun i => index (cut + i)) T₀ T₁) (hopen : ¬ClosedBy g rows slot) {row : Nat}
    (hr₁ : t₁.rowOfSlot slot = some row) :
    pendingTokens g rows t₁ T₁.pending slot = pendingTokens g rows t T'.pending slot := by
  unfold pendingTokens
  apply List.map_congr_left
  intro i hi
  rw [List.mem_range] at hi
  unfold tokensHeld at hi
  cases hf : rows.find? fun v => v.tail g ≠ 0 ∧ v.lastSlot g = slot with
  | some v =>
    rw [hf] at hi
    have hv := List.mem_of_find?_eq_some hf
    have hfound := List.find?_some hf
    rw [decide_eq_true_eq] at hfound
    obtain ⟨-, rfl⟩ := hfound
    exact h.tail_eq ht hU h₀ h₁ hv hi
  | none =>
    have hlast : ∀ v ∈ rows, ¬(v.tail g ≠ 0 ∧ v.lastSlot g = slot) := by
      intro v hv hc
      exact List.find?_eq_none.mp hf v hv (decide_eq_true hc)
    refine h.unclaimed_eq ht hwf hU h₀ h₁ hr₁ ?_ i
    intro hc
    rcases h.claimed_or_closed hc with hc | hc
    · obtain ⟨v, hv, hs⟩ := Step4.claims_subset hc
      obtain ⟨j, hj, he⟩ := List.mem_map.mp hs
      exact not_region hopen hlast v hv j (List.mem_range.mp hj) he
    · exact hopen hc

end CutRows

end VllmHcu.Dbo
