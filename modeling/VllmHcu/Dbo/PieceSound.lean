import VllmHcu.Dbo.Schedule
import VllmHcu.Step4.RoomSound

/-!
# A row cut in two

The regions of the two halves of a row are those of the row. The region at the
cut is the tail of the first half and the head of the second, so the halves claim
what the row claims, and otherwise only regions that the row closes.
-/

namespace VllmHcu.Dbo

open Step4

/-- `v₀` has the first `k` tokens of `v` and `v₁` the others. -/
structure Halves (v v₀ v₁ : BatchRow) (k : Nat) : Prop where
  le : k ≤ v.qlen
  pages₀ : v₀.pages = v.pages
  pages₁ : v₁.pages = v.pages
  past₀ : v₀.past = v.past
  past₁ : v₁.past = v.past + k
  qlen₀ : v₀.qlen = k
  qlen₁ : v₁.qlen = v.qlen - k

namespace Halves

variable {g : Step4DSAGeometry} {v v₀ v₁ : BatchRow} {k : Nat}

/-! ## Regions -/

theorem head₀ (h : Halves v v₀ v₁ k) : v₀.head g = v.head g := by
  unfold BatchRow.head
  rw [h.past₀]

theorem firstRegion₀ (h : Halves v v₀ v₁ k) : v₀.firstRegion g = v.firstRegion g := by
  unfold BatchRow.firstRegion
  rw [h.past₀]

theorem slot₀ (h : Halves v v₀ v₁ k) (j : Nat) : v₀.slot g j = v.slot g j := by
  unfold BatchRow.slot BatchRow.slotOf
  rw [h.firstRegion₀, h.pages₀]

theorem nbuf₀ (h : Halves v v₀ v₁ k) : v₀.nbuf g = v.head g + k := by
  unfold BatchRow.nbuf
  rw [h.head₀, h.qlen₀]

theorem past_add (h : Halves v v₀ v₁ k) : v.past + k = v₀.nbuf g + g.regionSize * v.firstRegion g := by
  have := BatchRow.past_eq (g := g) (v := v)
  rw [h.nbuf₀, Nat.mul_comm]
  omega

theorem firstRegion₁ (h : Halves v v₀ v₁ k) : v₁.firstRegion g = v.firstRegion g + v₀.nbuf g / g.regionSize := by
  unfold BatchRow.firstRegion
  rw [h.past₁, h.past_add (g := g), Nat.add_mul_div_left _ _ g.regionSize_pos, Nat.add_comm]
  rfl

theorem head₁ (h : Halves v v₀ v₁ k) : v₁.head g = v₀.tail g := by
  unfold BatchRow.head BatchRow.tail
  rw [h.past₁, h.past_add (g := g), Nat.add_mul_mod_self_left]

theorem slot₁ (h : Halves v v₀ v₁ k) (j : Nat) : v₁.slot g j = v.slot g (v₀.nbuf g / g.regionSize + j) := by
  unfold BatchRow.slot BatchRow.slotOf
  rw [h.firstRegion₁, h.pages₁, Nat.add_assoc]

theorem nbuf (h : Halves v v₀ v₁ k) : v.nbuf g = v₁.nbuf g + g.regionSize * (v₀.nbuf g / g.regionSize) := by
  have hsum := BatchRow.nbuf_eq (g := g) (v := v₀)
  have h₀ := h.nbuf₀ (g := g)
  have hle := h.le
  unfold BatchRow.nbuf at h₀ ⊢
  rw [h.head₁, h.qlen₁, Nat.mul_comm]
  unfold BatchRow.nbuf at hsum
  omega

theorem full (h : Halves v v₀ v₁ k) :
    v.nbuf g / g.regionSize = v₀.nbuf g / g.regionSize + v₁.nbuf g / g.regionSize := by
  rw [h.nbuf, Nat.add_mul_div_left _ _ g.regionSize_pos, Nat.add_comm]

theorem tail (h : Halves v v₀ v₁ k) : v.tail g = v₁.tail g := by
  unfold BatchRow.tail
  rw [h.nbuf, Nat.add_mul_mod_self_left]

theorem nregions (h : Halves v v₀ v₁ k) : v.nregions g = v₀.nbuf g / g.regionSize + v₁.nregions g := by
  rw [BatchRow.nregions_eq, BatchRow.nregions_eq, h.full, h.tail, Nat.add_assoc]

theorem nregions₀_le (h : Halves v v₀ v₁ k) : v₀.nregions g ≤ v.nregions g := by
  have hle : v₀.nbuf g ≤ v.nbuf g := by
    have := h.le
    rw [h.nbuf₀]
    unfold BatchRow.nbuf
    omega
  unfold BatchRow.nregions
  exact Nat.div_le_div_right (by omega)

theorem lastSlot₁ (h : Halves v v₀ v₁ k) (ht : v.tail g ≠ 0) : v₁.lastSlot g = v.lastSlot g := by
  rw [BatchRow.lastSlot_eq ht, BatchRow.lastSlot_eq (h.tail ▸ ht), h.slot₁, h.full]

theorem zero (h : Halves v v₀ v₁ 0) : v₀.nbuf g / g.regionSize = 0 ∧ v₁.head g = v.head g := by
  have h₀ : v₀.nbuf g = v.head g := h.nbuf₀
  constructor
  · rw [h₀, Nat.div_eq_zero_iff]
    exact .inr BatchRow.head_lt
  · rw [h.head₁]
    unfold BatchRow.tail
    rw [h₀, Nat.mod_eq_of_lt BatchRow.head_lt]

theorem whole (h : Halves v v₀ v₁ v.qlen) : v₀.nbuf g = v.nbuf g := h.nbuf₀

/-- The region at the cut is open at the end of the row, or the row closes it. -/
theorem cutRegion (h : Halves v v₀ v₁ k) (hk : k < v.qlen) :
    v₀.nbuf g / g.regionSize < v.nbuf g / g.regionSize ∨
      v.tail g ≠ 0 ∧ v.lastSlot g = v.slot g (v₀.nbuf g / g.regionSize) := by
  by_cases hclosed : v₁.nbuf g < g.regionSize
  · have hzero : v₁.nbuf g / g.regionSize = 0 := Nat.div_eq_of_lt hclosed
    have htail : v.tail g ≠ 0 := by
      rw [h.tail]
      unfold BatchRow.tail
      rw [Nat.mod_eq_of_lt hclosed]
      have := h.qlen₁
      unfold BatchRow.nbuf
      omega
    refine .inr ⟨htail, ?_⟩
    rw [BatchRow.lastSlot_eq htail, h.full, hzero, Nat.add_zero]
  · left
    rw [h.full]
    have := Nat.div_pos (Nat.not_lt.mp hclosed) g.regionSize_pos
    omega

end Halves

/-! ## Claims -/

section
variable (g : Step4DSAGeometry)

/-- The row claims the region, as `claims` counts it. -/
def Claims (v : BatchRow) (slot : Nat) : Prop :=
  v.qlen ≠ 0 ∧ (slot ∈ v.headSlots g ∨ slot ∈ v.keptSlots g ∨ slot ∈ v.tailSlots g)

/-- The region fills up in this step. -/
def Closes (v : BatchRow) (slot : Nat) : Prop := ∃ j < v.nbuf g / g.regionSize, slot = v.slot g j

end

namespace Halves

variable {g : Step4DSAGeometry} {v v₀ v₁ : BatchRow} {k : Nat} {slot : Nat}

theorem closes (h : Halves v v₀ v₁ k) : Closes g v slot ↔ Closes g v₀ slot ∨ Closes g v₁ slot := by
  constructor
  · intro ⟨j, hj, hs⟩
    rw [h.full] at hj
    by_cases hj₀ : j < v₀.nbuf g / g.regionSize
    · exact .inl ⟨j, hj₀, by rw [h.slot₀, hs]⟩
    · refine .inr ⟨j - v₀.nbuf g / g.regionSize, by omega, ?_⟩
      rw [h.slot₁, hs, Nat.add_sub_cancel' (Nat.not_lt.mp hj₀)]
  · intro hc
    rcases hc with ⟨j, hj, hs⟩ | ⟨j, hj, hs⟩
    · refine ⟨j, ?_, by rw [hs, h.slot₀]⟩
      rw [h.full]
      exact hj.trans_le (Nat.le_add_right _ _)
    · refine ⟨v₀.nbuf g / g.regionSize + j, ?_, by rw [hs, h.slot₁]⟩
      rw [h.full]
      exact Nat.add_lt_add_left hj _

theorem claims_head (h : Halves v v₀ v₁ k) (hs : slot ∈ v.headSlots g) : Claims g v₀ slot ∨ Claims g v₁ slot := by
  obtain ⟨⟨hq, hh⟩, rfl⟩ := BatchRow.mem_headSlots.mp hs
  by_cases hk : k = 0
  · subst hk
    obtain ⟨hfull, hhead⟩ := h.zero (g := g)
    have hq₁ : v₁.qlen ≠ 0 := by rwa [h.qlen₁]
    refine .inr ⟨hq₁, .inl (BatchRow.mem_headSlots.mpr ⟨⟨hq₁, hhead ▸ hh⟩, ?_⟩)⟩
    rw [h.slot₁, hfull]
  · have hq₀ : v₀.qlen ≠ 0 := by rwa [h.qlen₀]
    exact .inl ⟨hq₀, .inl (BatchRow.mem_headSlots.mpr ⟨⟨hq₀, h.head₀ ▸ hh⟩, (h.slot₀ 0).symm⟩)⟩

theorem claims_tail (h : Halves v v₀ v₁ k) (hq : v.qlen ≠ 0) (hs : slot ∈ v.tailSlots g) :
    Claims g v₀ slot ∨ Claims g v₁ slot := by
  obtain ⟨ht, rfl⟩ := BatchRow.mem_tailSlots.mp hs
  by_cases hk : k = v.qlen
  · subst hk
    have hnbuf := h.whole (g := g)
    have ht₀ : v₀.tail g ≠ 0 := by
      unfold BatchRow.tail at ht ⊢
      rwa [hnbuf]
    have hq₀ : v₀.qlen ≠ 0 := by rwa [h.qlen₀]
    refine .inl ⟨hq₀, .inr (.inr (BatchRow.mem_tailSlots.mpr ⟨ht₀, ?_⟩))⟩
    rw [BatchRow.lastSlot_eq ht₀, BatchRow.lastSlot_eq ht, h.slot₀, hnbuf]
  · have hq₁ : v₁.qlen ≠ 0 := by
      have := h.le
      rw [h.qlen₁]
      omega
    exact .inr ⟨hq₁, .inr (.inr (BatchRow.mem_tailSlots.mpr ⟨h.tail ▸ ht, (h.lastSlot₁ ht).symm⟩))⟩

theorem one_closes (hq : v.qlen = 1) {j : Nat} (hj : j < v.nbuf g / g.regionSize) : j = 0 ∧ v.head g ≠ 0 := by
  have hlt := BatchRow.head_lt (g := g) (v := v)
  have hR := g.two_le_regionSize
  have hle : (j + 1) * g.regionSize ≤ v.nbuf g := BatchRow.full_iff.mpr hj
  have hn : v.nbuf g = v.head g + 1 := BatchRow.nbuf_one hq
  rw [Nat.add_mul, Nat.one_mul] at hle
  have hj0 : j = 0 := by
    by_contra hne
    have := Nat.le_mul_of_pos_left g.regionSize (Nat.pos_of_ne_zero hne)
    omega
  refine ⟨hj0, ?_⟩
  subst hj0
  omega

theorem mem_completed {w : BatchRow} :
    slot ∈ w.completed g ↔ w.qlen ≠ 0 ∧ (w.ClosesHead g ∧ slot = w.slot g 0 ∨ slot ∈ w.keptSlots g) := by
  unfold BatchRow.completed closedHead
  by_cases hq : w.qlen = 0
  · simp [hq]
  · by_cases hc : w.ClosesHead g
    · simp [hq, hc]
    · simp [hq, hc]

theorem claims_of_completed {w : BatchRow} (hs : slot ∈ w.completed g) : Claims g w slot := by
  obtain ⟨hq, ⟨hc, rfl⟩ | hs⟩ := mem_completed.mp hs
  · exact ⟨hq, .inl (BatchRow.mem_headSlots.mpr ⟨⟨hq, hc.1⟩, rfl⟩)⟩
  · exact ⟨hq, .inr (.inl hs)⟩

theorem closes_of_kept {w : BatchRow} (hs : slot ∈ w.keptSlots g) : Closes g w slot := by
  obtain ⟨-, j, hj, -, he⟩ := BatchRow.mem_keptSlots.mp hs
  exact ⟨j, hj, he⟩

theorem closes_of_completed {w : BatchRow} (hs : slot ∈ w.completed g) : Closes g w slot := by
  obtain ⟨-, ⟨hc, rfl⟩ | hs⟩ := mem_completed.mp hs
  · exact ⟨0, (BatchRow.closesHead_iff.mp hc).2, rfl⟩
  · exact closes_of_kept hs

theorem qlen_of_closes {w : BatchRow} (hc : Closes g w slot) : w.qlen ≠ 0 := by
  obtain ⟨j, hj, -⟩ := hc
  intro hq
  have hn : w.nbuf g < g.regionSize := by
    unfold BatchRow.nbuf
    rw [hq]
    exact BatchRow.head_lt
  rw [Nat.div_eq_of_lt hn] at hj
  exact Nat.not_lt_zero _ hj

/-- A region that a verify row keeps is completed by the half that closes it. -/
theorem completed_kept (h : Halves v v₀ v₁ k) (hs : slot ∈ v.keptSlots g) :
    slot ∈ v₀.completed g ∨ slot ∈ v₁.completed g := by
  obtain ⟨⟨-, hspec⟩, j, hj, hnot, rfl⟩ := BatchRow.mem_keptSlots.mp hs
  have hle := h.le
  have hq₀ := h.qlen₀
  have hq₁ := h.qlen₁
  have kept : ∀ {w : BatchRow} {i : Nat}, w.qlen ≤ v.qlen → i < w.nbuf g / g.regionSize → ¬(i = 0 ∧ w.head g ≠ 0) →
      w.slot g i ∈ w.completed g := by
    intro w i hw hi hn
    have hq : w.qlen ≠ 0 := qlen_of_closes ⟨i, hi, rfl⟩
    have hone : w.qlen ≠ 1 := fun he => hn (one_closes he hi)
    exact mem_completed.mpr ⟨hq, .inr (BatchRow.mem_keptSlots.mpr ⟨⟨by omega, by omega⟩, i, hi, hn, rfl⟩)⟩
  by_cases hj₀ : j < v₀.nbuf g / g.regionSize
  · left
    rw [← h.slot₀]
    exact kept (by omega) hj₀ (by rwa [h.head₀])
  · right
    have hj' : v₀.nbuf g / g.regionSize + (j - v₀.nbuf g / g.regionSize) = j := Nat.add_sub_cancel' (Nat.not_lt.mp hj₀)
    rw [h.full] at hj
    have hi : j - v₀.nbuf g / g.regionSize < v₁.nbuf g / g.regionSize := by omega
    rw [← hj', ← h.slot₁]
    by_cases hc : j - v₀.nbuf g / g.regionSize = 0 ∧ v₁.head g ≠ 0
    · rw [hc.1] at hi ⊢
      exact mem_completed.mpr ⟨qlen_of_closes ⟨0, hi, rfl⟩, .inl ⟨BatchRow.closesHead_iff.mpr ⟨hc.2, hi⟩, rfl⟩⟩
    · exact kept (by omega) hi hc

theorem completed (h : Halves v v₀ v₁ k) (hs : slot ∈ v.completed g) : slot ∈ v₀.completed g ∨ slot ∈ v₁.completed g := by
  obtain ⟨-, ⟨hc, rfl⟩ | hs⟩ := mem_completed.mp hs
  · obtain ⟨hh, hpos⟩ := BatchRow.closesHead_iff.mp hc
    by_cases h₀ : 0 < v₀.nbuf g / g.regionSize
    · refine .inl (mem_completed.mpr ⟨qlen_of_closes ⟨0, h₀, rfl⟩, .inl ⟨?_, (h.slot₀ 0).symm⟩⟩)
      exact BatchRow.closesHead_iff.mpr ⟨h.head₀ ▸ hh, h₀⟩
    · have hz : v₀.nbuf g / g.regionSize = 0 := Nat.eq_zero_of_not_pos h₀
      rw [h.full, hz, Nat.zero_add] at hpos
      have hhead : v₁.head g ≠ 0 := by
        have hsum := BatchRow.nbuf_eq (g := g) (v := v₀)
        rw [hz, Nat.zero_mul, Nat.zero_add] at hsum
        have := h.nbuf₀ (g := g)
        rw [h.head₁]
        omega
      refine .inr (mem_completed.mpr ⟨qlen_of_closes ⟨0, hpos, rfl⟩, .inl ⟨?_, ?_⟩⟩)
      · exact BatchRow.closesHead_iff.mpr ⟨hhead, hpos⟩
      · rw [h.slot₁, hz]
  · exact h.completed_kept hs

theorem claims_kept (h : Halves v v₀ v₁ k) (hs : slot ∈ v.keptSlots g) : Claims g v₀ slot ∨ Claims g v₁ slot :=
  (h.completed_kept hs).imp claims_of_completed claims_of_completed

theorem claims (h : Halves v v₀ v₁ k) (hc : Claims g v slot) : Claims g v₀ slot ∨ Claims g v₁ slot := by
  obtain ⟨hq, hs | hs | hs⟩ := hc
  · exact h.claims_head hs
  · exact h.claims_kept hs
  · exact h.claims_tail hq hs

/-- The region at the cut is claimed by the row, or the row closes it. -/
theorem claims_cutRegion (h : Halves v v₀ v₁ k) (hk : k < v.qlen) :
    Claims g v (v.slot g (v₀.nbuf g / g.regionSize)) ∨ Closes g v (v.slot g (v₀.nbuf g / g.regionSize)) := by
  rcases h.cutRegion (g := g) hk with hlt | ⟨ht, hs⟩
  · exact .inr ⟨_, hlt, rfl⟩
  · exact .inl ⟨by omega, .inr (.inr (BatchRow.mem_tailSlots.mpr ⟨ht, hs.symm⟩))⟩

theorem of_claims₀ (h : Halves v v₀ v₁ k) (hc : Claims g v₀ slot) : Claims g v slot ∨ Closes g v slot := by
  obtain ⟨hq₀, hs | hs | hs⟩ := hc
  · obtain ⟨⟨-, hh⟩, rfl⟩ := BatchRow.mem_headSlots.mp hs
    have hq : v.qlen ≠ 0 := by
      have := h.le
      have := h.qlen₀
      omega
    exact .inl ⟨hq, .inl (BatchRow.mem_headSlots.mpr ⟨⟨hq, h.head₀ ▸ hh⟩, h.slot₀ 0⟩)⟩
  · exact .inr (h.closes.mpr (.inl (closes_of_kept hs)))
  · obtain ⟨ht, rfl⟩ := BatchRow.mem_tailSlots.mp hs
    rw [BatchRow.lastSlot_eq ht, h.slot₀]
    by_cases hk : k = v.qlen
    · subst hk
      have hnbuf := h.whole (g := g)
      have ht' : v.tail g ≠ 0 := by
        unfold BatchRow.tail at ht ⊢
        rwa [← hnbuf]
      refine .inl ⟨h.qlen₀ ▸ hq₀, .inr (.inr (BatchRow.mem_tailSlots.mpr ⟨ht', ?_⟩))⟩
      rw [BatchRow.lastSlot_eq ht', hnbuf]
    · exact h.claims_cutRegion (Nat.lt_of_le_of_ne h.le hk)

theorem of_claims₁ (h : Halves v v₀ v₁ k) (hc : Claims g v₁ slot) : Claims g v slot ∨ Closes g v slot := by
  obtain ⟨hq₁, hs | hs | hs⟩ := hc
  · obtain ⟨-, rfl⟩ := BatchRow.mem_headSlots.mp hs
    rw [h.slot₁, Nat.add_zero]
    have := h.qlen₁
    exact h.claims_cutRegion (by omega)
  · exact .inr (h.closes.mpr (.inr (closes_of_kept hs)))
  · obtain ⟨ht, rfl⟩ := BatchRow.mem_tailSlots.mp hs
    have ht' : v.tail g ≠ 0 := h.tail ▸ ht
    have hq : v.qlen ≠ 0 := by
      have := h.qlen₁
      omega
    exact .inl ⟨hq, .inr (.inr (BatchRow.mem_tailSlots.mpr ⟨ht', h.lastSlot₁ ht'⟩))⟩

end Halves

end VllmHcu.Dbo
