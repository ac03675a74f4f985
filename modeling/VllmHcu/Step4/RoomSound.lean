import VllmHcu.Step4.ScheduleSound

/-!
# Which regions keep their row

A region that is not claimed keeps its row exactly if there is room: the free
rows and those recycled before its own are enough for the regions that get a new
row. More claims leave less room.
-/

namespace VllmHcu.Step4

namespace Step4PendingTable

/-- Rows enough for the regions of `D` before the row of `slot` is recycled. -/
def Room (b : Step4PendingTable) (D : Finset Nat) (slot : Nat) : Prop :=
  (D \ b.mappedSlots).card ≤ b.freeRows.card + (b.olderSlots D (b.rowOf slot)).card

instance (b : Step4PendingTable) (D : Finset Nat) (slot : Nat) : Decidable (b.Room D slot) :=
  inferInstanceAs (Decidable (_ ≤ _))

variable {b t t' : Step4PendingTable} {D E : Finset Nat} {slot row : Nat}

theorem Room.mono (hD : D ⊆ E) (h : b.Room E slot) : b.Room D slot := by
  have hnew : (D \ b.mappedSlots).card ≤ (E \ b.mappedSlots).card :=
    Finset.card_le_card (Finset.sdiff_subset_sdiff hD (Finset.Subset.refl _))
  have hold : (b.olderSlots E (b.rowOf slot)).card ≤ (b.olderSlots D (b.rowOf slot)).card :=
    Finset.card_le_card (Finset.filter_subset_filter _ (Finset.sdiff_subset_sdiff (Finset.Subset.refl _) hD))
  unfold Room at *
  omega

namespace TouchedFrom

theorem room (hwf : b.Wf) (h : TouchedFrom b D t) (hmem : slot ∉ D) (hs : t.rowOfSlot slot = some row) :
    b.Room D slot := by
  have hb := (h.others slot hmem row hs).1
  have hlost : (b.mappedSlots \ D) \ (t.mappedSlots \ D) ⊆ b.olderSlots D (b.rowOf slot) := by
    intro s hin
    obtain ⟨hsb, hst⟩ := Finset.mem_sdiff.mp hin
    obtain ⟨hmap, hsD⟩ := Finset.mem_sdiff.mp hsb
    obtain ⟨r, hr⟩ := hwf.mem_mappedSlots.mp hmap
    have hn : t.rowOfSlot s = none := by
      apply h.wf.not_mem_mappedSlots.mp
      intro hc
      exact hst (Finset.mem_sdiff.mpr ⟨hc, hsD⟩)
    refine Finset.mem_filter.mpr ⟨hsb, ?_⟩
    rw [rowOf_eq hr, rowOf_eq hb]
    exact (h.lost s hsD r hr hn).2 slot hmem row hs
  have hkept : t.mappedSlots \ D ⊆ b.mappedSlots \ D := by
    intro s hin
    obtain ⟨hmap, hsD⟩ := Finset.mem_sdiff.mp hin
    obtain ⟨r, hr⟩ := h.wf.mem_mappedSlots.mp hmap
    exact Finset.mem_sdiff.mpr ⟨hwf.mem_mappedSlots.mpr ⟨r, (h.others s hsD r hr).1⟩, hsD⟩
  have hcard := Finset.card_le_card hlost
  rw [Finset.card_sdiff_of_subset hkept] at hcard
  have hle := Finset.card_le_card hkept
  have hrest := h.card_rest
  have hunion := Finset.card_sdiff_add_card D b.mappedSlots
  have hunion' := Finset.card_sdiff_add_card b.mappedSlots D
  rw [Finset.union_comm] at hunion'
  have := hwf.card_mappedSlots
  have := h.wf.card_mappedSlots
  have := h.capacity
  unfold Room
  omega

theorem survives_iff (hwf : b.Wf) (h : TouchedFrom b D t) (hmem : slot ∉ D) (hb : b.rowOfSlot slot = some row) :
    t.rowOfSlot slot = some row ↔ b.Room D slot := by
  constructor
  · exact h.room hwf hmem
  · intro hroom
    unfold Room at hroom
    rw [rowOf_eq hb] at hroom
    exact h.survives hwf hmem hb hroom

theorem mapped_of_subset (hwf : b.Wf) (h : TouchedFrom b D t) (h' : TouchedFrom b E t') (hD : D ⊆ E) (hmem : slot ∉ E)
    (hs : t'.rowOfSlot slot = some row) : t.rowOfSlot slot = some row := by
  have hb := (h'.others slot hmem row hs).1
  apply (h.survives_iff hwf (fun hc => hmem (hD hc)) hb).mpr
  exact (h'.room hwf hmem hs).mono hD

end TouchedFrom

/-! ## Dropped slots -/

theorem retire_rowOfSlot : (t.retire slot).rowOfSlot = t.rowOfSlot := by
  unfold retire
  split
  · rfl
  · rfl

theorem release_rowOfSlot {slot' : Nat} (hne : slot' ≠ slot) : (t.release slot).rowOfSlot slot' = t.rowOfSlot slot' := by
  unfold release
  split
  · rfl
  · exact Function.update_of_ne hne ..

end Step4PendingTable

open Step4PendingTable

theorem endStep_rowOfSlot {g : Step4DSAGeometry} {slot : Nat} : ∀ {completed : List Nat} {t : Step4PendingTable},
    slot ∉ completed → (endStep g completed t).rowOfSlot slot = t.rowOfSlot slot
  | [], _, _ => rfl
  | a :: completed, t, h => by
    rw [List.mem_cons, not_or] at h
    have ih := fun t => endStep_rowOfSlot (g := g) (t := t) h.2
    unfold endStep at ih ⊢
    rw [List.foldl_cons, ih]
    split
    · rw [retire_rowOfSlot]
    · exact release_rowOfSlot h.1

end VllmHcu.Step4
