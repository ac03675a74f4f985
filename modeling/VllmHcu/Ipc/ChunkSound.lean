import Mathlib.Algebra.BigOperators.Group.List.Basic
import Mathlib.Algebra.Order.BigOperators.Group.List
import Mathlib.Tactic.Ring
import Mathlib.Tactic.Linarith
import Mathlib.Tactic.Common
import VllmHcu.Ipc.AllGather
import VllmHcu.Lib.RowMajor

/-!
# Chunks, regions and slots

The chunks of the programs partition the elements of a tensor, the tensors of a
rank lie apart in its region, and the regions of the two slots lie apart in a
buffer. All of it depends on the row counts and widths only, so the writer of a
chunk and its reader agree.
-/

namespace VllmHcu.Ipc

/-! ## Chunks -/

theorem mem_strided_block {lo hi step x : Nat} (hs : 0 < step) :
    (∃ off ∈ strided lo hi step, ∃ ar < step, off + ar = x ∧ x < hi) ↔ lo ≤ x ∧ x < hi := by
  simp only [mem_strided hs]
  constructor
  · rintro ⟨off, ⟨i, rfl, -⟩, ar, -, rfl, hx⟩
    exact ⟨by omega, hx⟩
  · rintro ⟨hlo, hx⟩
    have hdm := Nat.div_add_mod (x - lo) step
    have hcomm : (x - lo) / step * step = step * ((x - lo) / step) := Nat.mul_comm _ _
    exact ⟨lo + (x - lo) / step * step, ⟨(x - lo) / step, rfl, by omega⟩, (x - lo) % step, Nat.mod_lt _ hs, by omega, hx⟩

namespace Grid

theorem mem_chunkElems {g : Grid} {elems pid x : Nat} :
    x ∈ g.chunkElems elems pid ↔ pid * g.chunk elems ≤ x ∧ x < min elems (pid * g.chunk elems + g.chunk elems) := by
  rw [← mem_strided_block g.block_pos]
  unfold chunkElems
  simp only [List.mem_flatMap, List.mem_filter, List.mem_map, List.mem_range, decide_eq_true_eq]
  constructor
  · rintro ⟨off, hoff, ⟨ar, har, rfl⟩, hx⟩
    exact ⟨off, hoff, ar, har, rfl, hx⟩
  · rintro ⟨off, hoff, ar, har, rfl, hx⟩
    exact ⟨off, hoff, ⟨ar, har, rfl⟩, hx⟩

theorem lt_of_mem_chunkElems {g : Grid} {elems pid x : Nat} (h : x ∈ g.chunkElems elems pid) : x < elems :=
  lt_of_lt_of_le (mem_chunkElems.mp h).2 (Nat.min_le_left _ _)

theorem le_nprog_mul_chunk (g : Grid) (elems : Nat) : elems ≤ g.nprog * g.chunk elems := by
  calc elems ≤ cdiv elems g.nprog * g.nprog := le_cdiv_mul elems g.nprog_pos
    _ ≤ cdiv (cdiv elems g.nprog) g.block * g.block * g.nprog :=
      Nat.mul_le_mul_right _ (le_cdiv_mul _ g.block_pos)
    _ = g.nprog * g.chunk elems := by rw [Grid.chunk, Nat.mul_comm]

theorem exists_mem_chunkElems (g : Grid) {elems x : Nat} (hx : x < elems) :
    ∃ pid < g.nprog, x ∈ g.chunkElems elems pid := by
  have hle := g.le_nprog_mul_chunk elems
  have hpos : 0 < g.chunk elems := by
    rcases Nat.eq_zero_or_pos (g.chunk elems) with h | h
    · rw [h] at hle
      omega
    · exact h
  have hdm := Nat.div_add_mod x (g.chunk elems)
  have hmod := Nat.mod_lt x hpos
  have hcomm : x / g.chunk elems * g.chunk elems = g.chunk elems * (x / g.chunk elems) := Nat.mul_comm _ _
  refine ⟨x / g.chunk elems, (Nat.div_lt_iff_lt_mul hpos).mpr (by omega), mem_chunkElems.mpr ⟨by omega, ?_⟩⟩
  rw [Nat.lt_min]
  omega

theorem chunkElems_inj {g : Grid} {elems x p p' : Nat} (h : x ∈ g.chunkElems elems p)
    (h' : x ∈ g.chunkElems elems p') : p = p' := by
  rw [mem_chunkElems, Nat.lt_min] at h h'
  have hlt : ∀ {p p' : Nat}, p * g.chunk elems ≤ x → x < p' * g.chunk elems + g.chunk elems → p ≤ p' := by
    intro p p' h₁ h₂
    by_contra hlt
    have hle : (p' + 1) * g.chunk elems ≤ p * g.chunk elems := Nat.mul_le_mul_right _ (Nat.lt_of_not_le hlt)
    have hexp : (p' + 1) * g.chunk elems = p' * g.chunk elems + g.chunk elems := by ring
    omega
  exact Nat.le_antisymm (hlt h.1 h'.2.2) (hlt h'.1 h.2.2)

end Grid

/-! ## Regions -/

namespace Args

/-- All that decides where an element lies. -/
structure SameLayout (a b : Args) : Prop where
  sizes : a.sizes = b.sizes
  widths : a.widths = b.widths

section
variable {a b : Args} (h : SameLayout a b)
include h

theorem SameLayout.rows (r : Nat) : a.rows r = b.rows r := by simp [Args.rows, h.sizes]

theorem SameLayout.width (t : Nat) : a.width t = b.width t := by simp [Args.width, h.widths]

theorem SameLayout.start (r : Nat) : a.start r = b.start r := by simp [Args.start, h.sizes]

theorem SameLayout.tOff (r t : Nat) : a.tOff r t = b.tOff r t := by
  unfold Args.tOff
  rw [h.widths, h.rows r]

theorem SameLayout.moved (g : Grid) (r pid : Nat) : moved g a r pid = moved g b r pid := by
  have hw : a.width = b.width := funext h.width
  unfold Ipc.moved
  rw [hw, h.rows r]

end

theorem tOff_succ (a : Args) (r t : Nat) : a.tOff r (t + 1) = a.tOff r t + a.rows r * a.width t := by
  unfold tOff width
  rw [List.getD_eq_getElem?_getD]
  by_cases ht : t < a.widths.length
  · rw [List.take_add_one, List.getElem?_eq_getElem ht]
    simp only [Option.toList_some, List.map_append, List.map_cons, List.map_nil, List.sum_append, List.sum_cons,
      List.sum_nil, Option.getD_some, Nat.add_zero]
  · have hle : a.widths.length ≤ t := Nat.le_of_not_lt ht
    rw [List.take_of_length_le (by omega), List.take_of_length_le hle, List.getElem?_eq_none hle]
    simp

theorem tOff_mono (a : Args) (r : Nat) {t t' : Nat} (h : t ≤ t') : a.tOff r t ≤ a.tOff r t' :=
  offset_mono (a.tOff_succ r) h

theorem tOff_inj {a : Args} {r t t' i i' : Nat} (hi : i < a.rows r * a.width t) (hi' : i' < a.rows r * a.width t')
    (h : a.tOff r t + i = a.tOff r t' + i') : t = t' ∧ i = i' :=
  offset_inj (a.tOff_succ r) hi hi' h

theorem start_succ (a : Args) (t r : Nat) :
    a.start (r + 1) * a.width t = a.start r * a.width t + a.rows r * a.width t := by
  unfold start rows
  rw [← Nat.add_mul, List.getD_eq_getElem?_getD]
  congr 1
  by_cases hr : r < a.sizes.length
  · rw [List.take_add_one, List.getElem?_eq_getElem hr]
    simp only [Option.toList_some, List.sum_append, List.sum_cons, List.sum_nil, Option.getD_some, Nat.add_zero]
  · have hle : a.sizes.length ≤ r := Nat.le_of_not_lt hr
    rw [List.take_of_length_le (by omega), List.take_of_length_le hle, List.getElem?_eq_none hle]
    simp

theorem start_inj {a : Args} {t r r' i i' : Nat} (hi : i < a.rows r * a.width t) (hi' : i' < a.rows r' * a.width t)
    (h : a.start r * a.width t + i = a.start r' * a.width t + i') : r = r' ∧ i = i' :=
  @offset_inj (fun r => a.start r * a.width t) (fun r => a.rows r * a.width t) (a.start_succ t) r r' i i' hi hi' h

end Args

theorem mem_moved {g : Grid} {a : Args} {r pid t i : Nat} :
    (t, i) ∈ moved g a r pid ↔ t < maxTensors ∧ i ∈ g.chunkElems (a.rows r * a.width t) pid := by
  unfold moved
  simp only [List.mem_flatMap, List.mem_range]
  constructor
  · rintro ⟨t', ht', hm⟩
    split at hm
    · obtain ⟨i', hi', heq⟩ := List.mem_map.mp hm
      cases heq
      exact ⟨ht', hi'⟩
    · cases hm
  · rintro ⟨ht, hi⟩
    refine ⟨t, ht, ?_⟩
    have hlt := Grid.lt_of_mem_chunkElems hi
    have hpos : 0 < a.width t := by
      rcases Nat.eq_zero_or_pos (a.width t) with h | h
      · rw [h] at hlt
        omega
      · exact h
    rw [if_pos hpos]
    exact List.mem_map.mpr ⟨i, hi, rfl⟩

theorem moved_inj {g : Grid} {a : Args} {r t i p p' : Nat} (h : (t, i) ∈ moved g a r p) (h' : (t, i) ∈ moved g a r p') :
    p = p' :=
  Grid.chunkElems_inj (mem_moved.mp h).2 (mem_moved.mp h').2

theorem exists_moved (g : Grid) {a : Args} {r t i : Nat} (ht : t < maxTensors) (hi : i < a.rows r * a.width t) :
    ∃ pid < g.nprog, (t, i) ∈ moved g a r pid := by
  obtain ⟨pid, hpid, hm⟩ := g.exists_mem_chunkElems hi
  exact ⟨pid, hpid, mem_moved.mpr ⟨ht, hm⟩⟩

/-! ## Slots -/

/-- The rows of each rank fit into its region. -/
def Args.Fits (a : Args) (world regionElems : Nat) : Prop := ∀ r < world, a.tOff r maxTensors ≤ regionElems

theorem Args.Fits.lt {a : Args} {world regionElems r t i pid : Nat} {g : Grid} (h : a.Fits world regionElems)
    (hr : r < world) (hm : (t, i) ∈ moved g a r pid) : a.tOff r t + i < regionElems := by
  obtain ⟨ht, hi⟩ := mem_moved.mp hm
  have hlt := Grid.lt_of_mem_chunkElems hi
  have hmono := a.tOff_mono r (show t + 1 ≤ maxTensors by omega)
  have := h r hr
  rw [a.tOff_succ] at hmono
  omega

/-- An element of a buffer belongs to one slot, one source and one place in its region. -/
theorem Group.slotElem_inj {G : Group} {a b : Args} {k k' r r' t t' i i' : Nat} (hr : r < G.world) (hr' : r' < G.world)
    (hi : a.tOff r t + i < G.regionElems) (hi' : b.tOff r' t' + i' < G.regionElems)
    (h : G.slotElem a k r t i = G.slotElem b k' r' t' i') :
    k % 2 = k' % 2 ∧ r = r' ∧ a.tOff r t + i = b.tOff r' t' + i' := by
  have hform : ∀ (a : Args) (k r t i : Nat), G.slotElem a k r t i =
      G.regionElems * (G.world * (k % 2) + r) + (a.tOff r t + i) := by
    intro a k r t i
    unfold Group.slotElem
    ring
  rw [hform, hform] at h
  have hpos : 0 < G.regionElems := by omega
  have hq : G.world * (k % 2) + r = G.world * (k' % 2) + r' := by
    have := congrArg (· / G.regionElems) h
    simpa [Nat.mul_add_div hpos, Nat.div_eq_of_lt hi, Nat.div_eq_of_lt hi'] using this
  have hoff : a.tOff r t + i = b.tOff r' t' + i' := by
    rw [hq] at h
    omega
  have hw : 0 < G.world := by omega
  have hk : k % 2 = k' % 2 := by
    have := congrArg (· / G.world) hq
    simpa [Nat.mul_add_div hw, Nat.div_eq_of_lt hr, Nat.div_eq_of_lt hr'] using this
  rw [hk] at hq
  exact ⟨hk, by omega, hoff⟩

end VllmHcu.Ipc
