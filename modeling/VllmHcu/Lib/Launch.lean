import VllmHcu.Lib.Scatter
import VllmHcu.Lib.Stride

/-!
# Masked launches

A one-dimensional launch whose lanes cover the positions below a size: every
position is stored once, whatever the block size.
-/

namespace VllmHcu

section
variable {α : Type}

/-- The stores of `kernel[(cdiv(SIZE, BLOCK),)]` with lanes `i = program_id * BLOCK + arange(0, BLOCK)` and mask `i < SIZE`. -/
def launchStores (size block : Nat) (value : Nat → α) : List (Nat × α) :=
  (List.range (cdiv size block)).flatMap fun program =>
    ((List.range' (program * block) block).filter (· < size)).map fun i => (i, value i)

def launch (size block : Nat) (value out : Nat → α) : Nat → α := scatter out (launchStores size block value)

theorem launchStores_eq {size block : Nat} (hb : 0 < block) (value : Nat → α) :
    launchStores size block value = (List.range size).map fun i => (i, value i) := by
  have hlanes := flatMap_range' 0 block (cdiv size block)
  simp only [Nat.zero_add] at hlanes
  unfold launchStores
  rw [← List.map_flatMap, ← List.filter_flatMap, hlanes]
  congr 1
  obtain ⟨extra, he⟩ := Nat.exists_eq_add_of_le (le_cdiv_mul size hb)
  have hlow : (List.range size).filter (· < size) = List.range size :=
    List.filter_eq_self.mpr fun i hi => by simpa using hi
  have hhigh : ((List.range extra).map (size + ·)).filter (· < size) = [] :=
    List.filter_eq_nil_iff.mpr fun i hi => by
      obtain ⟨j, -, rfl⟩ := List.mem_map.mp hi
      simp
  rw [← List.range_eq_range', he, List.range_add, List.filter_append, hlow, hhigh, List.append_nil]

theorem launch_apply {size block : Nat} (hb : 0 < block) (value out : Nat → α) {i : Nat} (hi : i < size) :
    launch size block value out i = value i := by
  unfold launch
  rw [launchStores_eq hb]
  apply scatter_of_mem
  · rw [List.map_map]
    exact List.nodup_range.map fun a b h => h
  · exact List.mem_map.mpr ⟨i, List.mem_range.mpr hi, rfl⟩

end

end VllmHcu
