import Mathlib.Data.Nat.Basic
import Mathlib.Tactic.Common
import Mathlib.Tactic.Ring

/-!
# Contiguous tensors and the collectives on them

A contiguous tensor is a function of its flat position: entry `o` of block `i`
of width `w` stands at `i * w + o`. A group of ranks holds one such function a
rank.
-/

namespace VllmHcu

theorem block_div {w i o : Nat} (h : o < w) : (i * w + o) / w = i := by
  rw [Nat.add_comm, Nat.add_mul_div_right _ _ (by omega), Nat.div_eq_of_lt h, Nat.zero_add]

theorem block_mod {w i o : Nat} (h : o < w) : (i * w + o) % w = o := by
  rw [Nat.add_comm, Nat.add_mul_mod_self_right, Nat.mod_eq_of_lt h]

theorem block_lt {a w i o : Nat} (hi : i < a) (ho : o < w) : i * w + o < a * w :=
  calc i * w + o < i * w + w := by omega
    _ = (i + 1) * w := (Nat.succ_mul i w).symm
    _ ≤ a * w := Nat.mul_le_mul_right w hi

/-! ## Parts of different lengths, one after another -/

section
variable {off len : Nat → Nat} (hoff : ∀ n, off (n + 1) = off n + len n)
include hoff

theorem offset_mono {n m : Nat} (h : n ≤ m) : off n ≤ off m := by
  induction h with
  | refl => exact Nat.le_refl _
  | step _ ih => exact ih.trans (by rw [hoff]; omega)

theorem offset_inj {n m i j : Nat} (hi : i < len n) (hj : j < len m) (h : off n + i = off m + j) : n = m ∧ i = j := by
  have hlt : ∀ {n m i j : Nat}, i < len n → off n + i = off m + j → ¬ n < m := by
    intro n m i j hi h hlt
    have := offset_mono hoff hlt
    rw [Nat.succ_eq_add_one, hoff] at this
    omega
  rcases Nat.lt_trichotomy n m with hl | rfl | hl
  · exact absurd hl (hlt hi h)
  · exact ⟨rfl, by omega⟩
  · exact absurd hl (hlt hj h.symm)

/-- What is right on every part is right on the concatenation of the parts. -/
theorem map_range_offset {α β : Type*} (hzero : off 0 = 0) {f : Nat → β} {g : α → β} {part : Nat → List α} :
    ∀ {n : Nat}, (∀ m < n, ∀ i < len m, (part m)[i]?.map g = some (f (off m + i))) →
      (∀ m < n, (part m).length = len m) →
      (List.range (off n)).map f = ((List.range n).flatMap part).map g
  | 0, _, _ => by simp [hzero]
  | n + 1, h, hlen => by
    have ih := map_range_offset hzero (n := n) (fun m hm => h m (by omega)) (fun m hm => hlen m (by omega))
    rw [hoff, List.range_add, List.map_append, ih, List.range_succ, List.flatMap_append, List.map_append]
    congr 1
    rw [List.flatMap_singleton]
    refine List.ext_getElem? fun i => ?_
    by_cases hi : i < len n
    · have := h n (Nat.lt_succ_self n) i hi
      simp [hi, this]
    · have hpart := hlen n (Nat.lt_succ_self n)
      simp [hi, hpart]

end

section
variable {α : Type*}

/-- `x.permute(1, 0, ...).contiguous()`, `x` of shape `(a, b, ...)` with inner blocks of `w` entries. -/
def swapLeading (a b w : Nat) (x : Nat → α) : Nat → α :=
  fun n => x ((n / w % a * b + n / w / a) * w + n % w)

theorem swapLeading_apply {a b w i j o : Nat} (x : Nat → α) (hi : i < a) (ho : o < w) :
    swapLeading a b w x ((j * a + i) * w + o) = x ((i * b + j) * w + o) := by
  unfold swapLeading
  rw [block_div ho, block_mod ho, block_div hi, block_mod hi]

/-- `torch.cat([x, y], dim=-1)` for rows of `v` and of `w` entries. -/
def catLast (v w : Nat) (x y : Nat → α) : Nat → α := fun n =>
  let row := n / (v + w)
  let o := n % (v + w)
  if o < v then x (row * v + o) else y (row * w + (o - v))

theorem catLast_left {v w i o : Nat} (x y : Nat → α) (ho : o < v) :
    catLast v w x y (i * (v + w) + o) = x (i * v + o) := by
  have hw : o < v + w := by omega
  simp only [catLast, block_div hw, block_mod hw, if_pos ho]

theorem catLast_right {v w i o : Nat} (x y : Nat → α) (ho : o < w) :
    catLast v w x y (i * (v + w) + (v + o)) = y (i * w + o) := by
  have hw : v + o < v + w := by omega
  have hv : ¬ v + o < v := by omega
  simp only [catLast, block_div hw, block_mod hw, if_neg hv, Nat.add_sub_cancel_left]

/-- Columns `off .. off + w` of rows of `v` entries, as a tensor of its own. -/
def sliceLast (v off w : Nat) (x : Nat → α) : Nat → α :=
  fun n => x (n / w * v + (off + n % w))

theorem sliceLast_apply {v off w i o : Nat} (x : Nat → α) (ho : o < w) :
    sliceLast v off w x (i * w + o) = x (i * v + (off + o)) := by
  unfold sliceLast
  rw [block_div ho, block_mod ho]

/-- `all_to_all_single` on equal chunks: what `rank` receives. -/
def allToAllSingle (chunk : Nat) (send : Nat → Nat → α) (rank : Nat) : Nat → α :=
  fun n => send (n / chunk) (rank * chunk + n % chunk)

theorem allToAllSingle_apply {chunk s o : Nat} (send : Nat → Nat → α) (rank : Nat) (ho : o < chunk) :
    allToAllSingle chunk send rank (s * chunk + o) = send s (rank * chunk + o) := by
  unfold allToAllSingle
  rw [block_div ho, block_mod ho]

/-- `all_gather(dim=0)` of `size` entries a rank. -/
def allGather (size : Nat) (x : Nat → Nat → α) : Nat → α :=
  fun n => x (n / size) (n % size)

theorem allGather_apply {size s o : Nat} (x : Nat → Nat → α) (ho : o < size) :
    allGather size x (s * size + o) = x s o := by
  unfold allGather
  rw [block_div ho, block_mod ho]

end

end VllmHcu
