import Mathlib.Algebra.BigOperators.Group.List.Basic
import Mathlib.Data.List.Forall2
import Mathlib.Data.Set.Function
import Mathlib.Order.Interval.Set.Defs
import Mathlib.Tactic.Common
import Mathlib.Tactic.Ring

/-!
# Permuting the axes of a tensor

An index of a tensor is a list of coordinates, one below each size of the
shape. `ravel` gives its row-major position and `unravel` reads the coordinates
back. Permuting the axes and laying the result out again moves every position
to one other position.
-/

namespace VllmHcu.Axes

def ravel : List Nat → List Nat → Nat
  | _ :: ds, i :: is => i * ds.prod + ravel ds is
  | _, _ => 0

def unravel : List Nat → Nat → List Nat
  | [], _ => []
  | d :: ds, f => f / ds.prod % d :: unravel ds f

theorem ravel_lt {is ds : List Nat} (h : List.Forall₂ (· < ·) is ds) : ravel ds is < ds.prod := by
  induction h with
  | nil => simp [ravel]
  | @cons i d is ds hi _ ih =>
    rw [ravel, List.prod_cons]
    calc i * ds.prod + ravel ds is < i * ds.prod + ds.prod := by omega
      _ = (i + 1) * ds.prod := (Nat.succ_mul i ds.prod).symm
      _ ≤ d * ds.prod := Nat.mul_le_mul_right _ hi

theorem unravel_add_mul (ds : List Nat) (i f : Nat) : unravel ds (i * ds.prod + f) = unravel ds f := by
  have hgen : ∀ {ds : List Nat} {i m f : Nat}, ds.prod ∣ m → unravel ds (i * m + f) = unravel ds f := by
    intro ds
    induction ds with
    | nil => intros; rfl
    | cons d ds ih =>
      intro i m f hm
      obtain ⟨q, rfl⟩ := hm
      rw [unravel, unravel, ih ⟨d * q, by rw [List.prod_cons]; ring⟩]
      congr 1
      rcases Nat.eq_zero_or_pos ds.prod with hz | hpos
      · simp [hz]
      · have hform : i * ((d :: ds).prod * q) + f = f + ds.prod * (d * (i * q)) := by
          rw [List.prod_cons]
          ring
        rw [hform, Nat.add_mul_div_left _ _ hpos, Nat.add_mul_mod_self_left]
  exact hgen (Nat.dvd_refl _)

theorem unravel_ravel {is ds : List Nat} (h : List.Forall₂ (· < ·) is ds) : unravel ds (ravel ds is) = is := by
  induction h with
  | nil => rfl
  | @cons i d is ds hi hrest ih =>
    have hlt := ravel_lt hrest
    have hpos : 0 < ds.prod := Nat.lt_of_le_of_lt (Nat.zero_le _) hlt
    rw [ravel, unravel, unravel_add_mul, ih, Nat.add_comm, Nat.add_mul_div_right _ _ hpos, Nat.div_eq_of_lt hlt, Nat.zero_add,
      Nat.mod_eq_of_lt hi]

theorem unravel_length (ds : List Nat) (f : Nat) : (unravel ds f).length = ds.length := by
  induction ds with
  | nil => rfl
  | cons d ds ih => rw [unravel, List.length_cons, ih, List.length_cons]

theorem ravel_unravel_mod : ∀ (ds : List Nat) (f : Nat), ravel ds (unravel ds f) = f % ds.prod
  | [], f => (Nat.mod_one f).symm
  | d :: ds, f => by
    rw [unravel, ravel, ravel_unravel_mod ds f, List.prod_cons, Nat.mul_comm d, Nat.mod_mul, Nat.mul_comm, Nat.add_comm]

theorem ravel_unravel {ds : List Nat} {f : Nat} (h : f < ds.prod) : ravel ds (unravel ds f) = f := by
  rw [ravel_unravel_mod, Nat.mod_eq_of_lt h]

theorem unravel_inShape {ds : List Nat} (f : Nat) (h : 0 < ds.prod) : List.Forall₂ (· < ·) (unravel ds f) ds := by
  induction ds with
  | nil => exact .nil
  | cons d ds ih =>
    rw [List.prod_cons] at h
    exact .cons (Nat.mod_lt _ (Nat.pos_of_mul_pos_right h)) (ih (Nat.pos_of_mul_pos_left h))

/-! ## Permutations of the axes -/

/-- The entries of `l` at the places `perm`. -/
def pick (perm l : List Nat) : List Nat := perm.map fun a => l.getD a 0

def inverse (perm : List Nat) : List Nat := (List.range perm.length).map fun a => perm.idxOf a

theorem pick_inShape {perm is ds : List Nat} (h : List.Forall₂ (· < ·) is ds) (hp : ∀ a ∈ perm, a < ds.length) :
    List.Forall₂ (· < ·) (pick perm is) (pick perm ds) := by
  unfold pick
  rw [List.forall₂_map_left_iff, List.forall₂_map_right_iff, List.forall₂_same]
  intro a ha
  have had := hp a ha
  have hai : a < is.length := by rwa [h.length_eq]
  have := List.forall₂_iff_get.mp h |>.2 a hai had
  simpa [List.getD_eq_getElem?_getD, hai, had] using this

section
variable {perm : List Nat} {n : Nat} (hperm : perm.Perm (List.range n))
include hperm

theorem mem_perm {a : Nat} : a ∈ perm ↔ a < n := by
  rw [hperm.mem_iff, List.mem_range]

theorem perm_length : perm.length = n := by
  rw [hperm.length_eq, List.length_range]

theorem mem_inverse {a : Nat} (ha : a ∈ inverse perm) : a < n := by
  obtain ⟨j, hj, rfl⟩ := List.mem_map.mp ha
  rw [List.mem_range, perm_length hperm] at hj
  have hmem := (mem_perm hperm).mpr hj
  exact (perm_length hperm) ▸ List.idxOf_lt_length_iff.mpr hmem

theorem pick_inverse_pick {l : List Nat} (hl : l.length = n) : pick (inverse perm) (pick perm l) = l := by
  apply List.ext_getElem
  · simp [pick, inverse, perm_length hperm, hl]
  · intro j hj hjl
    have hmem : j ∈ perm := (mem_perm hperm).mpr (by omega)
    have hidx : perm.idxOf j < perm.length := List.idxOf_lt_length_iff.mpr hmem
    simp [pick, inverse, List.getD_eq_getElem?_getD, hidx, hjl]

theorem pick_pick_inverse {l : List Nat} (hl : l.length = n) : pick perm (pick (inverse perm) l) = l := by
  apply List.ext_getElem
  · simp [pick, perm_length hperm, hl]
  · intro j hj hjl
    have hjp : j < perm.length := by rw [perm_length hperm]; omega
    have hlt : perm[j] < perm.length := by
      rw [perm_length hperm]
      exact (mem_perm hperm).mp (List.getElem_mem hjp)
    have hidx : perm.idxOf perm[j] = j := (hperm.nodup_iff.mpr List.nodup_range).idxOf_getElem j hjp
    simp [pick, inverse, List.getD_eq_getElem?_getD, hlt, hidx, hjl]

theorem pick_perm {l : List Nat} (hl : l.length = n) : (pick perm l).Perm l := by
  have hl' : (List.range n).map (fun a => l.getD a 0) = l := by
    apply List.ext_getElem
    · simp [hl]
    · intro i h₁ h₂
      simp [List.getD_eq_getElem?_getD, h₂]
  have := hperm.map fun a => l.getD a 0
  rwa [hl'] at this

end

/-- The position in a tensor of shape `shape` of entry `f` of `x.permute(perm).contiguous()`. -/
def permutePos (shape perm : List Nat) (f : Nat) : Nat :=
  ravel shape (pick (inverse perm) (unravel (pick perm shape) f))

/-- The entry of the permuted tensor that holds position `g`. -/
def permuteBack (shape perm : List Nat) (g : Nat) : Nat :=
  ravel (pick perm shape) (pick perm (unravel shape g))

section
variable {shape perm : List Nat} (hperm : perm.Perm (List.range shape.length))
include hperm

theorem prod_pick : (pick perm shape).prod = shape.prod := (pick_perm hperm rfl).prod_eq

theorem permuted_inShape (f : Nat) (hpos : 0 < shape.prod) :
    List.Forall₂ (· < ·) (pick (inverse perm) (unravel (pick perm shape) f)) shape := by
  have h : List.Forall₂ (· < ·) (unravel (pick perm shape) f) (pick perm shape) :=
    unravel_inShape f (by rwa [prod_pick hperm])
  have hlt : ∀ a ∈ inverse perm, a < (pick perm shape).length := by
    intro a ha
    rw [(pick_perm hperm rfl).length_eq]
    exact mem_inverse hperm ha
  have hpick := pick_inShape h hlt
  rwa [pick_inverse_pick hperm rfl] at hpick

theorem back_inShape (g : Nat) (hpos : 0 < shape.prod) :
    List.Forall₂ (· < ·) (pick perm (unravel shape g)) (pick perm shape) :=
  pick_inShape (unravel_inShape g hpos) fun _ ha => (mem_perm hperm).mp ha

theorem permuteBack_permutePos {f : Nat} (hf : f < shape.prod) : permuteBack shape perm (permutePos shape perm f) = f := by
  have hpos : 0 < shape.prod := by omega
  have hlen : (unravel (pick perm shape) f).length = shape.length := by
    rw [unravel_length, (pick_perm hperm rfl).length_eq]
  rw [permuteBack, permutePos, unravel_ravel (permuted_inShape hperm f hpos), pick_pick_inverse hperm hlen]
  exact ravel_unravel (by rwa [prod_pick hperm])

theorem permutePos_permuteBack {g : Nat} (hg : g < shape.prod) : permutePos shape perm (permuteBack shape perm g) = g := by
  have hpos : 0 < shape.prod := by omega
  rw [permuteBack, permutePos, unravel_ravel (back_inShape hperm g hpos), pick_inverse_pick hperm (unravel_length _ g)]
  exact ravel_unravel hg

/-- Permuting the axes moves every position to one other. -/
theorem permutePos_bijOn : Set.BijOn (permutePos shape perm) (Set.Iio shape.prod) (Set.Iio shape.prod) := by
  have hinv : Set.InvOn (permuteBack shape perm) (permutePos shape perm) (Set.Iio shape.prod) (Set.Iio shape.prod) :=
    ⟨fun f hf => permuteBack_permutePos hperm hf, fun g hg => permutePos_permuteBack hperm hg⟩
  apply hinv.bijOn
  · intro f hf
    exact ravel_lt (permuted_inShape hperm f (Nat.lt_of_le_of_lt (Nat.zero_le f) hf))
  · intro g hg
    have := ravel_lt (back_inShape hperm g (Nat.lt_of_le_of_lt (Nat.zero_le g) hg))
    rwa [prod_pick hperm] at this

end

end VllmHcu.Axes
