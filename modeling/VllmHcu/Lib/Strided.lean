import Mathlib.Algebra.BigOperators.Ring.List
import Mathlib.Algebra.Ring.Nat
import Mathlib.Data.List.Forall2
import Mathlib.Data.List.Nodup
import Mathlib.Tactic.Ring

/-!
# Strided views

The address of an index is its dot product with the strides. For the strides of
a contiguous shape it is the row-major number of the index. In a pitched view
the stride of one dimension is replaced: then the entries of one block are its
page of consecutive addresses exactly when no other dimension lies outside it.
-/

namespace VllmHcu

def dot (idx stride : List Nat) : Nat := (List.zipWith (· * ·) idx stride).sum

@[simp] theorem dot_nil (stride : List Nat) : dot [] stride = 0 := rfl

@[simp] theorem dot_cons (i s : Nat) (idx stride : List Nat) : dot (i :: idx) (s :: stride) = i * s + dot idx stride := rfl

theorem dot_append {a c : List Nat} (b d : List Nat) (h : a.length = c.length) :
    dot (a ++ b) (c ++ d) = dot a c + dot b d := by
  unfold dot
  rw [List.zipWith_append h, List.sum_append]

theorem dot_map_mul (k : Nat) : ∀ idx stride : List Nat, dot idx (stride.map (· * k)) = dot idx stride * k
  | [], _ => (Nat.zero_mul k).symm
  | _ :: _, [] => (Nat.zero_mul k).symm
  | i :: idx, s :: stride => by
    rw [List.map_cons, dot_cons, dot_cons, dot_map_mul k idx stride]
    ring

/-! ## Contiguous shapes -/

/-- The strides of a contiguous shape. -/
def contiguous : List Nat → List Nat
  | [] => []
  | _ :: ds => ds.prod :: contiguous ds

@[simp] theorem contiguous_length (ds : List Nat) : (contiguous ds).length = ds.length := by
  induction ds with
  | nil => rfl
  | cons d ds ih => simp [contiguous, ih]

theorem contiguous_append (a b : List Nat) : contiguous (a ++ b) = (contiguous a).map (· * b.prod) ++ contiguous b := by
  induction a with
  | nil => rfl
  | cons d ds ih => simp [contiguous, ih]

/-- The row-major number of an index. -/
def flat (ds idx : List Nat) : Nat := dot idx (contiguous ds)

@[simp] theorem flat_cons (d i : Nat) (ds idx : List Nat) : flat (d :: ds) (i :: idx) = i * ds.prod + flat ds idx := rfl

/-- An index of a tensor of shape `ds`. -/
abbrev IsIndex (idx ds : List Nat) : Prop := List.Forall₂ (· < ·) idx ds

theorem flat_lt {ds idx : List Nat} (h : IsIndex idx ds) : flat ds idx < ds.prod := by
  induction h with
  | nil => exact Nat.one_pos
  | @cons i d idx ds hi _ ih =>
    rw [flat_cons, List.prod_cons]
    calc i * ds.prod + flat ds idx < i * ds.prod + ds.prod := Nat.add_lt_add_left ih _
      _ = (i + 1) * ds.prod := (Nat.succ_mul i _).symm
      _ ≤ d * ds.prod := Nat.mul_le_mul_right _ hi

theorem mul_add_inj {n i j r t : Nat} (hr : r < n) (ht : t < n) (h : i * n + r = j * n + t) : i = j ∧ r = t := by
  have hn : 0 < n := Nat.zero_lt_of_lt hr
  have hdiv := congrArg (· / n) h
  have hmod := congrArg (· % n) h
  simp only [Nat.mul_comm _ n, Nat.mul_add_div hn, Nat.mul_add_mod, Nat.div_eq_of_lt hr, Nat.div_eq_of_lt ht,
    Nat.mod_eq_of_lt hr, Nat.mod_eq_of_lt ht, Nat.add_zero] at hdiv hmod
  exact ⟨hdiv, hmod⟩

theorem flat_inj {ds idx idx' : List Nat} (h : IsIndex idx ds) (h' : IsIndex idx' ds) (he : flat ds idx = flat ds idx') :
    idx = idx' := by
  induction h generalizing idx' with
  | nil => cases h'; rfl
  | cons hi htail ih =>
    cases h' with
    | cons hj htail' =>
      rw [flat_cons, flat_cons] at he
      obtain ⟨rfl, hrest⟩ := mul_add_inj (flat_lt htail) (flat_lt htail') he
      rw [ih htail' hrest]

theorem isIndex_last {ds : List Nat} (h : ∀ d ∈ ds, 0 < d) : IsIndex (ds.map (· - 1)) ds := by
  induction ds with
  | nil => exact .nil
  | cons d ds ih =>
    have hd := h d List.mem_cons_self
    exact .cons (Nat.sub_lt hd Nat.one_pos) (ih fun x hx => h x (List.mem_cons_of_mem _ hx))

theorem flat_last {ds : List Nat} (h : ∀ d ∈ ds, 0 < d) : flat ds (ds.map (· - 1)) + 1 = ds.prod := by
  induction ds with
  | nil => rfl
  | cons d ds ih =>
    have hd := h d List.mem_cons_self
    have hrest := ih fun x hx => h x (List.mem_cons_of_mem _ hx)
    rw [List.map_cons, flat_cons, List.prod_cons, Nat.add_assoc, hrest]
    obtain ⟨k, rfl⟩ : ∃ k, d = k + 1 := ⟨d - 1, by omega⟩
    rw [Nat.add_sub_cancel, Nat.succ_mul]

/-! ## One dimension with a pitch -/

section
variable {pre post x y : List Nat} {K S b : Nat}

theorem dot_pitched (hx : x.length = pre.length) :
    dot (x ++ b :: y) ((contiguous (pre ++ K :: post)).set pre.length S) =
      flat pre x * (K * post.prod) + b * S + flat post y := by
  rw [contiguous_append, List.set_append_right _ _ (by simp)]
  simp only [List.length_map, contiguous_length, Nat.sub_self, contiguous, List.set_cons_zero]
  rw [dot_append _ _ (by simpa using hx), dot_map_mul, dot_cons, List.prod_cons, ← Nat.add_assoc]
  rfl

/-- Where the entries of a block are not scattered: one block, one entry outside it, or no entries. -/
def PitchSafe (pre post : List Nat) (K : Nat) : Prop := K ≤ 1 ∨ pre.prod = 1 ∨ pre.prod * post.prod = 0

instance (pre post : List Nat) (K : Nat) : Decidable (PitchSafe pre post K) := inferInstanceAs (Decidable (_ ∨ _ ∨ _))

theorem PitchSafe.page (h : PitchSafe pre post K) (hx : IsIndex x pre) (hy : IsIndex y post) (hb : b < K) :
    flat pre x * (K * post.prod) + flat post y < pre.prod * post.prod ∧
      (flat pre x * (K * post.prod) = flat pre x * post.prod) := by
  have hfx := flat_lt hx
  have hfy := flat_lt hy
  rcases h with hK | hpre | hzero
  · obtain rfl : K = 1 := by omega
    rw [Nat.one_mul]
    refine ⟨?_, rfl⟩
    calc flat pre x * post.prod + flat post y < flat pre x * post.prod + post.prod := by omega
      _ = (flat pre x + 1) * post.prod := (Nat.succ_mul _ _).symm
      _ ≤ pre.prod * post.prod := Nat.mul_le_mul_right _ hfx
  · have h0 : flat pre x = 0 := by omega
    rw [h0, Nat.zero_mul, Nat.zero_mul, Nat.zero_add, hpre, Nat.one_mul]
    exact ⟨hfy, rfl⟩
  · have := Nat.mul_pos (Nat.zero_lt_of_lt hfx) (Nat.zero_lt_of_lt hfy)
    omega

theorem not_pitchSafe (h : ¬PitchSafe pre post K) : ∃ x y, IsIndex x pre ∧ IsIndex y post ∧ 0 < K ∧
    pre.prod * post.prod ≤ flat pre x * (K * post.prod) + flat post y := by
  unfold PitchSafe at h
  simp only [not_or, Nat.mul_eq_zero] at h
  obtain ⟨hK, hpre, hpre0, hpost0⟩ := h
  have hpos : ∀ {l : List Nat}, l.prod ≠ 0 → ∀ d ∈ l, 0 < d := by
    intro l hl d hd
    exact Nat.pos_of_ne_zero fun h0 => hl (List.prod_eq_zero (h0 ▸ hd))
  refine ⟨_, _, isIndex_last (hpos hpre0), isIndex_last (hpos hpost0), by omega, ?_⟩
  have hlast := flat_last (hpos hpre0)
  have hlast' := flat_last (hpos hpost0)
  obtain ⟨p, hp⟩ : ∃ p, pre.prod = p + 2 := ⟨pre.prod - 2, by omega⟩
  obtain ⟨q, hq⟩ : ∃ q, post.prod = q + 1 := ⟨post.prod - 1, by omega⟩
  have hfx : flat pre (pre.map (· - 1)) = p + 1 := by omega
  have hfy : flat post (post.map (· - 1)) = q := by omega
  rw [hfx, hfy, hp, hq]
  calc (p + 2) * (q + 1) ≤ (p + 1) * (2 * (q + 1)) + q := by
        have : (p + 1) * (2 * (q + 1)) = (p + 2) * (q + 1) + p * (q + 1) := by ring
        omega
    _ ≤ (p + 1) * (K * (q + 1)) + q :=
        Nat.add_le_add_right (Nat.mul_le_mul_left _ (Nat.mul_le_mul_right _ (by omega))) _

/-- The address of an index in a pitched view. -/
def pitchedAddress (pre post : List Nat) (K S : Nat) (x : List Nat) (b : Nat) (y : List Nat) : Nat :=
  flat pre x * (K * post.prod) + b * S + flat post y

/-- Distinct indices have distinct addresses, and those of block `b` lie in its page. -/
structure PitchConfined (pre post : List Nat) (K S : Nat) : Prop where
  distinct : ∀ x b y x' b' y', IsIndex x pre → b < K → IsIndex y post → IsIndex x' pre → b' < K → IsIndex y' post →
    pitchedAddress pre post K S x b y = pitchedAddress pre post K S x' b' y' → x = x' ∧ b = b' ∧ y = y'
  page : ∀ x b y, IsIndex x pre → b < K → IsIndex y post →
    pitchedAddress pre post K S x b y < b * S + pre.prod * post.prod

theorem pitchConfined_iff (hS : pre.prod * post.prod ≤ S) : PitchConfined pre post K S ↔ PitchSafe pre post K := by
  constructor
  · intro h
    by_contra hsafe
    obtain ⟨x, y, hx, hy, hK, hle⟩ := not_pitchSafe hsafe
    have := h.page x 0 y hx hK hy
    unfold pitchedAddress at this
    omega
  · intro h
    refine ⟨fun x b y x' b' y' hx hb hy hx' hb' hy' he => ?_, fun x b y hx hb hy => ?_⟩
    · obtain ⟨hlt, hsame⟩ := h.page hx hy hb
      obtain ⟨hlt', hsame'⟩ := h.page hx' hy' hb'
      unfold pitchedAddress at he
      have heq : b * S + (flat pre x * (K * post.prod) + flat post y) =
          b' * S + (flat pre x' * (K * post.prod) + flat post y') := by omega
      obtain ⟨rfl, hrest⟩ := mul_add_inj (hlt.trans_le hS) (hlt'.trans_le hS) heq
      rw [hsame, hsame'] at hrest
      obtain ⟨hfx, hfy⟩ := mul_add_inj (flat_lt hy) (flat_lt hy') hrest
      exact ⟨flat_inj hx hx' hfx, rfl, flat_inj hy hy' hfy⟩
    · have := (h.page hx hy hb).1
      unfold pitchedAddress
      omega

end

/-! ## Permuted dimensions -/

/-- The entries of `l` in the order `σ`. -/
def pick (l σ : List Nat) : List Nat := σ.map fun i => l.getD i 0

@[simp] theorem pick_length (l σ : List Nat) : (pick l σ).length = σ.length := List.length_map _

theorem pick_pred (l σ : List Nat) : pick (l.map (· - 1)) σ = (pick l σ).map (· - 1) := by
  unfold pick
  rw [List.map_map]
  apply List.map_congr_left
  intro i _
  rw [List.getD_eq_getElem?_getD, List.getElem?_map, Function.comp_apply, List.getD_eq_getElem?_getD]
  cases l[i]? <;> rfl

theorem pick_getD {l σ : List Nat} {j : Nat} (hj : j < σ.length) : (pick l σ).getD j 0 = l.getD σ[j] 0 := by
  simp [pick, List.getD_eq_getElem?_getD, hj]

theorem dot_eq_sum : ∀ {n : Nat} {a b : List Nat}, a.length = n → b.length = n →
    dot a b = ((List.range n).map fun i => a.getD i 0 * b.getD i 0).sum
  | 0, [], _, _, _ => rfl
  | n + 1, i :: a, s :: b, ha, hb => by
    rw [dot_cons, dot_eq_sum (Nat.succ.inj ha) (Nat.succ.inj hb), List.range_succ_eq_map, List.map_cons, List.sum_cons,
      List.map_map]
    rfl

theorem isIndex_iff {n : Nat} {idx ds : List Nat} (hidx : idx.length = n) (hds : ds.length = n) :
    IsIndex idx ds ↔ ∀ i < n, idx.getD i 0 < ds.getD i 0 := by
  rw [IsIndex, List.forall₂_iff_get]
  constructor
  · intro ⟨_, h⟩ i hi
    have := h i (by omega) (by omega)
    simpa [List.getD_eq_getElem?_getD, hidx, hds, hi] using this
  · intro h
    refine ⟨hidx.trans hds.symm, fun i hi hi' => ?_⟩
    have := h i (by omega)
    simpa [List.getD_eq_getElem?_getD, hi, hi'] using this

section
variable {n : Nat} {σ : List Nat} (hσ : σ.Perm (List.range n))
include hσ

theorem perm_length : σ.length = n := hσ.length_eq.trans List.length_range

theorem perm_nodup : σ.Nodup := hσ.nodup_iff.mpr List.nodup_range

theorem perm_mem {i : Nat} : i ∈ σ ↔ i < n := hσ.mem_iff.trans List.mem_range

theorem perm_getElem_lt {j : Nat} (hj : j < σ.length) : σ[j] < n := (perm_mem hσ).mp (List.getElem_mem hj)

theorem perm_idxOf_lt {i : Nat} (hi : i < n) : σ.idxOf i < n := by
  have := List.idxOf_lt_length_of_mem ((perm_mem hσ).mpr hi)
  rwa [perm_length hσ] at this

theorem pick_inverse {l : List Nat} {i : Nat} (hi : i < n) : (pick l σ).getD (σ.idxOf i) 0 = l.getD i 0 := by
  have hmem := (perm_mem hσ).mpr hi
  rw [pick_getD (List.idxOf_lt_length_of_mem hmem), List.getElem_idxOf]

theorem isIndex_pick {idx ds : List Nat} (hidx : idx.length = n) (hds : ds.length = n) :
    IsIndex (pick idx σ) (pick ds σ) ↔ IsIndex idx ds := by
  have hlen := perm_length hσ
  rw [isIndex_iff hidx hds, isIndex_iff ((pick_length _ _).trans hlen) ((pick_length _ _).trans hlen)]
  constructor
  · intro h i hi
    have := h _ (perm_idxOf_lt hσ hi)
    rwa [pick_inverse hσ hi, pick_inverse hσ hi] at this
  · intro h j hj
    rw [pick_getD (by omega), pick_getD (by omega)]
    exact h _ (perm_getElem_lt hσ (by omega))

theorem pick_perm {l : List Nat} (hl : l.length = n) : (pick l σ).Perm l := by
  have hrange : (List.range n).map (fun i => l.getD i 0) = l := by
    apply List.ext_getElem
    · simp [hl]
    · intro i hi hi'
      simp [List.getD_eq_getElem?_getD, hi']
  have hmap := hσ.map fun i => l.getD i 0
  rwa [hrange] at hmap

theorem pick_injective {a b : List Nat} (ha : a.length = n) (hb : b.length = n) (h : pick a σ = pick b σ) : a = b := by
  apply List.ext_getElem (ha.trans hb.symm)
  intro i hi _
  have := pick_inverse hσ (l := a) (show i < n by omega)
  rw [h, pick_inverse hσ (show i < n by omega)] at this
  simpa [List.getD_eq_getElem?_getD, hi, show i < b.length by omega] using this.symm

theorem pick_pick {p : List Nat} (hp : p.length = n) : pick (pick p ((List.range n).map σ.idxOf)) σ = p := by
  apply List.ext_getElem
  · rw [pick_length, perm_length hσ, hp]
  · intro j hj hj'
    have hjσ : j < σ.length := by simpa using hj
    have hn := perm_getElem_lt hσ hjσ
    simp [pick, List.getD_eq_getElem?_getD, hn, (perm_nodup hσ).idxOf_getElem j hjσ, hj']

theorem pick_unpick {l : List Nat} (hl : l.length = n) : pick (pick l σ) ((List.range n).map σ.idxOf) = l := by
  apply List.ext_getElem
  · simp [hl]
  · intro i hi hi'
    have hin : i < n := by simpa using hi
    have := pick_inverse hσ (l := l) hin
    have hget : l.getD i 0 = l[i] := by simp [List.getD_eq_getElem?_getD, hi']
    rw [← hget, ← this]
    simp [pick]

/-- Replacing the entry of dimension 0 before or after the order is undone. -/
theorem pick_set (p : List Nat) {S : Nat} (hp : p.length = n) (hn : 0 < n) :
    pick (p.set (σ.idxOf 0) S) ((List.range n).map σ.idxOf) = S :: (pick p ((List.range n).map σ.idxOf)).tail := by
  obtain ⟨m, rfl⟩ : ∃ m, n = m + 1 := ⟨n - 1, by omega⟩
  have hzero := perm_idxOf_lt hσ hn
  rw [List.range_succ_eq_map]
  simp only [pick, List.map_cons, List.map_map, List.tail_cons]
  congr 1
  · simp [List.getD_eq_getElem?_getD, hp, hzero]
  · apply List.map_congr_left
    intro i hi
    have hmem := (perm_mem hσ).mpr (Nat.succ_lt_succ (List.mem_range.mp hi))
    have hne : σ.idxOf 0 ≠ σ.idxOf (i + 1) := by
      intro he
      exact absurd ((List.idxOf_inj ((perm_mem hσ).mpr hn)).mp he) (Nat.succ_ne_zero i).symm
    simp [List.getD_eq_getElem?_getD, List.getElem?_set_ne hne]

theorem dot_pick {idx stride : List Nat} (hidx : idx.length = n) (hstride : stride.length = n) :
    dot idx (pick stride ((List.range n).map σ.idxOf)) = dot (pick idx σ) stride := by
  have hlen := perm_length hσ
  rw [dot_eq_sum hidx (by simp), dot_eq_sum ((pick_length _ _).trans hlen) hstride]
  have hleft : ((List.range n).map fun i => idx.getD i 0 * (pick stride ((List.range n).map σ.idxOf)).getD i 0) =
      (List.range n).map fun i => idx.getD i 0 * stride.getD (σ.idxOf i) 0 := by
    refine List.map_congr_left fun i hi => ?_
    rw [pick_getD (by simpa using hi)]
    simp
  have hright : ((List.range n).map fun j => (pick idx σ).getD j 0 * stride.getD j 0) =
      σ.map fun i => idx.getD i 0 * stride.getD (σ.idxOf i) 0 := by
    apply List.ext_getElem
    · simp [hlen]
    · intro j hj _
      have hj' : j < σ.length := by simpa [hlen] using hj
      rw [List.getElem_map, List.getElem_map, List.getElem_range, pick_getD hj', (perm_nodup hσ).idxOf_getElem j hj']
  rw [hleft, hright]
  exact ((hσ.map _).sum_eq).symm

end

end VllmHcu
